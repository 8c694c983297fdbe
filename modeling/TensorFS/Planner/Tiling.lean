import TensorFS.Planner.Plan

namespace TensorFS

open Data

/-! Consecutive regions. -/

/-- The regions are non-empty and follow each other from `start` to `stop`. -/
def Tiles : Nat → Nat → List Region → Prop
  | start, stop, [] => start = stop
  | start, stop, region :: regions =>
      region.offset = start ∧ 0 < region.length ∧
        Tiles (start + region.length) stop regions

theorem Tiles.append {start middle stop : Nat} {left right : List Region}
    (hleft : Tiles start middle left) (hright : Tiles middle stop right) :
    Tiles start stop (left ++ right) := by
  induction left generalizing start with
  | nil =>
      cases hleft
      exact hright
  | cons region regions ih =>
      exact ⟨hleft.1, hleft.2.1, ih hleft.2.2⟩

theorem Tiles.le {start stop : Nat} {regions : List Region}
    (h : Tiles start stop regions) : start ≤ stop := by
  induction regions generalizing start with
  | nil => exact le_of_eq h
  | cons region regions ih => exact (Nat.le_add_right _ _).trans (ih h.2.2)

/-- The regions of one extent: `count` of them, tiling it on the grid. -/
structure Covers (start stop count : Nat) (regions : List Region) : Prop where
  tiles : Tiles start stop regions
  count : regions.length = count
  bounded : ∀ region ∈ regions, region.length ≤ maxObjectSize

theorem Covers.append {start middle stop leftCount rightCount : Nat}
    {left right : List Region} (hleft : Covers start middle leftCount left)
    (hright : Covers middle stop rightCount right) :
    Covers start stop (leftCount + rightCount) (left ++ right) := by
  refine ⟨hleft.tiles.append hright.tiles, ?_, ?_⟩
  · rw [List.length_append, hleft.count, hright.count]
  · intro region hregion
    rcases List.mem_append.mp hregion with hregion | hregion
    · exact hleft.bounded region hregion
    · exact hright.bounded region hregion

theorem Covers.empty (start : Nat) : Covers start start 0 [] :=
  ⟨rfl, rfl, by simp⟩

theorem validateRegions_of_tiles {blob : Bool} {start stop : Nat}
    {regions : List Region} (htiles : Tiles start stop regions)
    (hstop : stop < 2 ^ 64)
    (hbounded : blob = false →
      ∀ region ∈ regions, region.length ≤ maxObjectSize) :
    Plan.validateRegions blob start regions = .ok stop := by
  induction regions generalizing start with
  | nil =>
      cases htiles
      rfl
  | cons region regions ih =>
      obtain ⟨hoffset, hlength, hrest⟩ := htiles
      have hle := hrest.le
      have htail := ih hrest fun hblob other hother =>
        hbounded hblob other (List.mem_cons_of_mem _ hother)
      simp only [Plan.validateRegions, except_bind_eq_ok, exists_unit,
        ensure_eq_ok]
      exact ⟨⟨hoffset, by omega, fun hblob =>
        hbounded hblob region List.mem_cons_self⟩, by omega, htail⟩

theorem validate_of_covers {plan : Plan} {count : Nat}
    (hsize : plan.fileSize < 2 ^ 64)
    (hplanner : plan.planner ≠ .blobV1) (hcount : count ≤ maxObjectCount)
    (hcovers : Covers 0 plan.fileSize count plan.regions) :
    plan.validate = .ok () := by
  have hblob : (plan.planner == PlannerId.blobV1) = false := by
    simpa using hplanner
  have hlength := hcovers.count
  simp only [Plan.validate, hblob, except_bind_eq_ok, exists_unit,
    ensure_eq_ok]
  refine ⟨by omega, by simp, ?_⟩
  split
  · rename_i hzero
    have htiles := hcovers.tiles
    rw [hzero] at htiles
    rw [ensure_eq_ok]
    cases hregions : plan.regions with
    | nil => rfl
    | cons region regions =>
        rw [hregions] at htiles
        have hle := htiles.2.2.le
        have hpos := htiles.2.1
        omega
  · simp only [except_bind_eq_ok, ensure_eq_ok]
    exact ⟨_, validateRegions_of_tiles hcovers.tiles hsize
      fun _ => hcovers.bounded, rfl⟩

theorem validate_blobPlan {fileSize : Nat} (hsize : fileSize < 2 ^ 64) :
    (blobPlan fileSize).validate = .ok () := by
  by_cases hzero : fileSize = 0
  · subst hzero
    rfl
  · have hregions : (blobPlan fileSize).regions = [⟨0, fileSize, .blob⟩] := by
      simp [blobPlan, hzero]
    simp only [Plan.validate, hregions, except_bind_eq_ok, exists_unit,
      ensure_eq_ok]
    refine ⟨by simp [maxObjectCount], by simp, ?_⟩
    rw [if_neg (by simpa [blobPlan] using hzero)]
    simp only [except_bind_eq_ok, ensure_eq_ok]
    refine ⟨fileSize, ?_, rfl⟩
    exact validateRegions_of_tiles
      ⟨rfl, Nat.pos_of_ne_zero hzero, by simp [Tiles]⟩ hsize
      (by simp [blobPlan])

/-! The grid. -/

theorem objectCount_zero : objectCount 0 = 0 := by
  unfold objectCount
  rfl

theorem objectCount_of_pos {length : Nat} (h : 0 < length) :
    objectCount length =
      objectCount (length - min length maxObjectSize) + 1 := by
  unfold objectCount maxObjectSize
  omega

theorem splitObjects_covers (kind : RegionKind) {count cursor length : Nat}
    (hcount : count = objectCount length) :
    Covers cursor (cursor + length) count
      (splitObjects kind count cursor length) := by
  induction count generalizing cursor length with
  | zero =>
      have hzero : length = 0 := by
        by_contra hne
        have hpos := objectCount_of_pos (Nat.pos_of_ne_zero hne)
        omega
      subst hzero
      exact Covers.empty cursor
  | succ count ih =>
      have hpos : 0 < length := by
        by_contra hle
        have hzero : length = 0 := by omega
        rw [hzero, objectCount_zero] at hcount
        omega
      have hmin : 0 < min length maxObjectSize := by
        simp [maxObjectSize, hpos]
      have hsum : min length maxObjectSize +
          (length - min length maxObjectSize) = length := by omega
      have hrest := @ih (cursor + min length maxObjectSize)
        (length - min length maxObjectSize)
        (by rw [objectCount_of_pos hpos] at hcount; omega)
      rw [Nat.add_assoc, hsum] at hrest
      refine ⟨⟨rfl, hmin, hrest.tiles⟩, ?_, ?_⟩
      · rw [splitObjects, List.length_cons, hrest.count]
      · intro region hregion
        rcases List.mem_cons.mp hregion with rfl | hregion
        · exact min_le_right _ _
        · exact hrest.bounded region hregion

theorem appendSplitRegion_eq (regions : List Region) (offset length : Nat)
    (kind : RegionKind) :
    appendSplitRegion regions offset length kind =
      if regions.length + objectCount length ≤ maxObjectCount then
        .ok (regions ++ splitObjects kind (objectCount length) offset length)
      else .error .objectLimit := by
  unfold appendSplitRegion
  split
  · rename_i hfits
    rw [ensure_of hfits, except_ok_bind]
  · rename_i hfits
    rw [ensure_of_not hfits, except_error_bind]

theorem appendSplitRegion_covers {regions : List Region}
    {start offset length used : Nat} (kind : RegionKind)
    (hcovers : Covers start offset used regions)
    (hfits : used + objectCount length ≤ maxObjectCount) :
    ∃ extended, appendSplitRegion regions offset length kind = .ok extended ∧
      Covers start (offset + length) (used + objectCount length) extended := by
  refine ⟨_, ?_, hcovers.append (splitObjects_covers kind rfl)⟩
  rw [appendSplitRegion_eq, if_pos (by rw [hcovers.count]; exact hfits)]

theorem appendSplitRegion_limit {regions : List Region}
    {start offset length used : Nat} (kind : RegionKind)
    (hcovers : Covers start offset used regions)
    (hfull : maxObjectCount < used + objectCount length) :
    appendSplitRegion regions offset length kind = .error .objectLimit := by
  rw [appendSplitRegion_eq, if_neg (by rw [hcovers.count]; omega)]

/-! Seams inside one tensor. -/

/-- The cut points rise strictly from `cursor` and stay inside the tensor. -/
def SeamsOk (length : Nat) : Nat → List Nat → Prop
  | _, [] => True
  | cursor, seam :: seams =>
      cursor < seam ∧ seam < length ∧ SeamsOk length seam seams

/-- The grid objects cut before the first seam that is out of place. -/
def seamPieces (length : Nat) : Nat → List Nat → Nat
  | cursor, [] => objectCount (length - cursor)
  | cursor, seam :: seams =>
      if cursor < seam ∧ seam < length then
        objectCount (seam - cursor) + seamPieces length seam seams
      else 0

theorem appendSeams_covers {regions : List Region}
    {start offset length cursor used : Nat} {seams : List Nat}
    (kind : RegionKind) (hcursor : cursor ≤ length)
    (hcovers : Covers start (offset + cursor) used regions)
    (hseams : SeamsOk length cursor seams)
    (hfits : used + seamPieces length cursor seams ≤ maxObjectCount) :
    ∃ extended, appendSeams offset length kind regions cursor seams =
        .ok extended ∧
      Covers start (offset + length)
        (used + seamPieces length cursor seams) extended := by
  induction seams generalizing regions cursor used with
  | nil =>
      obtain ⟨extended, heq, hcover⟩ :=
        appendSplitRegion_covers kind hcovers hfits
      refine ⟨extended, heq, ?_⟩
      rwa [show offset + cursor + (length - cursor) = offset + length by
        omega] at hcover
  | cons seam seams ih =>
      obtain ⟨hlt, hinside, hrest⟩ := hseams
      simp only [seamPieces, hlt, hinside, and_self, if_true] at hfits ⊢
      obtain ⟨middle, heq, hcover⟩ := @appendSplitRegion_covers regions start
        (offset + cursor) (seam - cursor) used kind hcovers (by omega)
      rw [show offset + cursor + (seam - cursor) = offset + seam by
        omega] at hcover
      obtain ⟨extended, htail, hfinal⟩ := ih (le_of_lt hinside) hcover hrest
        (by omega)
      refine ⟨extended, ?_, by rwa [Nat.add_assoc] at hfinal⟩
      simp only [appendSeams, heq, htail, ensure_of (And.intro hlt hinside),
        except_ok_bind]

theorem appendSeams_limit {regions : List Region}
    {start offset length cursor used : Nat} {seams : List Nat}
    (kind : RegionKind) (hcursor : cursor ≤ length)
    (hcovers : Covers start (offset + cursor) used regions)
    (hused : used ≤ maxObjectCount)
    (hfull : maxObjectCount < used + seamPieces length cursor seams) :
    appendSeams offset length kind regions cursor seams =
      .error .objectLimit := by
  induction seams generalizing regions cursor used with
  | nil =>
      simp only [seamPieces] at hfull
      simp only [appendSeams]
      exact appendSplitRegion_limit kind hcovers hfull
  | cons seam seams ih =>
      by_cases hplaced : cursor < seam ∧ seam < length
      · rw [seamPieces, if_pos hplaced] at hfull
        rw [appendSeams, ensure_of hplaced, except_ok_bind]
        by_cases hfits : used + objectCount (seam - cursor) ≤ maxObjectCount
        · obtain ⟨middle, heq, hcover⟩ :=
            appendSplitRegion_covers kind hcovers hfits
          rw [show offset + cursor + (seam - cursor) = offset + seam by
            omega] at hcover
          rw [heq, except_ok_bind]
          have hrest : maxObjectCount < used + objectCount (seam - cursor) +
              seamPieces length seam seams := by omega
          exact ih (le_of_lt hplaced.2) hcover hfits hrest
        · have hover : maxObjectCount < used + objectCount (seam - cursor) :=
            not_le.mp hfits
          rw [appendSplitRegion_limit kind hcovers hover, except_error_bind]
      · rw [seamPieces, if_neg hplaced] at hfull
        exact absurd hfull (not_lt.mpr hused)

theorem appendSeams_misplaced {regions : List Region}
    {start offset length cursor used : Nat} {seams : List Nat}
    (kind : RegionKind) (hcursor : cursor ≤ length)
    (hcovers : Covers start (offset + cursor) used regions)
    (hseams : ¬ SeamsOk length cursor seams)
    (hfits : used + seamPieces length cursor seams ≤ maxObjectCount) :
    appendSeams offset length kind regions cursor seams =
      .error .invalidCoverage := by
  induction seams generalizing regions cursor used with
  | nil => exact absurd trivial hseams
  | cons seam seams ih =>
      simp only [appendSeams]
      by_cases hplaced : cursor < seam ∧ seam < length
      · simp only [seamPieces, hplaced, and_self, if_true] at hfits
        obtain ⟨middle, heq, hcover⟩ := @appendSplitRegion_covers regions
          start (offset + cursor) (seam - cursor) used kind hcovers (by omega)
        rw [show offset + cursor + (seam - cursor) = offset + seam by
          omega] at hcover
        rw [ensure_of hplaced, except_ok_bind, heq, except_ok_bind]
        refine ih (le_of_lt hplaced.2) hcover ?_ (by omega)
        intro hrest
        exact hseams ⟨hplaced.1, hplaced.2, hrest⟩
      · rw [ensure_of_not hplaced, except_error_bind]

end TensorFS
