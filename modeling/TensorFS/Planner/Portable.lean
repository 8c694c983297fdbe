import TensorFS.Planner.Hash
import TensorFS.Planner.Inventory
import TensorFS.Planner.Totality

namespace TensorFS

open Data

/-! A tensor's objects wherever the tensor lives. -/

/-- The regions a tensor is cut into, from a cut point on. -/
def seamRegions (offset length : Nat) (kind : RegionKind) :
    Nat → List Nat → List Region
  | cursor, [] =>
      splitObjects kind (objectCount (length - cursor)) (offset + cursor)
        (length - cursor)
  | cursor, seam :: seams =>
      splitObjects kind (objectCount (seam - cursor)) (offset + cursor)
          (seam - cursor) ++
        seamRegions offset length kind seam seams

theorem appendSplitRegion_ok {regions extended : List Region}
    {offset length : Nat} {kind : RegionKind}
    (h : appendSplitRegion regions offset length kind = .ok extended) :
    extended = regions ++
      splitObjects kind (objectCount length) offset length := by
  rw [appendSplitRegion_eq] at h
  split at h
  · cases h
    rfl
  · cases h

theorem appendSeams_ok {offset length cursor : Nat} {kind : RegionKind}
    {regions extended : List Region} {seams : List Nat}
    (hcursor : cursor ≤ length)
    (h : appendSeams offset length kind regions cursor seams =
      .ok extended) :
    extended = regions ++ seamRegions offset length kind cursor seams ∧
      Tiles (offset + cursor) (offset + length)
        (seamRegions offset length kind cursor seams) := by
  induction seams generalizing cursor regions with
  | nil =>
      refine ⟨appendSplitRegion_ok h, ?_⟩
      have htiles := (splitObjects_covers kind
        (rfl : objectCount (length - cursor) = _)
        : Covers (offset + cursor) _ _ _).tiles
      rwa [Nat.add_assoc, Nat.add_sub_cancel' hcursor] at htiles
  | cons seam seams ih =>
      simp only [appendSeams, except_bind_eq_ok, ensure_eq_ok] at h
      obtain ⟨_, ⟨hseam, hinside⟩, middle, hmiddle, h⟩ := h
      obtain ⟨hextended, hrest⟩ := ih hinside.le h
      have htiles := (splitObjects_covers kind
        (rfl : objectCount (seam - cursor) = _)
        : Covers (offset + cursor) _ _ _).tiles
      rw [Nat.add_assoc, Nat.add_sub_cancel' hseam.le] at htiles
      refine ⟨?_, htiles.append hrest⟩
      rw [hextended, appendSplitRegion_ok hmiddle, List.append_assoc]
      rfl

/-! The same cut at another place. -/

def Region.shift (offset : Nat) (region : Region) : Region :=
  { region with offset := offset + region.offset }

theorem splitObjects_shift (offset : Nat) (kind : RegionKind)
    (count cursor length : Nat) :
    splitObjects kind count (offset + cursor) length =
      (splitObjects kind count cursor length).map (Region.shift offset) := by
  induction count generalizing cursor length with
  | zero => rfl
  | succ count ih =>
      rw [splitObjects, splitObjects, List.map_cons, Nat.add_assoc, ih]
      rfl

theorem seamRegions_shift (offset length cursor : Nat) (kind : RegionKind)
    (seams : List Nat) :
    seamRegions offset length kind cursor seams =
      (seamRegions 0 length kind cursor seams).map (Region.shift offset) := by
  induction seams generalizing cursor with
  | nil =>
      rw [seamRegions, seamRegions, Nat.zero_add, splitObjects_shift]
  | cons seam seams ih =>
      rw [seamRegions, seamRegions, List.map_append, Nat.zero_add,
        splitObjects_shift, ih]

/-- The objects of a tensor's own bytes. -/
def tensorObjects (P : Platform) (contract : Option Contract) (name : Text)
    (shape : List UInt64) (content : Bytes) : List (Nat × ObjectDigest) :=
  (seamRegions 0 content.length .tensor 0
      (Contract.cutPoints contract name shape content.length)).map
    fun region =>
      (region.length, P.sha256 (slice content region.offset region.length))

theorem seamRegions_objects {P : Platform} {bytes : Bytes}
    {offset length : Nat} {seams : List Nat}
    (htiles : Tiles offset (offset + length)
      (seamRegions offset length .tensor 0 seams)) :
    (seamRegions offset length .tensor 0 seams).map (fun region =>
        (region.length,
          P.sha256 (slice bytes region.offset region.length))) =
      (seamRegions 0 length .tensor 0 seams).map fun region =>
        (region.length, P.sha256
          (slice (slice bytes offset length) region.offset region.length)) := by
  have hfits := htiles.inside
  rw [seamRegions_shift] at hfits ⊢
  rw [List.map_map]
  refine List.map_congr_left fun region hregion => ?_
  have hregion := hfits _ (List.mem_map_of_mem hregion)
  simp only [Region.shift] at hregion
  simp only [Function.comp_apply, Region.shift]
  rw [slice_slice (by omega)]

/-! The objects that hold bytes of an extent. -/

/-- The objects of a plan, each with the offset it starts at. -/
def placed : Nat → List PlannedObject → List (Nat × PlannedObject)
  | _, [] => []
  | offset, object :: objects =>
      (offset, object) :: placed (offset + object.length) objects

/-- Two extents have a byte in common. -/
def Meets (offset length other otherLength : Nat) : Prop :=
  max offset other < min (offset + length) (other + otherLength)

instance (offset length other otherLength : Nat) :
    Decidable (Meets offset length other otherLength) :=
  inferInstanceAs (Decidable (_ < _))

/-- The ordered objects that hold bytes of an extent. -/
def HashedPlan.covering (hashed : HashedPlan) (offset length : Nat) :
    List (Nat × ObjectDigest) :=
  ((placed 0 hashed.objects).filter fun item =>
    Meets item.1 item.2.length offset length).map fun item =>
      (item.2.length, item.2.digest)

/-- No object holds bytes of two tensors, or of a tensor and of anything
else. -/
structure HashedPlan.Separates (hashed : HashedPlan)
    (tensors : List InventoryTensor) : Prop where
  inside : ∀ tensor ∈ tensors, ∀ item ∈ placed 0 hashed.objects,
    Meets item.1 item.2.length tensor.offset tensor.length →
      tensor.offset ≤ item.1 ∧
        item.1 + item.2.length ≤ tensor.offset + tensor.length
  apart : tensors.Pairwise fun left right =>
    ∀ item ∈ placed 0 hashed.objects,
      ¬ (Meets item.1 item.2.length left.offset left.length ∧
        Meets item.1 item.2.length right.offset right.length)

theorem placed_slice {P : Platform} {bytes : Bytes} {start stop : Nat}
    {regions : List Region} (h : Tiles start stop regions) :
    placed start (regions.map (sliceObject P bytes)) =
      regions.map fun region =>
        (region.offset, sliceObject P bytes region) := by
  induction regions generalizing start with
  | nil => rfl
  | cons region regions ih =>
      obtain ⟨hoffset, _, hrest⟩ := h
      rw [List.map_cons, placed, List.map_cons, hoffset]
      congr 1
      exact ih hrest

/-- The regions a tensor is cut into. -/
def tensorRegions (contract : Option Contract) (tensor : InventoryTensor) :
    List Region :=
  seamRegions tensor.offset tensor.length .tensor 0
    (Contract.cutPoints contract tensor.name tensor.shape tensor.length)

/-- A plan's regions, split around the ones a tensor is cut into. -/
structure Holds (regions : List Region) (stop : Nat)
    (contract : Option Contract) (tensor : InventoryTensor) : Prop where
  split : ∃ before after,
    regions = before ++ tensorRegions contract tensor ++ after ∧
      Tiles 0 tensor.offset before ∧
      Tiles tensor.offset (tensor.offset + tensor.length)
        (tensorRegions contract tensor) ∧
      Tiles (tensor.offset + tensor.length) stop after

variable {contract : Option Contract}

theorem Holds.append {regions more : List Region} {stop further : Nat}
    {tensor : InventoryTensor} (h : Holds regions stop contract tensor)
    (hmore : Tiles stop further more) :
    Holds (regions ++ more) further contract tensor := by
  obtain ⟨before, after, rfl, hbefore, hown, hafter⟩ := h.split
  exact ⟨before, after ++ more, by simp, hbefore, hown, hafter.append hmore⟩

theorem Tiles.from {start stop : Nat} {regions : List Region}
    (h : Tiles start stop regions) :
    ∀ region ∈ regions, start ≤ region.offset ∧ 0 < region.length := by
  induction regions generalizing start with
  | nil => simp
  | cons head regions ih =>
      obtain ⟨hoffset, hpos, hrest⟩ := h
      refine List.forall_mem_cons.mpr ⟨⟨hoffset.ge, hpos⟩, ?_⟩
      intro region hregion
      have hle := ih hrest region hregion
      exact ⟨by omega, hle.2⟩

/-- The regions that meet a tensor are its own. -/
theorem Holds.filter_meets {regions : List Region} {stop : Nat}
    {tensor : InventoryTensor} (h : Holds regions stop contract tensor)
    (hlength : 0 < tensor.length) :
    regions.filter (fun region =>
        Meets region.offset region.length tensor.offset tensor.length) =
      tensorRegions contract tensor := by
  obtain ⟨before, after, rfl, hbefore, hown, hafter⟩ := h.split
  have hfront : before.filter (fun region =>
      Meets region.offset region.length tensor.offset tensor.length) = [] := by
    refine List.filter_eq_nil_iff.mpr fun region hregion => ?_
    have hend := hbefore.inside region hregion
    rw [decide_eq_true_eq, Meets]
    omega
  have hmiddle : (tensorRegions contract tensor).filter (fun region =>
        Meets region.offset region.length tensor.offset tensor.length) =
      tensorRegions contract tensor := by
    refine List.filter_eq_self.mpr fun region hregion => ?_
    have hstart := hown.from region hregion
    have hend := hown.inside region hregion
    rw [decide_eq_true_eq, Meets]
    omega
  have hback : after.filter (fun region =>
      Meets region.offset region.length tensor.offset tensor.length) = [] := by
    refine List.filter_eq_nil_iff.mpr fun region hregion => ?_
    have hstart := hafter.from region hregion
    rw [decide_eq_true_eq, Meets]
    omega
  rw [List.filter_append, List.filter_append, hfront, hmiddle, hback,
    List.nil_append, List.append_nil]

/-- A region that meets a tensor lies inside it. -/
theorem Holds.inside {regions : List Region} {stop : Nat}
    {tensor : InventoryTensor} (h : Holds regions stop contract tensor)
    {region : Region} (hregion : region ∈ regions)
    (hmeets : Meets region.offset region.length tensor.offset
      tensor.length) :
    tensor.offset ≤ region.offset ∧
      region.offset + region.length ≤ tensor.offset + tensor.length := by
  have hlength : 0 < tensor.length := by
    simp only [Meets] at hmeets
    omega
  have hmem : region ∈ tensorRegions contract tensor := by
    rw [← h.filter_meets hlength]
    exact List.mem_filter.mpr ⟨hregion, by simpa using hmeets⟩
  obtain ⟨_, _, _, _, hown, _⟩ := h.split
  exact ⟨(hown.from region hmem).1, hown.inside region hmem⟩

/-! Both container planners split their plans so. -/

/-- A computation of seams ends alike whatever errors surround it. -/
theorem Fusion.runs_toOption (ε δ : Type) (fusion : Fusion)
    (shape : List UInt64) (byteLength : Nat) :
    (fusion.runs (ε := ε) shape byteLength).toOption =
      (fusion.runs (ε := δ) shape byteLength).toOption := by
  unfold Fusion.runs
  cases shape.head? with
  | none => rfl
  | some rows =>
      cases fusion.units with
      | none => rfl
      | some units =>
          simp only
          cases checkedMul (byteLength / rows.toNat) (rows.toNat / units) with
          | none => split_ifs <;> rfl
          | some unitBytes =>
              simp only
              split_ifs <;> rfl

theorem Contract.seams_toOption (ε δ : Type) (contract : Option Contract)
    (name : Text) (shape : List UInt64) (byteLength : Nat) :
    (Contract.seams (ε := ε) contract name shape byteLength).toOption =
      (Contract.seams (ε := δ) contract name shape byteLength).toOption := by
  cases contract with
  | none => rfl
  | some found =>
      have hruns : (found.runsOf (ε := ε) name shape byteLength).toOption =
          (found.runsOf (ε := δ) name shape byteLength).toOption := by
        unfold Contract.runsOf
        cases found.fusionFor name with
        | none => rfl
        | some fusion =>
            simp only [toOption_bind, Fusion.runs_toOption ε δ]
            rfl
      rw [Contract.seams, Contract.seams, Contract.seamOffsets,
        Contract.seamOffsets, toOption_bind, toOption_bind, hruns]
      refine congrArg _ (funext fun runs => ?_)
      rcases runs with _ | _ | _
      · rfl
      · rfl
      · rfl

theorem Contract.cutPoints_eq {ε : Type} {contract : Option Contract}
    {name : Text} {shape : List UInt64} {byteLength : Nat} {cuts : List Nat}
    (h : Contract.seams (ε := ε) contract name shape byteLength = .ok cuts) :
    Contract.cutPoints contract name shape byteLength = cuts := by
  rw [← toOption_eq_some, Contract.seams_toOption ε Unit,
    toOption_eq_some] at h
  simp [Contract.cutPoints, h]

/-- Appending one tensor's regions. -/
theorem appendTensorRegions_holds {ε : Type} {regions extended : List Region}
    (tensor : InventoryTensor) {seams : List Nat}
    (hseams : Contract.seams (ε := ε) contract tensor.name tensor.shape
      tensor.length = .ok seams)
    (htiles : Tiles 0 tensor.offset regions)
    (h : appendTensorRegions regions tensor.offset tensor.length seams
      .tensor = .ok extended) :
    extended = regions ++ tensorRegions contract tensor ∧
      Tiles tensor.offset (tensor.offset + tensor.length)
        (tensorRegions contract tensor) ∧
      Holds extended (tensor.offset + tensor.length) contract tensor := by
  obtain ⟨hextended, hown⟩ := appendSeams_ok (Nat.zero_le _) h
  rw [← Contract.cutPoints_eq hseams] at hextended hown
  refine ⟨hextended, hown, regions, [], ?_, htiles, hown, rfl⟩
  rw [List.append_nil]
  exact hextended

namespace Safetensors

theorem orNone_eq_some {α : Type} {x : Except PlanError α} {a : α} :
    orNone x = .ok (some a) ↔ x = .ok a := by
  cases x with
  | ok value => simp [orNone]
  | error refusal => cases refusal <;> simp [orNone]

theorem appendTensors_holds {layout : Layout} {dataSize cursor : Nat}
    {regions extended : List Region} {tensors : List TensorEntry}
    (hordered : ∀ tensor ∈ tensors, tensor.start ≤ tensor.stop)
    (hcontiguous : contiguous dataSize cursor tensors = true)
    (htiles : Tiles 0 (layout.headerEnd + cursor) regions)
    (h : appendTensors contract layout.headerEnd regions tensors =
      .ok (some extended)) :
    (∃ new, extended = regions ++ new ∧
        Tiles (layout.headerEnd + cursor) (layout.headerEnd + dataSize) new) ∧
      ∀ tensor ∈ tensors, tensor.length ≠ 0 →
        Holds extended (layout.headerEnd + dataSize) contract
          (inventoryTensor layout tensor) := by
  induction tensors generalizing cursor regions with
  | nil =>
      have hcursor : cursor = dataSize := by simpa [contiguous] using hcontiguous
      cases h
      refine ⟨⟨[], (List.append_nil _).symm, ?_⟩, by simp⟩
      rw [hcursor]
      exact rfl
  | cons tensor tensors ih =>
      have horder := hordered tensor List.mem_cons_self
      have hrestOrder : ∀ other ∈ tensors, other.start ≤ other.stop :=
        fun other hother => hordered other (List.mem_cons_of_mem _ hother)
      simp only [contiguous, Bool.and_eq_true, beq_iff_eq,
        decide_eq_true_eq] at hcontiguous
      obtain ⟨⟨hstart, _⟩, hrest⟩ := hcontiguous
      have hlength : tensor.start + tensor.length = tensor.stop := by
        unfold TensorEntry.length
        omega
      rw [appendTensors] at h
      split at h
      · rename_i hempty
        have hsame : cursor = tensor.stop := by omega
        rw [hsame] at htiles ⊢
        obtain ⟨hnew, hheld⟩ := ih hrestOrder hrest htiles h
        exact ⟨hnew, List.forall_mem_cons.mpr
          ⟨fun hne => absurd hempty hne, hheld⟩⟩
      · simp only [except_bind_eq_ok] at h
        obtain ⟨seams, hseams, found, happend, h⟩ := h
        cases found with
        | none => cases h
        | some middle =>
            rw [orNone_eq_some] at happend
            rw [← hstart] at htiles ⊢
            obtain ⟨hmiddle, hown, hholds⟩ := appendTensorRegions_holds
              (inventoryTensor layout tensor) hseams htiles happend
            have hend : layout.headerEnd + tensor.start + tensor.length =
                layout.headerEnd + tensor.stop := by omega
            have htilesNext : Tiles 0 (layout.headerEnd + tensor.stop)
                middle := by
              rw [hmiddle, ← hend]
              exact htiles.append hown
            obtain ⟨⟨new, hextended, hnew⟩, hheld⟩ :=
              ih hrestOrder hrest htilesNext h
            refine ⟨⟨_, ?_, hown.append (hend ▸ hnew)⟩,
              List.forall_mem_cons.mpr ⟨fun _ => ?_, hheld⟩⟩
            · rw [hextended, hmiddle, List.append_assoc]
            · rw [hextended]
              exact hholds.append (hend ▸ hnew)

theorem planLayout_holds {P : Platform} {fileSize : Nat} {layout : Layout}
    {plan : Plan} (hlayout : LayoutOk fileSize layout)
    (h : planLayout P fileSize contract layout = .ok (some plan)) :
    ∀ tensor ∈ layout.tensors, tensor.length ≠ 0 →
      Holds plan.regions fileSize contract (inventoryTensor layout tensor) := by
  simp only [planLayout, except_bind_eq_ok] at h
  obtain ⟨front, hfront, h⟩ := h
  cases front with
  | none => cases h
  | some front =>
      rw [orNone_eq_some] at hfront
      simp only [except_bind_eq_ok] at h
      obtain ⟨found, htensors, h⟩ := h
      cases found with
      | none => cases h
      | some regions =>
          cases h
          have hheader := (splitObjects_covers .header
            (rfl : objectCount layout.headerEnd = _) : Covers 0 _ _ _).tiles
          have hinside := hlayout.inside
          rw [appendSplitRegion_ok hfront, List.nil_append] at htensors
          rw [Nat.zero_add] at hheader
          have hheld := (appendTensors_holds hlayout.ordered
            hlayout.contiguous hheader htensors).2
          rwa [Nat.add_sub_cancel' hinside] at hheld

end Safetensors

namespace Gguf

theorem orRefused_eq_ok {α : Type} {found : Option α} {a : α} :
    orRefused found = .ok a ↔ found = some a := by
  cases found <;> simp [orRefused]

theorem appendDomain_ok {regions extended : List Region}
    {offset length : Nat} {kind : RegionKind}
    (h : appendDomain regions offset length kind = .ok extended) :
    extended = regions ++
        splitObjects kind (objectCount length) offset length ∧
      Tiles offset (offset + length)
        (splitObjects kind (objectCount length) offset length) := by
  refine ⟨?_, (splitObjects_covers kind rfl).tiles⟩
  cases happend : appendSplitRegion regions offset length kind with
  | ok found =>
      rw [appendDomain, happend] at h
      cases h
      exact appendSplitRegion_ok happend
  | error refusal =>
      rw [appendDomain, happend] at h
      cases refusal <;> cases h

theorem appendSeamedDomain_ok {regions extended : List Region}
    {offset length : Nat} {seams : List Nat}
    (h : appendSeamedDomain regions offset length seams = .ok extended) :
    appendTensorRegions regions offset length seams .tensor =
      .ok extended := by
  cases happend : appendTensorRegions regions offset length seams .tensor with
  | ok found =>
      rw [appendSeamedDomain, happend] at h
      cases h
      rfl
  | error refusal =>
      rw [appendSeamedDomain, happend] at h
      cases refusal <;> cases h

theorem appendTensors_holds {layout : Layout} {expected stop : Nat}
    {regions extended : List Region} {tensors : List TensorInfo}
    (hpos : 0 < layout.alignment)
    (hchained : Chained layout.alignment expected stop tensors)
    (htiles : Tiles 0 (layout.dataStart + expected) regions)
    (h : appendTensors contract layout.alignment layout.dataStart regions
      tensors = .ok extended) :
    (∃ new, extended = regions ++ new ∧
        Tiles (layout.dataStart + expected) (layout.dataStart + stop) new) ∧
      ∀ tensor ∈ tensors,
        Holds extended (layout.dataStart + stop) contract
          (inventoryTensor layout tensor) := by
  induction tensors generalizing expected regions with
  | nil =>
      cases h
      refine ⟨⟨[], (List.append_nil _).symm, ?_⟩, by simp⟩
      rw [show expected = stop from hchained]
      exact rfl
  | cons tensor tensors ih =>
      obtain ⟨hoffset, padded, hpadded, hrest⟩ := hchained
      have hle := alignUp_le hpos hpadded
      simp only [appendTensors, except_bind_eq_ok, orRefused_eq_ok,
        hpadded, Option.some.injEq] at h
      obtain ⟨tensorStart, hstart, seams, hseams, middle, hmiddle, _, rfl,
        filled, hfilled, h⟩ := h
      obtain ⟨rfl, _⟩ := checkedAdd_eq_some.mp hstart
      rw [← hoffset] at htiles hrest ⊢
      obtain ⟨hown, hownTiles, hholds⟩ := appendTensorRegions_holds
        (inventoryTensor layout tensor) hseams htiles
        (appendSeamedDomain_ok hmiddle)
      obtain ⟨hpadding, hpaddingTiles⟩ := appendDomain_ok hfilled
      have hend : layout.dataStart + tensor.offset + tensor.length +
          (padded - tensor.length) =
            layout.dataStart + (tensor.offset + padded) := by
        omega
      rw [hend] at hpaddingTiles
      have htilesNext : Tiles 0 (layout.dataStart + (tensor.offset + padded))
          filled := by
        rw [hpadding, hown]
        exact (htiles.append hownTiles).append hpaddingTiles
      obtain ⟨⟨new, hextended, hnew⟩, hheld⟩ := ih hrest htilesNext h
      refine ⟨⟨_, ?_, (hownTiles.append hpaddingTiles).append hnew⟩,
        List.forall_mem_cons.mpr ⟨?_, hheld⟩⟩
      · rw [hextended, hpadding, hown]
        simp only [List.append_assoc]
      · rw [hextended, hpadding]
        exact (hholds.append hpaddingTiles).append hnew

theorem planLayout_holds {P : Platform} {fileSize : Nat} {layout : Layout}
    {plan : Plan} (hlayout : LayoutOk fileSize layout)
    (h : planLayout P fileSize contract layout = .ok plan) :
    ∀ tensor ∈ layout.tensors,
      Holds plan.regions fileSize contract (inventoryTensor layout tensor) := by
  obtain ⟨stop, hchained, hstop⟩ := hlayout.chained
  simp only [planLayout, except_bind_eq_ok] at h
  obtain ⟨header, hheader, directory, hdirectory, padding, hpadding, regions,
    htensors, h⟩ := h
  cases h
  obtain ⟨hheader, hheaderTiles⟩ := appendDomain_ok hheader
  obtain ⟨hdirectory, hdirectoryTiles⟩ := appendDomain_ok hdirectory
  obtain ⟨hpadding, hpaddingTiles⟩ := appendDomain_ok hpadding
  rw [Nat.zero_add] at hheaderTiles
  rw [Nat.add_sub_cancel' hlayout.directory] at hdirectoryTiles
  rw [Nat.add_sub_cancel' hlayout.padding] at hpaddingTiles
  have htiles : Tiles 0 (layout.dataStart + 0) padding := by
    rw [hpadding, hdirectory, hheader, List.nil_append]
    exact (hheaderTiles.append hdirectoryTiles).append hpaddingTiles
  rw [← hstop]
  exact (appendTensors_holds hlayout.alignment hchained htiles htensors).2

end Gguf

/-! Tensors of one container have no byte in common. -/

/-- Each tensor ends before the ones behind it start. -/
def InOrder (tensors : List InventoryTensor) : Prop :=
  tensors.Pairwise fun left right => left.offset + left.length ≤ right.offset

theorem Safetensors.contiguous_inOrder {layout : Safetensors.Layout}
    {dataSize cursor : Nat} {tensors : List Safetensors.TensorEntry}
    (hordered : ∀ tensor ∈ tensors, tensor.start ≤ tensor.stop)
    (h : Safetensors.contiguous dataSize cursor tensors = true) :
    (∀ tensor ∈ tensors, cursor ≤ tensor.start) ∧
      InOrder (tensors.map (Safetensors.inventoryTensor layout)) := by
  induction tensors generalizing cursor with
  | nil => exact ⟨by simp, List.Pairwise.nil⟩
  | cons tensor tensors ih =>
      have horder := hordered tensor List.mem_cons_self
      simp only [Safetensors.contiguous, Bool.and_eq_true, beq_iff_eq,
        decide_eq_true_eq] at h
      obtain ⟨hlater, hinOrder⟩ := ih (fun other hother =>
        hordered other (List.mem_cons_of_mem _ hother)) h.2
      refine ⟨List.forall_mem_cons.mpr ⟨h.1.1.ge, fun other hother => ?_⟩,
        List.pairwise_cons.mpr ⟨fun other hother => ?_, hinOrder⟩⟩
      · have hle := hlater other hother
        omega
      · obtain ⟨entry, hentry, rfl⟩ := List.mem_map.mp hother
        have hle := hlater entry hentry
        simp only [Safetensors.inventoryTensor, Safetensors.TensorEntry.length]
        omega

theorem Gguf.Chained.inOrder {layout : Gguf.Layout} {expected stop : Nat}
    {tensors : List Gguf.TensorInfo} (hpos : 0 < layout.alignment)
    (h : Gguf.Chained layout.alignment expected stop tensors) :
    (∀ tensor ∈ tensors, expected ≤ tensor.offset) ∧
      InOrder (tensors.map (Gguf.inventoryTensor layout)) := by
  induction tensors generalizing expected with
  | nil => exact ⟨by simp, List.Pairwise.nil⟩
  | cons tensor tensors ih =>
      obtain ⟨hoffset, padded, hpadded, hrest⟩ := h
      have hle := Gguf.alignUp_le hpos hpadded
      obtain ⟨hlater, hinOrder⟩ := ih hrest
      refine ⟨List.forall_mem_cons.mpr ⟨hoffset.ge, fun other hother => ?_⟩,
        List.pairwise_cons.mpr ⟨fun other hother => ?_, hinOrder⟩⟩
      · have hafter := hlater other hother
        omega
      · obtain ⟨info, hinfo, rfl⟩ := List.mem_map.mp hother
        have hafter := hlater info hinfo
        simp only [Gguf.inventoryTensor]
        omega

/-! The inventory of an accepted container. -/

variable {P : Platform} {source : ByteSource} {byte : Nat → UInt8}

theorem ggufInventory_of_parse (hlen : 24 ≤ source.len)
    {layout : Gguf.Layout} (h : Gguf.parse source = .ok layout) :
    ∃ found, ggufInventory source = .ok (some found) ∧
      found.tensors = layout.tensors.map (Gguf.inventoryTensor layout) := by
  unfold ggufInventory
  rw [if_pos hlen]
  split
  · rename_i other hother
    rw [h, Except.ok.injEq] at hother
    subst hother
    exact ⟨_, rfl, rfl⟩
  all_goals
    rename_i hother
    rw [h] at hother
    cases hother

theorem ggufInventory_none (hstable : source.Stable byte)
    (h : ∀ layout, 24 ≤ source.len → Gguf.parse source ≠ .ok layout) :
    ggufInventory source = .ok none := by
  unfold ggufInventory
  split
  · rename_i hlen
    split
    · rename_i layout hlayout
      exact absurd hlayout (h layout hlen)
    · rfl
    · rename_i hread
      cases Gguf.parse_error hstable hread
    · rename_i hexhausted
      cases Gguf.parse_error hstable hexhausted
  · rfl

theorem safetensorsInventory_of_layout {layout : Safetensors.Layout}
    (h : Safetensors.readLayout P source = .ok (some layout)) :
    ∃ found, safetensorsInventory P source = .ok (some found) ∧
      found.tensors =
        layout.tensors.map (Safetensors.inventoryTensor layout) := by
  unfold safetensorsInventory
  split
  · rename_i other hother
    rw [h, Except.ok.injEq, Option.some.injEq] at hother
    subst hother
    exact ⟨_, rfl, rfl⟩
  all_goals
    rename_i hother
    rw [h] at hother
    cases hother

theorem Gguf.tryPlan_ok {plan : Plan}
    (h : Gguf.tryPlan P source contract = .ok (some plan)) :
    ∃ layout, Gguf.parse source = .ok layout ∧
      Gguf.planLayout P source.len contract layout = .ok plan := by
  rw [Gguf.tryPlan] at h
  cases hparse : Gguf.parse source with
  | error refusal =>
      rw [hparse] at h
      cases refusal <;> cases h
  | ok layout =>
      rw [hparse, refusing, except_ok_bind] at h
      refine ⟨layout, rfl, ?_⟩
      cases hplan : Gguf.planLayout P source.len contract layout with
      | ok found =>
          rw [hplan] at h
          cases h
          rfl
      | error failure =>
          rw [hplan] at h
          cases failure with
          | panicked => cases h
          | refused refusal => cases refusal <;> cases h

theorem Safetensors.tryPlan_ok {plan : Plan}
    (h : Safetensors.tryPlan P source contract = .ok (some plan)) :
    ∃ layout, Safetensors.readLayout P source = .ok (some layout) ∧
      Safetensors.planLayout P source.len contract layout =
        .ok (some plan) := by
  simp only [Safetensors.tryPlan, except_bind_eq_ok, refusing_eq_ok] at h
  obtain ⟨layout, hlayout, h⟩ := h
  cases layout with
  | none => cases h
  | some layout => exact ⟨layout, hlayout, h⟩

/-- Which planner accepted a container, and the layout it read. -/
theorem planOnce_container {plan : Plan}
    (h : planOnce P source contract = .ok plan)
    (hplanner : plan.planner ≠ .blobV1) :
    (24 ≤ source.len ∧ ∃ layout, Gguf.parse source = .ok layout ∧
      Gguf.planLayout P source.len contract layout = .ok plan) ∨
    ∃ layout, Safetensors.readLayout P source = .ok (some layout) ∧
      Safetensors.planLayout P source.len contract layout =
        .ok (some plan) := by
  have hblob : validated (blobPlan source.len) ≠ .ok plan := by
    intro hfound
    obtain ⟨rfl, _⟩ := validated_eq_ok hfound
    exact hplanner rfl
  rw [planOnce] at h
  split at h
  · exact absurd h hblob
  · simp only [except_bind_eq_ok] at h
    obtain ⟨first, hfirst, h⟩ := h
    cases first with
    | some found =>
        obtain ⟨rfl, _⟩ := validated_eq_ok h
        rw [ggufPlan] at hfirst
        split at hfirst
        · rename_i hlen
          exact .inl ⟨hlen, Gguf.tryPlan_ok hfirst⟩
        · cases hfirst
    | none =>
        simp only [safetensorsOrBlobPlan, except_bind_eq_ok] at h
        obtain ⟨second, hsecond, h⟩ := h
        cases second with
        | none => exact absurd h hblob
        | some found =>
            obtain ⟨rfl, _⟩ := validated_eq_ok h
            exact .inr (Safetensors.tryPlan_ok hsecond)

/-- An accepted container's plan splits around each tensor of its inventory. -/
theorem container_holds (hstable : source.Stable byte) {plan : Plan}
    (hplan : planOnce P source contract = .ok plan)
    (hplanner : plan.planner ≠ .blobV1) {found : TensorInventory}
    (hinventory : inventory P source = .ok (some found)) :
    (∀ tensor ∈ found.tensors, tensor.length ≠ 0 →
      Holds plan.regions source.len contract tensor) ∧
      InOrder found.tensors := by
  rw [inventory, ByteSource.checkUnchanged, ensure_of hstable.unchanged,
    except_ok_bind] at hinventory
  rcases planOnce_container hplan hplanner with
    ⟨hlen, layout, hparse, hregions⟩ | ⟨layout, hlayout, hregions⟩
  · obtain ⟨listed, hlisted, htensors⟩ := ggufInventory_of_parse hlen hparse
    rw [hlisted, except_ok_bind] at hinventory
    cases hinventory
    have hok := Gguf.parse_ok hstable hparse
    obtain ⟨_, hchained, _⟩ := hok.chained
    rw [htensors]
    refine ⟨fun tensor hmem _ => ?_, (hchained.inOrder hok.alignment).2⟩
    obtain ⟨info, hinfo, rfl⟩ := List.mem_map.mp hmem
    exact Gguf.planLayout_holds hok hregions info hinfo
  · have hnone : ggufInventory source = .ok none := by
      refine ggufInventory_none hstable fun other hlen hparse => ?_
      rw [readLayout_of_gguf hstable hlen hparse] at hlayout
      cases hlayout
    rw [hnone, except_ok_bind] at hinventory
    obtain ⟨listed, hlisted, htensors⟩ :=
      safetensorsInventory_of_layout hlayout
    simp only at hinventory
    rw [hlisted, Except.ok.injEq, Option.some.injEq] at hinventory
    subst hinventory
    rcases @Safetensors.readLayout_stable P source byte hstable with
      hrefused | ⟨other, hother, hok⟩
    · rw [hrefused] at hlayout
      cases hlayout
    · rw [hother, Except.ok.injEq, Option.some.injEq] at hlayout
      subst hlayout
      rw [htensors]
      refine ⟨fun tensor hmem hlength => ?_,
        (Safetensors.contiguous_inOrder hok.ordered hok.contiguous).2⟩
      obtain ⟨entry, hentry, rfl⟩ := List.mem_map.mp hmem
      exact Safetensors.planLayout_holds hok hregions entry hentry hlength

/-! The objects of two containers. -/

theorem Slice.stable (content : Slice) :
    content.source.Stable fun index => content.bytes.getD index 0 := by
  refine ⟨rfl, fun offset count hinside => ?_⟩
  rw [Slice.source_len] at hinside
  simp only [Slice.source, if_pos hinside, Option.some.injEq]
  refine List.ext_getElem (by simp [length_slice hinside]) ?_
  intro index hleft _
  rw [length_slice hinside] at hleft
  simp [slice, List.getElem?_eq_getElem (by omega :
    offset + index < content.bytes.length)]

/-- The objects that cover a tensor are those of its own bytes. -/
theorem covering_eq {content : Slice} {plan : Plan}
    {tensor : InventoryTensor}
    (htiles : Tiles 0 plan.fileSize plan.regions)
    (hholds : Holds plan.regions content.bytes.length contract tensor)
    (hlength : 0 < tensor.length) :
    (hashedSlice P content.bytes plan).covering tensor.offset tensor.length =
      tensorObjects P contract tensor.name tensor.shape
        (slice content.bytes tensor.offset tensor.length) := by
  obtain ⟨_, _, _, _, hown, hafter⟩ := hholds.split
  have hinside := hafter.le
  rw [HashedPlan.covering, hashedSlice, placed_slice htiles,
    List.filter_map, List.map_map, tensorObjects, length_slice hinside]
  have hfilter := hholds.filter_meets hlength
  rw [show ((fun item => decide (Meets item.1 item.2.length tensor.offset
      tensor.length)) ∘ fun region =>
        (region.offset, sliceObject P content.bytes region)) =
      fun region => decide (Meets region.offset region.length tensor.offset
        tensor.length) from rfl, hfilter]
  exact seamRegions_objects hown

theorem separates {content : Slice} {plan : Plan}
    {tensors : List InventoryTensor}
    (htiles : Tiles 0 plan.fileSize plan.regions)
    (hholds : ∀ tensor ∈ tensors, tensor.length ≠ 0 →
      Holds plan.regions content.bytes.length contract tensor)
    (horder : InOrder tensors) :
    (hashedSlice P content.bytes plan).Separates tensors := by
  have hinside : ∀ tensor ∈ tensors,
      ∀ item ∈ placed 0 (hashedSlice P content.bytes plan).objects,
        Meets item.1 item.2.length tensor.offset tensor.length →
          tensor.offset ≤ item.1 ∧
            item.1 + item.2.length ≤ tensor.offset + tensor.length := by
    intro tensor hmem item hitem hmeets
    rw [hashedSlice, placed_slice htiles] at hitem
    obtain ⟨region, hregion, rfl⟩ := List.mem_map.mp hitem
    have hlength : tensor.length ≠ 0 := by
      simp only [Meets] at hmeets
      omega
    exact (hholds tensor hmem hlength).inside hregion hmeets
  refine ⟨hinside, horder.imp_of_mem fun hleft _ hapart item hitem hmeets => ?_⟩
  have hwithin := hinside _ hleft item hitem hmeets.1
  have hsecond := hmeets.2
  simp only [Meets] at hsecond
  omega

theorem planAndHashUnder_ok {content : Slice} {hashed : HashedPlan}
    (h : planAndHashUnder P content.source contract = .ok hashed) :
    ∃ plan, planOnce P content.source contract = .ok plan ∧
      plan.fileSize = content.bytes.length ∧
      Tiles 0 plan.fileSize plan.regions ∧
      hashed = hashedSlice P content.bytes plan := by
  rw [planAndHashUnder_slice] at h
  cases hplan : planWith P content.source contract with
  | error failure =>
      rw [hplan] at h
      cases h
  | ok plan =>
      rw [hplan] at h
      cases h
      obtain ⟨hvalid, hsize⟩ := planWith_ok hplan
      simp only [planWith, except_bind_eq_ok] at hplan
      obtain ⟨_, -, _, -, hplan⟩ := hplan
      exact ⟨plan, hplan, hsize, (Plan.tiles_of_validate hvalid).1, rfl⟩

/-- Two containers accepted under one contract cut a tensor they share into the
same objects, and neither has an object with bytes of two tensors or of a tensor
and of anything else. -/
theorem tensor_objects_portable {left right : Slice}
    {leftPlan rightPlan : HashedPlan}
    (hleft : planAndHashUnder P left.source contract = .ok leftPlan)
    (hright : planAndHashUnder P right.source contract = .ok rightPlan)
    (hleftContainer : leftPlan.planner ≠ .blobV1)
    (hrightContainer : rightPlan.planner ≠ .blobV1)
    {leftInventory rightInventory : TensorInventory}
    (hleftInventory : inventory P left.source = .ok (some leftInventory))
    (hrightInventory : inventory P right.source = .ok (some rightInventory)) :
    leftPlan.Separates leftInventory.tensors ∧
      rightPlan.Separates rightInventory.tensors ∧
      ∀ tensor ∈ leftInventory.tensors, ∀ twin ∈ rightInventory.tensors,
        tensor.length ≠ 0 → tensor.name = twin.name →
        tensor.shape = twin.shape →
        slice left.bytes tensor.offset tensor.length =
          slice right.bytes twin.offset twin.length →
        leftPlan.covering tensor.offset tensor.length =
          rightPlan.covering twin.offset twin.length := by
  obtain ⟨leftRegions, hleftPlan, _, hleftTiles, rfl⟩ :=
    planAndHashUnder_ok hleft
  obtain ⟨rightRegions, hrightPlan, _, hrightTiles, rfl⟩ :=
    planAndHashUnder_ok hright
  obtain ⟨hleftHolds, hleftOrder⟩ := container_holds left.stable hleftPlan
    hleftContainer hleftInventory
  obtain ⟨hrightHolds, hrightOrder⟩ := container_holds right.stable hrightPlan
    hrightContainer hrightInventory
  refine ⟨separates hleftTiles hleftHolds hleftOrder,
    separates hrightTiles hrightHolds hrightOrder, ?_⟩
  intro tensor htensor twin htwin hlength hname hshape hbytes
  have htensorHolds := hleftHolds tensor htensor hlength
  have hlengths : twin.length ≠ 0 := by
    obtain ⟨_, _, _, _, _, hafter⟩ := htensorHolds.split
    have hinside := hafter.le
    have hcount := congrArg List.length hbytes
    rw [length_slice hinside] at hcount
    intro hzero
    rw [hzero, slice, List.take_zero] at hcount
    exact hlength hcount
  rw [covering_eq hleftTiles htensorHolds (Nat.pos_of_ne_zero hlength),
    covering_eq hrightTiles (hrightHolds twin htwin hlengths)
      (Nat.pos_of_ne_zero hlengths), hname, hshape, hbytes]

/-! One tensor in a safetensors file and in a GGUF file. -/

namespace TwoHomes

def headerText : Text :=
  ("\x7b\"v\":\x7b\"dtype\":\"I8\",\"shape\":[2],\"data_offsets\":[0,2]\x7d," ++
    "\"w\":\x7b\"dtype\":\"I8\",\"shape\":[1,4]," ++
      "\"data_offsets\":[2,6]\x7d\x7d").toList

def entryJson (shape : List Json) (start stop : UInt64) : Json :=
  .object [("dtype".toList, .string "I8".toList),
    ("shape".toList, .array shape),
    ("data_offsets".toList,
      .array [.number (some start), .number (some stop)])]

def headerJson : Json :=
  .object [("v".toList, entryJson [.number (some 2)] 0 2),
    ("w".toList, entryJson [.number (some 1), .number (some 4)] 2 6)]

def platform : Platform where
  unicode := asciiUnicode
  sha256 := sha256
  json bytes := if bytes = headerText.utf8 then some headerJson else none

def safetensors : Slice where
  bytes := leBytes 8 headerText.utf8Len ++ headerText.utf8 ++
    [9, 9, 1, 2, 3, 4]
  fits := by decide +kernel

/-- One tensor of dimensions 4 and 1, innermost first, and its padding. -/
def gguf : Slice where
  bytes := [0x47, 0x47, 0x55, 0x46] ++ leBytes 4 3 ++ leBytes 8 1 ++
    leBytes 8 0 ++ leBytes 8 1 ++ [0x77] ++ leBytes 4 2 ++ leBytes 8 4 ++
    leBytes 8 1 ++ leBytes 4 24 ++ leBytes 8 0 ++ List.replicate 31 0 ++
    [1, 2, 3, 4] ++ List.replicate 28 0
  fits := by decide +kernel

def safetensorsPlan : Plan where
  planner := .safetensorsV1
  contract := .none
  fileSize := 121
  regions := [⟨0, 115, .header⟩, ⟨115, 2, .tensor⟩, ⟨117, 4, .tensor⟩]

def ggufPlan : Plan where
  planner := .ggufV1
  contract := .none
  fileSize := 128
  regions := [⟨0, 24, .header⟩, ⟨24, 41, .header⟩, ⟨65, 31, .header⟩,
    ⟨96, 4, .tensor⟩, ⟨100, 28, .header⟩]

theorem hashed {content : Slice} {plan : Plan}
    (h : planWith platform content.source none = .ok plan) :
    planAndHashUnder platform content.source none =
      .ok (hashedSlice platform content.bytes plan) := by
  rw [planAndHashUnder_slice, h]
  rfl

/-- The tensors an inventory lists. -/
def listed (content : Slice) : Option (List InventoryTensor) :=
  match inventory platform content.source with
  | .ok (some found) => some found.tensors
  | _ => none

theorem listed_ok {content : Slice} {tensors : List InventoryTensor}
    (h : listed content = some tensors) :
    ∃ found, inventory platform content.source = .ok (some found) ∧
      found.tensors = tensors := by
  unfold listed at h
  split at h
  · rename_i found hfound
    cases h
    exact ⟨found, hfound, rfl⟩
  · cases h

end TwoHomes

open TwoHomes in
theorem tensor_objects_portable_w :
    (hashedSlice platform safetensors.bytes safetensorsPlan).covering 117 4 =
      (hashedSlice platform gguf.bytes TwoHomes.ggufPlan).covering 96 4 := by
  obtain ⟨left, hleft, hleftTensors⟩ := @listed_ok safetensors
    [⟨['v'], "I8".toList, [2], 115, 2⟩, ⟨['w'], "I8".toList, [1, 4], 117, 4⟩]
    (by decide +kernel)
  obtain ⟨right, hright, hrightTensors⟩ := @listed_ok gguf
    [⟨['w'], "I8".toList, [1, 4], 96, 4⟩] (by decide +kernel)
  have hportable := (tensor_objects_portable
    (hashed (by decide +kernel :
      planWith platform safetensors.source none = .ok safetensorsPlan))
    (hashed (by decide +kernel :
      planWith platform gguf.source none = .ok TwoHomes.ggufPlan))
    (by decide) (by decide) hleft hright).2.2
  exact hportable ⟨['w'], "I8".toList, [1, 4], 117, 4⟩
    (by rw [hleftTensors]; simp) ⟨['w'], "I8".toList, [1, 4], 96, 4⟩
    (by rw [hrightTensors]; simp) (by decide) rfl rfl (by decide +kernel)

end TensorFS
