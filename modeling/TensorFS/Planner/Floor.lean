import TensorFS.Planner.Dedup

namespace TensorFS

open Data

/-! Where a fused tensor and its split twins cross the seam floor. -/

theorem forall_mem_iff {α β : Type} {r : α → β → Prop} {xs : List α}
    {ys : List β} {p : α → Prop} {q : β → Prop} (h : List.Forall₂ r xs ys)
    (hpq : ∀ x y, r x y → (p x ↔ q y)) :
    (∀ x ∈ xs, p x) ↔ ∀ y ∈ ys, q y := by
  induction h with
  | nil => simp
  | cons hhead _ ih =>
      rw [List.forall_mem_cons, List.forall_mem_cons, hpq _ _ hhead, ih]

theorem mem_of_forall₂ {α β : Type} {r : α → β → Prop} {xs : List α}
    {ys : List β} (h : List.Forall₂ r xs ys) {y : β} (hy : y ∈ ys) :
    ∃ x ∈ xs, r x y := by
  induction h with
  | nil => simp at hy
  | cons hhead _ ih =>
      rcases List.mem_cons.mp hy with rfl | hy
      · exact ⟨_, List.mem_cons_self, hhead⟩
      · obtain ⟨x, hx, hxy⟩ := ih hy
        exact ⟨x, List.mem_cons_of_mem _ hx, hxy⟩

/-- A tensor as one contract's `seamOffsets` sees it. -/
structure Declared where
  contract : Contract
  name : Text
  shape : List UInt64
  byteLength : Nat

def Declared.Cut (tensor : Declared) : Prop :=
  ∃ offsets, tensor.contract.seamOffsets (ε := PlanError) tensor.name
    tensor.shape tensor.byteLength = .ok offsets ∧ offsets ≠ []

namespace Fusion

/-- A declaration the document reader lets through. -/
structure Valid (fusion : Fusion) : Prop where
  groups : fusion.groups ≠ 0
  parts : fusion.parts ≠ []
  shares : ∀ part ∈ fusion.parts, part.share ≠ 0

/-- The tensor has this many rows of this many bytes and the fusion is the one
its contract declares for it. -/
structure Declares (fusion : Fusion) (tensor : Declared) (rows : UInt64)
    (rowBytes : Nat) : Prop where
  declared : tensor.contract.fusionFor tensor.name = some fusion
  shape : tensor.shape.head? = some rows
  length : tensor.byteLength = rows.toNat * rowBytes
  bounded : tensor.byteLength < 2 ^ 64

/-- The declared units divide the rows, and a vector holds them. -/
def Divides (fusion : Fusion) (rows : UInt64) : Prop :=
  fusion.declaredUnits ∣ rows.toNat ∧ fusion.declaredUnits ≤ maxRunCapacity

variable {fusion : Fusion} {tensor : Declared} {rows : UInt64}
  {rowBytes : Nat}

theorem length_seamCuts {runs : List FusionRun} {cursor : Nat} :
    (Contract.seamCuts cursor runs).length = runs.length - 1 := by
  induction runs generalizing cursor with
  | nil => rfl
  | cons run rest ih =>
      cases rest with
      | nil => rfl
      | cons next rest =>
          rw [Contract.seamCuts, List.length_cons, ih]
          · simp
          · simp

/-- An interleaved tensor is cut just where its declaration applies and every
run reaches the floor. -/
theorem Declares.cut_iff (h : fusion.Declares tensor rows rowBytes)
    (hvalid : fusion.Valid) (hgroups : 1 < fusion.groups) :
    tensor.Cut ↔ ∃ units,
      fusion.Applies tensor.shape tensor.byteLength units ∧
        fusion.slots tensor.byteLength units ≤ maxRunCapacity ∧
        Contract.RunsOk fusion (tensor.byteLength / units) := by
  have hnone (hruns : tensor.contract.runsOf (ε := PlanError) tensor.name
      tensor.shape tensor.byteLength = .ok none) : ¬ tensor.Cut := by
    rintro ⟨offsets, hoffsets, hne⟩
    rw [Contract.seamOffsets_of_none hruns] at hoffsets
    cases hoffsets
    exact hne rfl
  constructor
  · intro hcut
    by_cases happlies : ∃ units,
        fusion.Applies tensor.shape tensor.byteLength units
    · obtain ⟨units, happlies⟩ := happlies
      have hcapacity :
          fusion.slots tensor.byteLength units ≤ maxRunCapacity := by
        by_contra hlarge
        obtain ⟨offsets, hoffsets, _⟩ := hcut
        have hpanic : Contract.seams (ε := PlanError) (some tensor.contract)
            tensor.name tensor.shape tensor.byteLength = .error .panicked :=
          Contract.seams_of_exhausts h.bounded
            ⟨_, fusion, rfl, h.declared, units, happlies, not_le.mp hlarge⟩
        rw [Contract.seams, hoffsets] at hpanic
        cases hpanic
      refine ⟨units, happlies, hcapacity, ?_⟩
      by_contra hruns
      exact hnone (Contract.runsOf_of_not_ok h.bounded h.declared
        hvalid.groups happlies hcapacity hruns) hcut
    · push Not at happlies
      refine absurd hcut (hnone ?_)
      simp only [Contract.runsOf, h.declared, runs_of_not_applies happlies,
        except_ok_bind, Option.filter_none]
  · rintro ⟨units, happlies, hcapacity, hruns⟩
    refine ⟨_, Contract.seamOffsets_of_ok h.bounded h.declared
      ⟨hvalid.parts, hvalid.groups⟩ happlies hcapacity hruns, ?_⟩
    have hlength : 2 ≤ fusion.cycle.length := by
      rw [length_cycle]
      have hparts := List.length_pos_of_ne_nil hvalid.parts
      have htwo : 2 ≤ fusion.groups.toNat := hgroups
      exact le_trans htwo (Nat.le_mul_of_pos_right _ hparts)
    rw [← List.length_pos_iff, length_seamCuts, Contract.cycleRuns,
      List.length_map]
    omega

/-- Where the shares do not overflow, cutting is a matter of whole units and of
runs at or above the floor. -/
theorem Declares.cut_iff_divides (h : fusion.Declares tensor rows rowBytes)
    (hvalid : fusion.Valid) (hgroups : 1 < fusion.groups)
    (hshares : fusion.shareSum < 2 ^ 64) :
    tensor.Cut ↔ fusion.Divides rows ∧ ∀ part ∈ fusion.parts,
      minSeamPartBytes ≤ fusion.unitBytes tensor.byteLength *
        part.share.toNat := by
  rw [h.cut_iff hvalid hgroups]
  constructor
  · rintro ⟨units, happlies, hcapacity, hruns⟩
    have hunits := happlies.units_eq
    rw [Fusion.units, Nat.mod_eq_of_lt hshares, checkedMul_eq_some, Nat.mul_comm,
      ← declaredUnits] at hunits
    obtain ⟨rfl, _⟩ := hunits
    obtain ⟨found, hfound, _, hdivides, _⟩ := happlies.rows
    rw [h.shape] at hfound
    cases hfound
    exact ⟨⟨hdivides, (fusion.le_slots _ _).trans hcapacity⟩,
      fun part hpart => (hruns part hpart).1⟩
  · rintro ⟨⟨hdivides, hcapacity⟩, hfloor⟩
    have hsplits : fusion.Splits tensor.shape tensor.byteLength := by
      refine ⟨⟨rows, h.shape, ?_, hdivides, ?_⟩, hfloor⟩
      · intro hzero
        obtain ⟨part, hpart⟩ := List.exists_mem_of_ne_nil _ hvalid.parts
        have hpositive := hfloor part hpart
        rw [h.length, hzero, Nat.zero_mul, unitBytes, Nat.zero_div,
          Nat.zero_mul] at hpositive
        exact absurd hpositive (by decide)
      · rw [h.length]
        exact Nat.dvd_mul_right _ _
    exact ⟨fusion.declaredUnits, hsplits.applies,
      (slots_of_shares _ hvalid.shares).trans_le hcapacity,
      hsplits.runsOk h.bounded⟩

end Fusion

/-- One part of a fused tensor in the split packaging: its own tensor, its row
count, and the share of the single part it is declared with. -/
structure SplitTwin where
  tensor : Declared
  rows : UInt64
  share : UInt64

namespace SplitTwin

variable (twin : SplitTwin) (groups : UInt64)

def slices : Fusion := ⟨groups, [⟨[], twin.share⟩]⟩

/-- One of the twin's slices is no smaller than the floor. -/
def Reaches (rowBytes : Nat) : Prop :=
  minSeamPartBytes * groups.toNat ≤ twin.rows.toNat * rowBytes

instance (rowBytes : Nat) : Decidable (twin.Reaches groups rowBytes) :=
  inferInstanceAs (Decidable (_ ≤ _))

end SplitTwin

namespace Fusion

/-- The twin holds the part's share of the fused rows, and is declared with the
same groups and a single part of that share or of a divisor of it. -/
structure IsSplit (fusion : Fusion) (rows : UInt64) (rowBytes : Nat)
    (part : FusionPart) (twin : SplitTwin) : Prop where
  declares : (twin.slices fusion.groups).Declares twin.tensor twin.rows rowBytes
  share_ne_zero : twin.share ≠ 0
  share : twin.share.toNat ∣ part.share.toNat
  rows : twin.rows.toNat * fusion.shareSum = rows.toNat * part.share.toNat

/-- Neither packaging is cut on its own. -/
def CrossesTogether (fused : Declared) (twins : List SplitTwin) : Prop :=
  (fused.Cut ↔ ∀ twin ∈ twins, twin.tensor.Cut) ∧
    ((∃ twin ∈ twins, twin.tensor.Cut) → fused.Cut)

variable {fusion : Fusion} {fused : Declared} {rows : UInt64}
  {rowBytes : Nat} {part : FusionPart} {twin : SplitTwin}
  {twins : List SplitTwin}

theorem crossesTogether_iff (hne : twins ≠ []) :
    CrossesTogether fused twins ↔
      ∀ twin ∈ twins, (twin.tensor.Cut ↔ fused.Cut) := by
  obtain ⟨first, hfirst⟩ := List.exists_mem_of_ne_nil _ hne
  constructor
  · rintro ⟨hall, hany⟩ twin htwin
    exact ⟨fun hcut => hany ⟨twin, htwin, hcut⟩,
      fun hcut => hall.mp hcut twin htwin⟩
  · intro hsame
    refine ⟨⟨fun hcut twin htwin => (hsame twin htwin).mpr hcut,
      fun hall => (hsame first hfirst).mp (hall first hfirst)⟩, ?_⟩
    rintro ⟨twin, htwin, hcut⟩
    exact (hsame twin htwin).mp hcut

theorem groups_ne_zero (hgroups : 1 < fusion.groups) : fusion.groups ≠ 0 := by
  intro hzero
  rw [hzero] at hgroups
  exact absurd hgroups (by decide)

theorem single_le_shareSum (hpart : part ∈ fusion.parts) :
    part.share.toNat ≤ fusion.shareSum :=
  List.single_le_sum (by simp) _ (List.mem_map.mpr ⟨part, hpart, rfl⟩)

/-- A run of `share` units is a slice of the rows it stands for. -/
theorem floor_le_run_iff {groups units rows twinRows share : Nat}
    (hgroups : 0 < groups) (hunits : 0 < units)
    (hdivides : groups * units ∣ rows)
    (hrows : twinRows * units = rows * share) :
    minSeamPartBytes ≤ rows * rowBytes / (groups * units) * share ↔
      minSeamPartBytes * groups ≤ twinRows * rowBytes := by
  obtain ⟨perUnit, rfl⟩ := hdivides
  have hrun : groups * units * perUnit * rowBytes / (groups * units) =
      perUnit * rowBytes := by
    rw [Nat.mul_assoc, Nat.mul_div_cancel_left _ (Nat.mul_pos hgroups hunits)]
  have htwin : twinRows = groups * perUnit * share := by
    refine Nat.eq_of_mul_eq_mul_right hunits ?_
    rw [hrows]
    ring
  rw [hrun, htwin, show groups * perUnit * share * rowBytes =
    perUnit * rowBytes * share * groups by ring]
  exact (Nat.mul_le_mul_right_iff hgroups).symm

theorem IsSplit.cut_iff (h : fusion.IsSplit rows rowBytes part twin)
    (hgroups : 1 < fusion.groups) :
    twin.tensor.Cut ↔ (twin.slices fusion.groups).Divides twin.rows ∧
      twin.Reaches fusion.groups rowBytes := by
  have hshares : (twin.slices fusion.groups).shareSum = twin.share.toNat := by
    simp [SplitTwin.slices, shareSum]
  have hvalid : (twin.slices fusion.groups).Valid :=
    ⟨groups_ne_zero hgroups, by simp [SplitTwin.slices], by
      simpa [SplitTwin.slices] using h.share_ne_zero⟩
  have hshare : 0 < twin.share.toNat := by
    rw [Nat.pos_iff_ne_zero]
    exact fun hzero => h.share_ne_zero (UInt64.toNat_inj.mp hzero)
  rw [h.declares.cut_iff_divides hvalid hgroups
    (by rw [hshares]; exact twin.share.toNat_lt)]
  refine and_congr_right fun hdivides => ?_
  have hparts : (twin.slices fusion.groups).parts = [⟨[], twin.share⟩] := rfl
  rw [hparts, List.forall_mem_singleton, unitBytes, h.declares.length,
    declaredUnits, hshares]
  refine floor_le_run_iff (groups_pos hvalid.groups) hshare ?_ rfl
  rw [← hshares]
  exact hdivides.1

/-- Where the fused declaration divides its rows, so does each twin's. -/
theorem IsSplit.divides (h : fusion.IsSplit rows rowBytes part twin)
    (hvalid : fusion.Valid) (hpart : part ∈ fusion.parts)
    (hdivides : fusion.Divides rows) :
    (twin.slices fusion.groups).Divides twin.rows := by
  have hunits : (twin.slices fusion.groups).declaredUnits =
      fusion.groups.toNat * twin.share.toNat := by
    simp [declaredUnits, SplitTwin.slices, shareSum]
  have hsum := single_le_shareSum hpart
  have hpositive : 0 < part.share.toNat := by
    rw [Nat.pos_iff_ne_zero]
    exact fun hzero => hvalid.shares part hpart (UInt64.toNat_inj.mp hzero)
  obtain ⟨⟨perUnit, hrows⟩, hcapacity⟩ := hdivides
  obtain ⟨scale, hscale⟩ := h.share
  have htwin : twin.rows.toNat =
      fusion.groups.toNat * twin.share.toNat * (scale * perUnit) := by
    refine Nat.eq_of_mul_eq_mul_right (lt_of_lt_of_le hpositive hsum) ?_
    rw [h.rows, hrows, hscale, declaredUnits]
    ring
  refine ⟨by rw [hunits, htwin]; exact Nat.dvd_mul_right _ _, ?_⟩
  have hshare : twin.share.toNat ≤ part.share.toNat :=
    Nat.le_of_dvd hpositive h.share
  rw [hunits]
  exact le_trans (Nat.mul_le_mul_left _ (le_trans hshare hsum)) hcapacity

/-- Where the fused declaration divides its rows, it is cut just where each
part's slices reach the floor. -/
theorem Declares.cut_iff_reaches (h : fusion.Declares fused rows rowBytes)
    (hvalid : fusion.Valid) (hgroups : 1 < fusion.groups)
    (hdivides : fusion.Divides rows)
    (htwins : List.Forall₂ (fusion.IsSplit rows rowBytes) fusion.parts twins) :
    fused.Cut ↔ ∀ twin ∈ twins, twin.Reaches fusion.groups rowBytes := by
  have hpositive := groups_pos hvalid.groups
  obtain ⟨part, hpart⟩ := List.exists_mem_of_ne_nil _ hvalid.parts
  have hshare : 0 < fusion.shareSum := by
    refine lt_of_lt_of_le ?_ (single_le_shareSum hpart)
    rw [Nat.pos_iff_ne_zero]
    exact fun hzero => hvalid.shares part hpart (UInt64.toNat_inj.mp hzero)
  have hsmall : fusion.shareSum < 2 ^ 64 := by
    have hle : fusion.shareSum ≤ fusion.declaredUnits :=
      Nat.le_mul_of_pos_left _ hpositive
    have hcapacity := hdivides.2
    unfold maxRunCapacity at hcapacity
    omega
  rw [h.cut_iff_divides hvalid hgroups hsmall, and_iff_right hdivides,
    unitBytes, h.length, declaredUnits]
  exact forall_mem_iff htwins fun part twin hsplit =>
    floor_le_run_iff hpositive hshare hdivides.1 hsplit.rows

/-- A fusion whose shares overflow is cut where the runs of the wrapped sum
are. -/
theorem Declares.cut_iff_overruns (h : fusion.Declares fused rows rowBytes)
    (hvalid : fusion.Valid) (hgroups : 1 < fusion.groups)
    (hdivides : ¬ fusion.Divides rows) :
    fused.Cut ↔ fusion.Overruns fused.shape fused.byteLength := by
  rw [h.cut_iff hvalid hgroups]
  constructor
  · rintro ⟨units, happlies, hcapacity, hruns⟩
    refine ⟨?_, units, happlies, hcapacity, hruns⟩
    by_contra hsmall
    have hcut := (h.cut_iff hvalid hgroups).mpr
      ⟨units, happlies, hcapacity, hruns⟩
    exact hdivides ((h.cut_iff_divides hvalid hgroups
      (not_le.mp hsmall)).mp hcut).1
  · rintro ⟨_, units, happlies, hcapacity, hruns⟩
    exact ⟨units, happlies, hcapacity, hruns⟩

/-- Both packagings cross the floor together just where all slices are on one
side of it, as long as the declared units divide the fused rows; where they do
not, no twin may be cut at all, unless wrapped shares cut the fused tensor. -/
theorem floor_crossed_together_iff (hvalid : fusion.Valid)
    (hgroups : 1 < fusion.groups)
    (hfused : fusion.Declares fused rows rowBytes)
    (htwins : List.Forall₂ (fusion.IsSplit rows rowBytes) fusion.parts
      twins) :
    CrossesTogether fused twins ↔
      (fusion.Divides rows ∧
        ((∀ twin ∈ twins, twin.Reaches fusion.groups rowBytes) ∨
          ∀ twin ∈ twins, ¬ twin.Reaches fusion.groups rowBytes)) ∨
      (¬ fusion.Divides rows ∧ ∀ twin ∈ twins,
        ((twin.slices fusion.groups).Divides twin.rows ∧
          twin.Reaches fusion.groups rowBytes ↔
            fusion.Overruns fused.shape fused.byteLength)) := by
  have hne : twins ≠ [] := by
    rintro rfl
    exact hvalid.parts (List.forall₂_nil_right_iff.mp htwins)
  have hpart : ∀ twin ∈ twins, ∃ part ∈ fusion.parts,
      fusion.IsSplit rows rowBytes part twin := by
    intro twin htwin
    obtain ⟨part, hpart, hsplit⟩ := mem_of_forall₂ htwins htwin
    exact ⟨part, hpart, hsplit⟩
  rw [crossesTogether_iff hne]
  by_cases hdivides : fusion.Divides rows
  · have hcut : ∀ twin ∈ twins,
        (twin.tensor.Cut ↔ twin.Reaches fusion.groups rowBytes) := by
      intro twin htwin
      obtain ⟨part, hpart, hsplit⟩ := hpart twin htwin
      rw [hsplit.cut_iff hgroups,
        and_iff_right (hsplit.divides hvalid hpart hdivides)]
    simp only [hdivides, true_and, not_true_eq_false, false_and, or_false,
      hfused.cut_iff_reaches hvalid hgroups hdivides htwins]
    constructor
    · intro hsame
      by_cases hall : ∀ twin ∈ twins, twin.Reaches fusion.groups rowBytes
      · exact .inl hall
      · refine .inr fun twin htwin hreaches => hall ?_
        exact (hsame twin htwin).mp ((hcut twin htwin).mpr hreaches)
    · rintro (hall | hnone) twin htwin
      · exact iff_of_true ((hcut twin htwin).mpr (hall twin htwin)) hall
      · refine iff_of_false (fun h => ?_) fun h => ?_
        · exact hnone twin htwin ((hcut twin htwin).mp h)
        · exact hnone twin htwin (h twin htwin)
  · simp only [hdivides, false_and, not_false_eq_true, true_and, false_or,
      hfused.cut_iff_overruns hvalid hgroups hdivides]
    refine forall₂_congr fun twin htwin => ?_
    obtain ⟨part, _, hsplit⟩ := hpart twin htwin
    rw [hsplit.cut_iff hgroups]

end Fusion

/-! Two groups of two query rows and one key row. -/

namespace GroupedQuery

def fusion : Fusion := ⟨2, [⟨['q'], 2⟩, ⟨['k'], 1⟩]⟩

def fused (rowBytes : Nat) : Declared :=
  ⟨PairedRows.contract ['w'] fusion, ['w'], [6], 6 * rowBytes⟩

def twin (name : Text) (rows : UInt64) (rowBytes : Nat) : SplitTwin :=
  ⟨⟨PairedRows.contract name ⟨2, [⟨[], 1⟩]⟩, name, [rows],
    rows.toNat * rowBytes⟩, rows, 1⟩

def twins (rowBytes : Nat) : List SplitTwin :=
  [twin ['q'] 4 rowBytes, twin ['k'] 2 rowBytes]

theorem valid : fusion.Valid := ⟨by decide, by decide, by decide⟩

theorem declares {rowBytes : Nat} (h : 6 * rowBytes < 2 ^ 64) :
    fusion.Declares (fused rowBytes) 6 rowBytes := by
  have hdeclared : (PairedRows.contract ['w'] fusion).fusionFor ['w'] =
      some fusion := by
    decide
  exact ⟨hdeclared, rfl, rfl, h⟩

theorem isSplit {name : Text} {part : FusionPart} {rows : UInt64}
    {rowBytes : Nat}
    (hdeclared : (PairedRows.contract name ⟨2, [⟨[], 1⟩]⟩).fusionFor name =
      some ⟨2, [⟨[], 1⟩]⟩)
    (hrows : rows.toNat * 3 = 6 * part.share.toNat)
    (hbounded : rows.toNat * rowBytes < 2 ^ 64) :
    fusion.IsSplit 6 rowBytes part (twin name rows rowBytes) := by
  have hshare : (1 : UInt64) ≠ 0 := by decide
  exact ⟨⟨hdeclared, rfl, rfl, hbounded⟩, hshare, Nat.one_dvd _, hrows⟩

theorem split {rowBytes : Nat} (h : 6 * rowBytes < 2 ^ 64) :
    List.Forall₂ (fusion.IsSplit 6 rowBytes) fusion.parts
      (twins rowBytes) := by
  have hquery : (4 : UInt64).toNat * rowBytes < 2 ^ 64 := by
    rw [show (4 : UInt64).toNat = 4 from rfl]
    omega
  have hkey : (2 : UInt64).toNat * rowBytes < 2 ^ 64 := by
    rw [show (2 : UInt64).toNat = 2 from rfl]
    omega
  exact .cons (isSplit (by decide) (by decide) hquery)
    (.cons (isSplit (by decide) (by decide) hkey) .nil)

end GroupedQuery

/-- At rows of half a mebibyte the query twin is cut and the fused tensor is
not. -/
theorem fusion_degrades_on_one_side :
    GroupedQuery.fusion.Valid ∧ 1 < GroupedQuery.fusion.groups ∧
      GroupedQuery.fusion.Declares (GroupedQuery.fused 524288) 6 524288 ∧
      List.Forall₂ (GroupedQuery.fusion.IsSplit 6 524288)
        GroupedQuery.fusion.parts (GroupedQuery.twins 524288) ∧
      ¬ Fusion.CrossesTogether (GroupedQuery.fused 524288)
        (GroupedQuery.twins 524288) := by
  refine ⟨GroupedQuery.valid, by decide,
    GroupedQuery.declares (by decide), GroupedQuery.split (by decide), ?_⟩
  rintro ⟨_, hany⟩
  have hquery : (GroupedQuery.twin ['q'] 4 524288).tensor.Cut :=
    ⟨[1048576], by decide, by decide⟩
  obtain ⟨offsets, hoffsets, hne⟩ := hany ⟨_, List.mem_cons_self, hquery⟩
  have huncut : (GroupedQuery.fused 524288).contract.seamOffsets
      (ε := PlanError) ['w'] [6] 3145728 = .ok [] := by
    decide
  have heq := hoffsets.symm.trans huncut
  cases heq
  exact hne rfl

/-- At rows of one mebibyte both packagings are cut. -/
theorem floor_crossed_together_grouped_query :
    Fusion.CrossesTogether (GroupedQuery.fused 1048576)
      (GroupedQuery.twins 1048576) :=
  (Fusion.floor_crossed_together_iff GroupedQuery.valid (by decide)
    (GroupedQuery.declares (by decide))
    (GroupedQuery.split (by decide))).mpr
      (.inl ⟨⟨by decide, by decide⟩, .inl (by decide)⟩)

end TensorFS
