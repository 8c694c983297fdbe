import TensorFS.Planner.Seams

namespace TensorFS

open Data

/-! What a tensor's regions hold, and how a fused tensor shares its objects
with the tensors it fuses. -/

/-- The bytes of one region of a file. -/
def Region.content (byte : Nat → UInt8) (region : Region) : Bytes :=
  (List.range region.length).map fun index => byte (region.offset + index)

/-- The objects of an extent on the plain grid. -/
def gridObjects (byte : Nat → UInt8) (offset length : Nat) : List Bytes :=
  (splitObjects .tensor (objectCount length) offset length).map
    (Region.content byte)

/-- One tensor of a packaging, as the planner meets it. -/
structure StoredTensor where
  name : Text
  shape : List UInt64
  offset : Nat
  length : Nat
  bound : offset + length < 2 ^ 64

/-- One tensor's regions behind those of the file so far. -/
def cutTensor (contract : Option Contract) (regions : List Region)
    (tensor : StoredTensor) : Except (Failure PlanError) (List Region) := do
  let seams ← Contract.seams contract tensor.name tensor.shape tensor.length
  refusing (appendTensorRegions regions tensor.offset tensor.length seams
    .tensor)

/-- Cutting the tensor adds exactly these objects, whatever the file holds so
far; only the object limit refuses. -/
structure Adds (contract : Option Contract) (byte : Nat → UInt8)
    (tensor : StoredTensor) (objects : List Bytes) : Prop where
  added : ∀ regions : List Region,
    regions.length + objects.length ≤ maxObjectCount →
      ∃ new, cutTensor contract regions tensor = .ok (regions ++ new) ∧
        new.map (Region.content byte) = objects
  limit : ∀ regions : List Region,
    maxObjectCount < regions.length + objects.length →
      ∀ result, cutTensor contract regions tensor ≠ .ok result

theorem Region.content_congr {byte byte' : Nat → UInt8}
    {left right : Region} (hlength : left.length = right.length)
    (h : ∀ index < left.length,
      byte (left.offset + index) = byte' (right.offset + index)) :
    left.content byte = right.content byte' := by
  unfold Region.content
  rw [← hlength]
  exact List.map_congr_left fun index hindex =>
    h index (List.mem_range.mp hindex)

theorem splitObjects_content {byte byte' : Nat → UInt8} {kind : RegionKind}
    {count offset offset' length : Nat}
    (h : ∀ index < length, byte (offset + index) = byte' (offset' + index)) :
    (splitObjects kind count offset length).map (Region.content byte) =
      (splitObjects kind count offset' length).map
        (Region.content byte') := by
  induction count generalizing offset offset' length with
  | zero => rfl
  | succ count ih =>
      have hfits : min length maxObjectSize ≤ length := min_le_left _ _
      rw [splitObjects, splitObjects, List.map_cons, List.map_cons]
      generalize min length maxObjectSize = part at hfits ⊢
      have hhead : Region.content byte ⟨offset, part, kind⟩ =
          Region.content byte' ⟨offset', part, kind⟩ :=
        Region.content_congr rfl fun index hindex =>
          h index (lt_of_lt_of_le hindex hfits)
      have htail := @ih (offset + part) (offset' + part) (length - part)
        fun index hindex => by
          rw [Nat.add_assoc, Nat.add_assoc]
          exact h _ (by omega)
      rw [hhead, htail]

theorem gridObjects_congr {byte byte' : Nat → UInt8}
    {offset offset' length : Nat}
    (h : ∀ index < length, byte (offset + index) = byte' (offset' + index)) :
    gridObjects byte offset length = gridObjects byte' offset' length :=
  splitObjects_content h

theorem length_gridObjects (byte : Nat → UInt8) (offset length : Nat) :
    (gridObjects byte offset length).length = objectCount length := by
  rw [gridObjects, List.length_map]
  exact (splitObjects_covers .tensor rfl).count

/-! Cutting at the ends of consecutive runs. -/

/-- The grid regions of consecutive extents. -/
def runRegions (kind : RegionKind) : Nat → List Nat → List Region
  | _, [] => []
  | start, length :: lengths =>
      splitObjects kind (objectCount length) start length ++
        runRegions kind (start + length) lengths

/-- The objects of consecutive extents, each on its own grid. -/
def runObjects (byte : Nat → UInt8) : Nat → List Nat → List Bytes
  | _, [] => []
  | start, length :: lengths =>
      gridObjects byte start length ++
        runObjects byte (start + length) lengths

theorem runRegions_content (byte : Nat → UInt8) (start : Nat)
    (lengths : List Nat) :
    (runRegions .tensor start lengths).map (Region.content byte) =
      runObjects byte start lengths := by
  induction lengths generalizing start with
  | nil => rfl
  | cons length lengths ih =>
      rw [runRegions, List.map_append, ih]
      rfl

theorem length_runRegions (kind : RegionKind) (start : Nat)
    (lengths : List Nat) :
    (runRegions kind start lengths).length =
      (lengths.map objectCount).sum := by
  induction lengths generalizing start with
  | nil => rfl
  | cons length lengths ih =>
      rw [runRegions, List.length_append, ih,
        (splitObjects_covers kind rfl).count]
      rfl

theorem runObjects_append (byte : Nat → UInt8) (start : Nat)
    (left right : List Nat) :
    runObjects byte start (left ++ right) =
      runObjects byte start left ++
        runObjects byte (start + left.sum) right := by
  induction left generalizing start with
  | nil => rfl
  | cons length left ih =>
      rw [List.cons_append, runObjects, runObjects, ih, List.append_assoc,
        List.sum_cons, Nat.add_assoc]

/-- Cutting at the ends of the runs succeeds as long as their objects fit. -/
theorem appendSeams_runs {offset length cursor : Nat} {kind : RegionKind}
    {regions : List Region} {runs : List FusionRun}
    (hlength : length < 2 ^ 64) (hne : runs ≠ [])
    (hpositive : ∀ run ∈ runs, 0 < run.length)
    (hsum : cursor + (runs.map FusionRun.length).sum = length)
    (hfits : regions.length +
      ((runs.map FusionRun.length).map objectCount).sum ≤ maxObjectCount) :
    appendSeams offset length kind regions cursor
        (Contract.seamCuts cursor runs) =
      .ok (regions ++ runRegions kind (offset + cursor)
        (runs.map FusionRun.length)) := by
  induction runs generalizing cursor regions with
  | nil => exact absurd rfl hne
  | cons run rest ih =>
      rw [List.map_cons, List.sum_cons] at hsum
      rw [List.map_cons, List.map_cons, List.sum_cons] at hfits
      cases rest with
      | nil =>
          have hlast : length - cursor = run.length := by
            rw [List.map_nil, List.sum_nil] at hsum
            omega
          have hroom : regions.length + objectCount run.length ≤
              maxObjectCount := by omega
          rw [Contract.seamCuts, appendSeams, hlast, appendSplitRegion_eq,
            if_pos hroom, List.map_cons, List.map_nil, runRegions, runRegions,
            List.append_nil]
      | cons next rest =>
          have hrun := hpositive run List.mem_cons_self
          have hnext := hpositive next (by simp)
          have hrest : next.length ≤
              ((next :: rest).map FusionRun.length).sum := by
            rw [List.map_cons, List.sum_cons]
            exact Nat.le_add_right _ _
          have hmod : (cursor + run.length) % 2 ^ 64 = cursor + run.length :=
            Nat.mod_eq_of_lt (by omega)
          have hplaced : cursor < cursor + run.length ∧
              cursor + run.length < length := by omega
          have hstep : cursor + run.length - cursor = run.length := by omega
          have hroom : regions.length + objectCount run.length ≤
              maxObjectCount := by omega
          have hcount : (splitObjects kind (objectCount run.length)
              (offset + cursor) run.length).length =
                objectCount run.length := (splitObjects_covers kind rfl).count
          have htail := @ih (cursor + run.length)
            (regions ++ splitObjects kind (objectCount run.length)
              (offset + cursor) run.length) (by simp)
            (fun other hother =>
              hpositive other (List.mem_cons_of_mem _ hother)) (by omega)
            (by rw [List.length_append, hcount]; omega)
          have hregions : runRegions kind (offset + cursor)
              ((run :: next :: rest).map FusionRun.length) =
              splitObjects kind (objectCount run.length) (offset + cursor)
                run.length ++ runRegions kind (offset + (cursor + run.length))
                  ((next :: rest).map FusionRun.length) := by
            rw [← Nat.add_assoc]
            rfl
          rw [hregions, ← List.append_assoc, ← htail, Contract.seamCuts, hmod,
            appendSeams, ensure_of hplaced, except_ok_bind, hstep,
            appendSplitRegion_eq, if_pos hroom, except_ok_bind]
          simp

/-- Past the object limit nothing is cut. -/
theorem appendSeams_runs_limit {offset length cursor : Nat}
    {kind : RegionKind} {regions : List Region} {runs : List FusionRun}
    (hlength : length < 2 ^ 64) (hne : runs ≠ [])
    (hpositive : ∀ run ∈ runs, 0 < run.length)
    (hsum : cursor + (runs.map FusionRun.length).sum = length)
    (hfull : maxObjectCount < regions.length +
      ((runs.map FusionRun.length).map objectCount).sum) :
    appendSeams offset length kind regions cursor
      (Contract.seamCuts cursor runs) = .error .objectLimit := by
  induction runs generalizing cursor regions with
  | nil => exact absurd rfl hne
  | cons run rest ih =>
      rw [List.map_cons, List.sum_cons] at hsum
      rw [List.map_cons, List.map_cons, List.sum_cons] at hfull
      cases rest with
      | nil =>
          have hlast : length - cursor = run.length := by
            rw [List.map_nil, List.sum_nil] at hsum
            omega
          have hroom : ¬ regions.length + objectCount run.length ≤
              maxObjectCount := by
            rw [List.map_nil, List.map_nil, List.sum_nil] at hfull
            omega
          rw [Contract.seamCuts, appendSeams, hlast, appendSplitRegion_eq,
            if_neg hroom]
      | cons next rest =>
          have hrun := hpositive run List.mem_cons_self
          have hnext := hpositive next (by simp)
          have hrest : next.length ≤
              ((next :: rest).map FusionRun.length).sum := by
            rw [List.map_cons, List.sum_cons]
            exact Nat.le_add_right _ _
          have hmod : (cursor + run.length) % 2 ^ 64 = cursor + run.length :=
            Nat.mod_eq_of_lt (by omega)
          have hplaced : cursor < cursor + run.length ∧
              cursor + run.length < length := by omega
          have hstep : cursor + run.length - cursor = run.length := by omega
          rw [Contract.seamCuts, hmod, appendSeams, ensure_of hplaced,
            except_ok_bind, hstep, appendSplitRegion_eq]
          by_cases hroom : regions.length + objectCount run.length ≤
              maxObjectCount
          · have hcount : (splitObjects kind (objectCount run.length)
                (offset + cursor) run.length).length =
                  objectCount run.length := (splitObjects_covers kind rfl).count
            rw [if_pos hroom, except_ok_bind]
            exact ih (by simp) (fun other hother =>
              hpositive other (List.mem_cons_of_mem _ hother)) (by omega)
              (by rw [List.length_append, hcount]; omega)
          · rw [if_neg hroom, except_error_bind]
          simp

/-! A fusion that divides its tensor. -/

theorem le_objectCount (length : Nat) :
    length ≤ objectCount length * maxObjectSize := by
  unfold objectCount maxObjectSize
  omega

theorem sum_le_objectCount (lengths : List Nat) :
    lengths.sum ≤ (lengths.map objectCount).sum * maxObjectSize := by
  induction lengths with
  | nil => simp
  | cons length lengths ih =>
      rw [List.map_cons, List.sum_cons, List.sum_cons, Nat.add_mul]
      exact Nat.add_le_add (le_objectCount length) ih

namespace Fusion

/-- The units the document declares, as an unbounded number. -/
def declaredUnits (fusion : Fusion) : Nat :=
  fusion.groups.toNat * fusion.shareSum

def unitBytes (fusion : Fusion) (length : Nat) : Nat :=
  length / fusion.declaredUnits

/-- The outer axis divides into the declared units, the bytes into rows, and
every declared run reaches the floor. -/
structure Splits (fusion : Fusion) (shape : List UInt64) (length : Nat) :
    Prop where
  rows : ∃ rows, shape.head? = some rows ∧ rows.toNat ≠ 0 ∧
    fusion.declaredUnits ∣ rows.toNat ∧ rows.toNat ∣ length
  floor : ∀ part ∈ fusion.parts,
    minSeamPartBytes ≤ fusion.unitBytes length * part.share.toNat

/-- The run lengths of one group, in file order. -/
def partLengths (fusion : Fusion) (unitBytes : Nat) : List Nat :=
  fusion.parts.map fun part => unitBytes * part.share.toNat

/-- Every declared run's length, in file order. -/
def runLengths (fusion : Fusion) (unitBytes : Nat) : List Nat :=
  (List.range fusion.groups.toNat).flatMap fun _ =>
    fusion.partLengths unitBytes

theorem runLengths_eq (fusion : Fusion) (unitBytes : Nat) :
    fusion.runLengths unitBytes =
      (Contract.cycleRuns fusion unitBytes).map FusionRun.length := by
  unfold runLengths partLengths Contract.cycleRuns cycle
  rw [List.map_map, List.map_flatMap]
  simp [Function.comp_def]

theorem sum_partLengths (fusion : Fusion) (unitBytes : Nat) :
    (fusion.partLengths unitBytes).sum = unitBytes * fusion.shareSum := by
  unfold partLengths shareSum
  rw [List.sum_map_mul_left]

section Splits

variable {fusion : Fusion} {shape : List UInt64} {length : Nat}

theorem Splits.units_pos (h : fusion.Splits shape length) :
    0 < fusion.groups.toNat ∧ 0 < fusion.shareSum := by
  obtain ⟨rows, _, hrows, hunits, _⟩ := h.rows
  have hne : fusion.groups.toNat * fusion.shareSum ≠ 0 := by
    intro hzero
    rw [declaredUnits, hzero, Nat.zero_dvd] at hunits
    exact hrows hunits
  exact ⟨Nat.pos_of_ne_zero (left_ne_zero_of_mul hne),
    Nat.pos_of_ne_zero (right_ne_zero_of_mul hne)⟩

theorem Splits.applies (h : fusion.Splits shape length) :
    fusion.Applies shape length fusion.declaredUnits := by
  obtain ⟨hgroups, hshares⟩ := h.units_pos
  obtain ⟨rows, hhead, hrows, hunits, hwhole⟩ := h.rows
  have hle : fusion.declaredUnits ≤ rows.toNat :=
    Nat.le_of_dvd (Nat.pos_of_ne_zero hrows) hunits
  have hlt := rows.toNat_lt
  have hshare : fusion.shareSum ≤ fusion.declaredUnits :=
    Nat.le_mul_of_pos_left _ hgroups
  refine ⟨?_, ?_, rows, hhead, hrows, hunits, hwhole⟩
  · rw [units, Nat.mod_eq_of_lt (by omega), checkedMul_eq_some,
      Nat.mul_comm]
    exact ⟨rfl, by rw [← declaredUnits]; omega⟩
  · exact (Nat.mul_pos hgroups hshares).ne'

theorem Splits.length_eq (h : fusion.Splits shape length) :
    fusion.groups.toNat * (fusion.unitBytes length * fusion.shareSum) =
      length := by
  have hdvd := h.applies.dvd
  calc fusion.groups.toNat * (fusion.unitBytes length * fusion.shareSum) =
      fusion.unitBytes length * fusion.declaredUnits := by
        unfold declaredUnits
        ring
    _ = length := Nat.div_mul_cancel hdvd

theorem Splits.parts_ne_nil (h : fusion.Splits shape length) :
    fusion.parts ≠ [] := by
  intro hnil
  have hpos := h.units_pos.2
  simp [shareSum, hnil] at hpos

theorem Splits.sum_runLengths (h : fusion.Splits shape length) :
    (fusion.runLengths (fusion.unitBytes length)).sum = length := by
  rw [runLengths_eq, Contract.sum_cycleRuns, h.length_eq]

theorem Splits.runsOk (h : fusion.Splits shape length)
    (hlength : length < 2 ^ 64) :
    Contract.RunsOk fusion (length / fusion.declaredUnits) := by
  intro part hpart
  refine ⟨h.floor part hpart, ?_⟩
  have hshare : part.share.toNat ≤ fusion.shareSum :=
    List.single_le_sum (by simp) _ (List.mem_map.mpr ⟨part, hpart, rfl⟩)
  have hgroups := h.units_pos.1
  have heq := h.length_eq
  unfold unitBytes at heq
  have hle : length / fusion.declaredUnits * part.share.toNat ≤
      length / fusion.declaredUnits * fusion.shareSum :=
    Nat.mul_le_mul_left _ hshare
  have hone : length / fusion.declaredUnits * fusion.shareSum ≤
      fusion.groups.toNat *
        (length / fusion.declaredUnits * fusion.shareSum) :=
    Nat.le_mul_of_pos_left _ hgroups
  omega

end Splits

end Fusion

theorem length_runObjects (byte : Nat → UInt8) (start : Nat)
    (lengths : List Nat) :
    (runObjects byte start lengths).length = (lengths.map objectCount).sum := by
  rw [← runRegions_content, List.length_map, length_runRegions]

theorem StoredTensor.length_lt (tensor : StoredTensor) :
    tensor.length < 2 ^ 64 := by
  have hbound := tensor.bound
  omega

/-- An undeclared tensor adds the objects of its plain grid. -/
theorem adds_plain {contract : Option Contract} {tensor : StoredTensor}
    (byte : Nat → UInt8)
    (hplain : ∀ found, contract = some found →
      found.fusionFor tensor.name = none) :
    Adds contract byte tensor
      (gridObjects byte tensor.offset tensor.length) := by
  have hseams : Contract.seams (ε := PlanError) contract tensor.name
      tensor.shape tensor.length = .ok [] := by
    cases contract with
    | none => rfl
    | some found =>
        refine Contract.seamOffsets_of_none ?_
        simp [Contract.runsOf, hplain found rfl]
  have hcut : ∀ regions, cutTensor contract regions tensor =
      refusing (appendSplitRegion regions tensor.offset tensor.length
        .tensor) := by
    intro regions
    rw [cutTensor, hseams, except_ok_bind, appendTensorRegions, appendSeams]
    rfl
  refine ⟨fun regions hfits => ?_, fun regions hfull result hresult => ?_⟩
  · rw [length_gridObjects] at hfits
    refine ⟨splitObjects .tensor (objectCount tensor.length) tensor.offset
      tensor.length, ?_, rfl⟩
    rw [hcut, appendSplitRegion_eq, if_pos hfits]
    rfl
  · rw [length_gridObjects] at hfull
    rw [hcut, appendSplitRegion_eq, if_neg (not_le.mpr hfull)] at hresult
    cases hresult

/-- A tensor its fusion splits adds the objects of every run. -/
theorem adds_declared {found : Contract} {fusion : Fusion}
    {tensor : StoredTensor} (byte : Nat → UInt8)
    (hfusion : found.fusionFor tensor.name = some fusion)
    (hsplits : fusion.Splits tensor.shape tensor.length) :
    Adds (some found) byte tensor (runObjects byte tensor.offset
      (fusion.runLengths (fusion.unitBytes tensor.length))) := by
  have hlength := tensor.length_lt
  have hunit := hsplits.runsOk hlength
  have hok : fusion.parts ≠ [] ∧ fusion.groups ≠ 0 := by
    refine ⟨hsplits.parts_ne_nil, ?_⟩
    intro hzero
    have hpos := hsplits.units_pos.1
    simp [hzero] at hpos
  have hne : Contract.cycleRuns fusion (fusion.unitBytes tensor.length) ≠
      [] := by
    rw [Contract.cycleRuns, Ne, List.map_eq_nil_iff]
    exact Fusion.cycle_ne_nil hok.1 hok.2
  have hpositive : ∀ run ∈ Contract.cycleRuns fusion
      (fusion.unitBytes tensor.length), 0 < run.length := by
    intro run hrun
    obtain ⟨part, hpart, hrunLength⟩ := Contract.mem_cycleRuns hrun
    have hfloor := hsplits.floor part hpart
    rw [hrunLength]
    exact lt_of_lt_of_le (by decide) hfloor
  have hsum : 0 + ((Contract.cycleRuns fusion
      (fusion.unitBytes tensor.length)).map FusionRun.length).sum =
        tensor.length := by
    rw [← Fusion.runLengths_eq, hsplits.sum_runLengths, Nat.zero_add]
  have hslots : fusion.slots tensor.length fusion.declaredUnits =
      fusion.declaredUnits := by
    refine Fusion.slots_of_shares _ fun part hpart hzero => ?_
    have hfloor := hsplits.floor part hpart
    rw [hzero] at hfloor
    exact absurd hfloor (by simp [minSeamPartBytes])
  have hseams : fusion.declaredUnits ≤ Fusion.maxRunCapacity →
      Contract.seams (ε := PlanError) (some found) tensor.name tensor.shape
        tensor.length = .ok (Contract.seamCuts 0
          (Contract.cycleRuns fusion (fusion.unitBytes tensor.length))) :=
    fun hcapacity => Contract.seamOffsets_of_ok hlength hfusion hok
      hsplits.applies (hslots.trans_le hcapacity) hunit
  have hunits : fusion.declaredUnits ≤ tensor.length := by
    refine Nat.le_of_dvd (Nat.pos_of_ne_zero ?_) hsplits.applies.dvd
    intro hzero
    have hunitZero := Contract.unitBytes_pos hok.1 hunit
    rw [hzero, Nat.zero_div] at hunitZero
    exact absurd hunitZero (lt_irrefl 0)
  refine ⟨fun regions hfits => ?_, fun regions hfull result hresult => ?_⟩
  · rw [length_runObjects] at hfits
    have hbound := sum_le_objectCount
      (fusion.runLengths (fusion.unitBytes tensor.length))
    rw [hsplits.sum_runLengths] at hbound
    have hcapacity : fusion.declaredUnits ≤ Fusion.maxRunCapacity := by
      unfold Fusion.maxRunCapacity
      unfold maxObjectSize at hbound
      unfold maxObjectCount at hfits
      omega
    refine ⟨runRegions .tensor tensor.offset
      (fusion.runLengths (fusion.unitBytes tensor.length)), ?_,
      runRegions_content byte _ _⟩
    rw [Fusion.runLengths_eq] at hfits ⊢
    rw [cutTensor, hseams hcapacity, except_ok_bind, appendTensorRegions,
      appendSeams_runs hlength hne hpositive hsum hfits, Nat.add_zero]
    rfl
  · rw [length_runObjects, Fusion.runLengths_eq] at hfull
    by_cases hcapacity : fusion.declaredUnits ≤ Fusion.maxRunCapacity
    · rw [cutTensor, hseams hcapacity, except_ok_bind, appendTensorRegions,
        appendSeams_runs_limit hlength hne hpositive hsum hfull] at hresult
      cases hresult
    · have hpanic : Contract.seams (ε := PlanError) (some found) tensor.name
          tensor.shape tensor.length = .error .panicked :=
        Contract.seams_of_exhausts hlength ⟨found, fusion, rfl, hfusion,
          fusion.declaredUnits, hsplits.applies,
          hslots.symm ▸ not_le.mp hcapacity⟩
      rw [cutTensor, hpanic, except_error_bind] at hresult
      cases hresult

/-! Twins: the same bytes, every part a tensor of its own. -/

theorem runObjects_groups (byte : Nat → UInt8) (start : Nat)
    (lengths : List Nat) (groups : Nat) :
    runObjects byte start ((List.range groups).flatMap fun _ => lengths) =
      (List.range groups).flatMap fun group =>
        runObjects byte (start + group * lengths.sum) lengths := by
  induction groups with
  | zero => rfl
  | succ groups ih =>
      have hsum : ((List.range groups).flatMap fun _ => lengths).sum =
          groups * lengths.sum := by
        simp [List.flatMap, List.sum_flatten]
      rw [List.range_succ, List.flatMap_append, List.flatMap_append,
        runObjects_append, ih, hsum, List.flatMap_singleton,
        List.flatMap_singleton]

theorem runObjects_eq (byte : Nat → UInt8) (start : Nat)
    (lengths : List Nat) :
    runObjects byte start lengths =
      (List.range lengths.length).flatMap fun index =>
        gridObjects byte (start + (lengths.take index).sum)
          (lengths.getD index 0) := by
  induction lengths generalizing start with
  | nil => rfl
  | cons length lengths ih =>
      rw [runObjects, ih, List.length_cons, List.range_succ_eq_map,
        List.flatMap_cons, List.flatMap_map]
      simp [Nat.add_assoc]

/-- The shares declared before the part at `index`. -/
def Fusion.sharesBefore (fusion : Fusion) (index : Nat) : Nat :=
  ((fusion.parts.take index).map fun part => part.share.toNat).sum

def Fusion.shareAt (fusion : Fusion) (index : Nat) : Nat :=
  (fusion.parts.map fun part => part.share.toNat).getD index 0

/-- Where one declared run of the tensor starts. -/
def Fusion.runStart (fusion : Fusion) (tensor : StoredTensor)
    (group index : Nat) : Nat :=
  tensor.offset +
    (group * (fusion.unitBytes tensor.length * fusion.shareSum) +
      fusion.unitBytes tensor.length * fusion.sharesBefore index)

def Fusion.runLength (fusion : Fusion) (tensor : StoredTensor)
    (index : Nat) : Nat :=
  fusion.unitBytes tensor.length * fusion.shareAt index

/-- The objects of one declared run, on its own grid. -/
def Fusion.runGrid (fusion : Fusion) (byte : Nat → UInt8)
    (tensor : StoredTensor) (group index : Nat) : List Bytes :=
  gridObjects byte (fusion.runStart tensor group index)
    (fusion.runLength tensor index)

theorem Fusion.runObjects_runLengths (fusion : Fusion) (byte : Nat → UInt8)
    (tensor : StoredTensor) :
    runObjects byte tensor.offset
        (fusion.runLengths (fusion.unitBytes tensor.length)) =
      (List.range fusion.groups.toNat).flatMap fun group =>
        (List.range fusion.parts.length).flatMap
          (fusion.runGrid byte tensor group) := by
  rw [runLengths, runObjects_groups]
  congr 1
  funext group
  rw [runObjects_eq, sum_partLengths, partLengths, List.length_map]
  congr 1
  funext index
  have hbefore : ((fusion.parts.map fun part =>
      fusion.unitBytes tensor.length * part.share.toNat).take index).sum =
        fusion.unitBytes tensor.length * fusion.sharesBefore index := by
    rw [← List.map_take, List.sum_map_mul_left, sharesBefore]
  have hat : (fusion.parts.map fun part =>
      fusion.unitBytes tensor.length * part.share.toNat).getD index 0 =
        fusion.runLength tensor index := by
    rw [runLength, shareAt]
    by_cases hindex : index < fusion.parts.length
    · simp [hindex]
    · simp [not_lt.mp hindex]
  rw [hbefore, hat, runGrid, runStart, Nat.add_assoc]

/-- A tensor in a file of its own packaging. -/
structure Packaged where
  contract : Option Contract
  byte : Nat → UInt8
  tensor : StoredTensor

/-- A twin of an ungrouped fusion stands on the plain grid; a twin of a grouped
one is declared with the same groups and a single part. -/
def TwinDeclared (groups : UInt64) (twin : Packaged) : Prop :=
  if groups = 1 then
    ∀ found, twin.contract = some found →
      found.fusionFor twin.tensor.name = none
  else
    ∃ found part, twin.contract = some found ∧
      found.fusionFor twin.tensor.name = some ⟨groups, [part]⟩ ∧
      ∀ rows, twin.tensor.shape.head? = some rows →
        groups.toNat * part.share.toNat ∣ rows.toNat

/-- The part at `index` of the fused tensor, stored as its own tensor: its rows
and bytes are those of the part's runs, group after group. -/
structure Fusion.IsTwin (fusion : Fusion) (byte : Nat → UInt8)
    (tensor : StoredTensor) (index : Nat) (twin : Packaged) : Prop where
  rows : ∃ rows twinRows, tensor.shape.head? = some rows ∧
    twin.tensor.shape.head? = some twinRows ∧
    twinRows.toNat = rows.toNat / fusion.declaredUnits *
      (fusion.groups.toNat * fusion.shareAt index)
  length : twin.tensor.length =
    fusion.groups.toNat * fusion.runLength tensor index
  bytes : ∀ group < fusion.groups.toNat,
    ∀ step < fusion.runLength tensor index,
      twin.byte (twin.tensor.offset +
          group * fusion.runLength tensor index + step) =
        byte (fusion.runStart tensor group index + step)
  declared : TwinDeclared fusion.groups twin

section Twins

variable {fusion : Fusion} {byte : Nat → UInt8} {tensor : StoredTensor}
  {index : Nat} {twin : Packaged}

theorem Fusion.IsTwin.grid (htwin : fusion.IsTwin byte tensor index twin)
    {group : Nat} (hgroup : group < fusion.groups.toNat) :
    gridObjects twin.byte
        (twin.tensor.offset + group * fusion.runLength tensor index)
        (fusion.runLength tensor index) =
      fusion.runGrid byte tensor group index :=
  gridObjects_congr (htwin.bytes group hgroup)

theorem Fusion.shareAt_mem (hindex : index < fusion.parts.length) :
    ∃ part ∈ fusion.parts, fusion.shareAt index = part.share.toNat :=
  ⟨fusion.parts[index], List.getElem_mem hindex, by simp [shareAt, hindex]⟩

/-- A grouped twin's single part cuts it into the part's own runs. -/
theorem Fusion.IsTwin.splits
    (hsplits : fusion.Splits tensor.shape tensor.length)
    (hindex : index < fusion.parts.length)
    (htwin : fusion.IsTwin byte tensor index twin) {part : FusionPart}
    (hpart : ∀ rows, twin.tensor.shape.head? = some rows →
      fusion.groups.toNat * part.share.toNat ∣ rows.toNat) :
    (⟨fusion.groups, [part]⟩ : Fusion).Splits twin.tensor.shape
        twin.tensor.length ∧
      (⟨fusion.groups, [part]⟩ : Fusion).unitBytes twin.tensor.length *
        part.share.toNat = fusion.runLength tensor index := by
  obtain ⟨hgroups, hshares⟩ := hsplits.units_pos
  obtain ⟨declared, hdeclared, hshare⟩ := Fusion.shareAt_mem hindex
  have hfloor := hsplits.floor declared hdeclared
  rw [← hshare] at hfloor
  obtain ⟨rows, twinRows, hrows, htwinRows, hcount⟩ := htwin.rows
  obtain ⟨found, hfound, hne, hunits, hwhole⟩ := hsplits.rows
  rw [hrows] at hfound
  cases hfound
  have hdvd := hpart twinRows htwinRows
  have hunit : fusion.unitBytes tensor.length =
      tensor.length / rows.toNat * (rows.toNat / fusion.declaredUnits) :=
    (unitBytes_eq hne (Nat.mul_pos hgroups hshares).ne' hunits hwhole).symm
  have hrunPos : 0 < fusion.runLength tensor index :=
    lt_of_lt_of_le (by decide) hfloor
  have hlength : twin.tensor.length =
      tensor.length / rows.toNat * twinRows.toNat := by
    rw [htwin.length, hcount, runLength, hunit]
    ring
  have hlengthPos : 0 < twin.tensor.length := by
    rw [htwin.length]
    exact Nat.mul_pos hgroups hrunPos
  have hrowsNe : twinRows.toNat ≠ 0 := by
    intro hzero
    rw [hlength, hzero, Nat.mul_zero] at hlengthPos
    exact absurd hlengthPos (lt_irrefl 0)
  have hrowsWhole : twinRows.toNat ∣ twin.tensor.length := by
    rw [hlength]
    exact Dvd.intro_left _ rfl
  have hdeclaredUnits : (⟨fusion.groups, [part]⟩ : Fusion).declaredUnits =
      fusion.groups.toNat * part.share.toNat := by
    simp [declaredUnits, shareSum]
  have hrun : (⟨fusion.groups, [part]⟩ : Fusion).unitBytes
      twin.tensor.length * part.share.toNat = fusion.runLength tensor index := by
    have hdivides : part.share.toNat ∣ fusion.runLength tensor index := by
      have htotal := hdvd.trans hrowsWhole
      rw [htwin.length] at htotal
      exact Nat.dvd_of_mul_dvd_mul_left hgroups htotal
    rw [unitBytes, hdeclaredUnits, htwin.length,
      Nat.mul_div_mul_left _ _ hgroups, Nat.div_mul_cancel hdivides]
  refine ⟨⟨⟨twinRows, htwinRows, hrowsNe, ?_, hrowsWhole⟩, ?_⟩, hrun⟩
  · rw [hdeclaredUnits]
    exact hdvd
  · intro other hother
    rw [List.mem_singleton.mp hother, hrun]
    exact hfloor

theorem Fusion.IsTwin.adds
    (hsplits : fusion.Splits tensor.shape tensor.length)
    (hindex : index < fusion.parts.length)
    (htwin : fusion.IsTwin byte tensor index twin) :
    Adds twin.contract twin.byte twin.tensor
      ((List.range fusion.groups.toNat).flatMap fun group =>
        fusion.runGrid byte tensor group index) := by
  have hdeclared := htwin.declared
  unfold TwinDeclared at hdeclared
  split at hdeclared
  · rename_i hone
    have hplain := adds_plain twin.byte hdeclared
    have hgroups : fusion.groups.toNat = 1 := by rw [hone]; rfl
    have hlength : twin.tensor.length = fusion.runLength tensor index := by
      rw [htwin.length, hgroups, Nat.one_mul]
    have hgrid := htwin.grid (show 0 < fusion.groups.toNat by omega)
    rw [Nat.zero_mul, Nat.add_zero] at hgrid
    rw [hlength, hgrid] at hplain
    rw [hgroups]
    simpa using hplain
  · obtain ⟨found, part, hcontract, hfusion, hpart⟩ := hdeclared
    obtain ⟨htwinSplits, hrun⟩ := htwin.splits hsplits hindex hpart
    have hadds := adds_declared twin.byte hfusion htwinSplits
    rw [hcontract]
    have hobjects : runObjects twin.byte twin.tensor.offset
        ((⟨fusion.groups, [part]⟩ : Fusion).runLengths
          ((⟨fusion.groups, [part]⟩ : Fusion).unitBytes
            twin.tensor.length)) =
        (List.range fusion.groups.toNat).flatMap fun group =>
          fusion.runGrid byte tensor group index := by
      rw [runLengths, runObjects_groups]
      refine List.flatMap_congr fun group hgroup => ?_
      rw [← htwin.grid (List.mem_range.mp hgroup), ← hrun]
      simp [partLengths, runObjects]
    rw [← hobjects]
    exact hadds

theorem coe_flatMap_comm {α β γ : Type} (xs : List α) (ys : List β)
    (f : α → β → List γ) :
    ((xs.flatMap fun x => ys.flatMap (f x) : List γ) : Multiset γ) =
      (ys.flatMap fun y => xs.flatMap fun x => f x y : List γ) := by
  simp only [← Multiset.coe_bind]
  exact Multiset.bind_bind _ _

/-- The objects of the fused tensor, run by run, are those of its twins. -/
theorem seam_dedup {found : Contract} {twins : List Packaged}
    (sha256 : Bytes → Digest)
    (hfusion : found.fusionFor tensor.name = some fusion)
    (hsplits : fusion.Splits tensor.shape tensor.length)
    (hcount : twins.length = fusion.parts.length)
    (htwins : ∀ index twin, twins[index]? = some twin →
      fusion.IsTwin byte tensor index twin) :
    Adds (some found) byte tensor
      ((List.range fusion.groups.toNat).flatMap fun group =>
        (List.range fusion.parts.length).flatMap
          (fusion.runGrid byte tensor group)) ∧
    (∀ index twin, twins[index]? = some twin →
      Adds twin.contract twin.byte twin.tensor
        ((List.range fusion.groups.toNat).flatMap fun group =>
          fusion.runGrid byte tensor group index)) ∧
    (((List.range fusion.groups.toNat).flatMap fun group =>
        (List.range fusion.parts.length).flatMap
          (fusion.runGrid byte tensor group)).map sha256 : Multiset Digest) =
      ((List.range fusion.parts.length).flatMap fun index =>
        ((List.range fusion.groups.toNat).flatMap fun group =>
          fusion.runGrid byte tensor group index).map sha256) := by
  refine ⟨?_, ?_, ?_⟩
  · rw [← Fusion.runObjects_runLengths]
    exact adds_declared byte hfusion hsplits
  · intro index twin htwin
    have hindex : index < fusion.parts.length := by
      rw [← hcount]
      exact (List.getElem?_eq_some_iff.mp htwin).1
    exact (htwins index twin htwin).adds hsplits hindex
  · simp only [List.map_flatMap]
    exact coe_flatMap_comm _ _ _

end Twins

/-! Four rows of one mebibyte, `a` and `b` in turn. -/

namespace PairedRows

def entry (name : Text) (fusion : Fusion) : TensorPattern where
  role := ⟨[.literal name], name⟩
  pattern := ⟨[.literal name], name⟩
  dtypes := []
  rank := none
  required := true
  fusion := some fusion
  permute := none

def contract (name : Text) (fusion : Fusion) : Contract where
  handle := some ⟨"rows.paired".toList, 1, by decide, Handle.version_one⟩
  description := []
  dtype := none
  tensors := [entry name fusion]
  sets := .empty

def fusion : Fusion := ⟨2, [⟨['a'], 1⟩, ⟨['b'], 1⟩]⟩

def fused : StoredTensor :=
  ⟨['w'], [4], 0, 4194304, by decide⟩

/-- Every row holds its own number. -/
def byte (position : Nat) : UInt8 := UInt8.ofNat (position / 1048576)

def twin (index : Nat) (name : Text) : Packaged where
  contract := some (contract name ⟨2, [⟨[], 1⟩]⟩)
  byte position :=
    byte (position / 1048576 * 2097152 + index * 1048576 +
      position % 1048576)
  tensor := ⟨name, [2], 0, 2097152, by decide⟩

theorem runLength_eq {index : Nat} (hindex : index < 2) :
    fusion.runLength fused index = 1048576 := by
  interval_cases index <;> decide

theorem runStart_eq {group index : Nat} (hindex : index < 2) :
    fusion.runStart fused group index =
      group * 2097152 + index * 1048576 := by
  have hunit : fusion.unitBytes fused.length = 1048576 := by decide
  have hshares : fusion.shareSum = 2 := by decide
  have hbefore : fusion.sharesBefore index = index := by
    interval_cases index <;> decide
  have hoffset : fused.offset = 0 := rfl
  rw [Fusion.runStart, hunit, hshares, hbefore, hoffset]
  omega

theorem splits : fusion.Splits fused.shape fused.length :=
  ⟨⟨4, rfl, by decide, by decide, by decide⟩, by decide⟩

theorem isTwin {index : Nat} {name : Text} (hindex : index < 2)
    (hname : (contract name ⟨2, [⟨[], 1⟩]⟩).fusionFor name =
      some ⟨2, [⟨[], 1⟩]⟩) :
    fusion.IsTwin byte fused index (twin index name) := by
  have hlength := runLength_eq hindex
  have hshare : fusion.shareAt index = 1 := by
    interval_cases index <;> decide
  refine ⟨⟨4, 2, rfl, rfl, ?_⟩, ?_, ?_, ?_⟩
  · rw [hshare]
    decide
  · rw [hlength]
    rfl
  · intro group hgroup step hstep
    rw [hlength] at hstep ⊢
    rw [runStart_eq hindex]
    have hbyte : ∀ position, (twin index name).byte position =
        byte (position / 1048576 * 2097152 + index * 1048576 +
          position % 1048576) := fun _ => rfl
    have hoffset : (twin index name).tensor.offset = 0 := rfl
    have hposition : (0 + group * 1048576 + step) / 1048576 * 2097152 +
        index * 1048576 + (0 + group * 1048576 + step) % 1048576 =
          group * 2097152 + index * 1048576 + step := by omega
    rw [hbyte, hoffset, hposition]
  · refine ⟨_, ⟨[], 1⟩, rfl, hname, ?_⟩
    rintro rows hrows
    cases hrows
    decide

end PairedRows

theorem seam_dedup_paired_rows :
    Adds (PairedRows.twin 0 ['a']).contract (PairedRows.twin 0 ['a']).byte
      (PairedRows.twin 0 ['a']).tensor
      ((List.range 2).flatMap fun group =>
        PairedRows.fusion.runGrid PairedRows.byte PairedRows.fused group
          0) := by
  have hdedup := @seam_dedup PairedRows.fusion PairedRows.byte
    PairedRows.fused (PairedRows.contract ['w'] PairedRows.fusion)
    [PairedRows.twin 0 ['a'], PairedRows.twin 1 ['b']]
    (fun _ => emptyBlobDigest) (by decide) PairedRows.splits rfl (by
      intro index twin htwin
      match index, htwin with
      | 0, htwin =>
          cases htwin
          exact PairedRows.isTwin (by decide) (by decide)
      | 1, htwin =>
          cases htwin
          exact PairedRows.isTwin (by decide) (by decide)
      | _ + 2, htwin => simp at htwin)
  exact hdedup.2.1 0 _ rfl

end TensorFS
