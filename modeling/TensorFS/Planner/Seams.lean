import TensorFS.Planner.Tiling

namespace TensorFS

open Data

/-! When a declared fusion applies to a tensor, and what it then cuts. -/

namespace Fusion

/-- The declaration divides the outer axis into `units` whole parts. -/
structure Applies (fusion : Fusion) (shape : List UInt64)
    (byteLength units : Nat) : Prop where
  units_eq : fusion.units = some units
  units_ne_zero : units ≠ 0
  rows : ∃ rows, shape.head? = some rows ∧ rows.toNat ≠ 0 ∧
    units ∣ rows.toNat ∧ rows.toNat ∣ byteLength

/-- The slots of the vector of runs. -/
def slots (fusion : Fusion) (byteLength units : Nat) : Nat :=
  grownCapacity units (fusion.pushed (byteLength / units))

/-- The vector of runs takes more slots than are allocated. -/
def Exhausts (fusion : Fusion) (shape : List UInt64) (byteLength : Nat)
    (limit : Nat := maxRunCapacity) : Prop :=
  ∃ units, fusion.Applies shape byteLength units ∧
    limit < fusion.slots byteLength units

/-- The shares sum to `2 ^ 64` or more, and the runs of the wrapped sum are
nevertheless cut. -/
def Overruns (fusion : Fusion) (shape : List UInt64) (byteLength : Nat)
    (limit : Nat := maxRunCapacity) : Prop :=
  2 ^ 64 ≤ fusion.shareSum ∧
    ∃ units, fusion.Applies shape byteLength units ∧
      fusion.slots byteLength units ≤ limit ∧
      ∀ part ∈ fusion.parts,
        minSeamPartBytes ≤ byteLength / units * part.share.toNat ∧
          byteLength / units * part.share.toNat < 2 ^ 64

theorem unitBytes_eq {byteLength units rows : Nat} (hrows : rows ≠ 0) (hunits : units ≠ 0)
    (hdivides : units ∣ rows) (hwhole : rows ∣ byteLength) :
    byteLength / rows * (rows / units) = byteLength / units := by
  obtain ⟨perRow, rfl⟩ := hwhole
  obtain ⟨perUnit, rfl⟩ := hdivides
  have hpos : 0 < units * perUnit := Nat.pos_of_ne_zero hrows
  rw [Nat.mul_div_cancel_left _ hpos,
    Nat.mul_div_cancel_left _ (Nat.pos_of_ne_zero hunits),
    Nat.mul_assoc, Nat.mul_div_cancel_left _ (Nat.pos_of_ne_zero hunits),
    Nat.mul_comm]

theorem Applies.dvd {fusion : Fusion} {shape : List UInt64}
    {byteLength units : Nat} (h : fusion.Applies shape byteLength units) :
    units ∣ byteLength := by
  obtain ⟨rows, _, _, hdivides, hwhole⟩ := h.rows
  exact hdivides.trans hwhole

theorem le_grownCapacity (capacity count : Nat) :
    capacity ≤ grownCapacity capacity count := by
  unfold grownCapacity
  split
  · exact le_rfl
  · exact le_max_of_le_right
      (Nat.le_mul_of_pos_right _ (Nat.two_pow_pos _))

theorem le_slots (fusion : Fusion) (byteLength units : Nat) :
    units ≤ fusion.slots byteLength units :=
  le_grownCapacity units _

theorem runs_of_applies {ε : Type} {fusion : Fusion} {shape : List UInt64}
    {byteLength units limit : Nat} (hlength : byteLength < 2 ^ 64)
    (h : fusion.Applies shape byteLength units) :
    fusion.runs (ε := ε) shape byteLength limit =
      if limit < fusion.slots byteLength units then .error .panicked
      else .ok (fusion.cycle.mapM fun slot =>
        fusion.partRun (byteLength / units) slot.1 slot.2) := by
  obtain ⟨rows, hhead, hrows, hdivides, hwhole⟩ := h.rows
  have hbytes := unitBytes_eq hrows h.units_ne_zero hdivides hwhole
  have hchecked : checkedMul (byteLength / rows.toNat) (rows.toNat / units) =
      some (byteLength / units) := by
    rw [checkedMul_eq_some, hbytes]
    exact ⟨rfl, lt_of_le_of_lt (Nat.div_le_self _ _) hlength⟩
  have happlies : ¬ (rows.toNat = 0 ∨ units = 0 ∨ ¬ units ∣ rows.toNat) := by
    rintro (hzero | hzero | hnot)
    · exact hrows hzero
    · exact h.units_ne_zero hzero
    · exact hnot hdivides
  unfold runs slots
  rw [hhead, h.units_eq]
  simp only [happlies, if_false, hwhole, not_true_eq_false, hchecked]

theorem runs_of_not_applies {ε : Type} {fusion : Fusion}
    {shape : List UInt64} {byteLength limit : Nat}
    (h : ∀ units, ¬ fusion.Applies shape byteLength units) :
    fusion.runs (ε := ε) shape byteLength limit = .ok none := by
  unfold runs
  split
  · rename_i rows units hhead hunits
    split
    · rfl
    · rename_i happlies
      split
      · rfl
      · rename_i hwhole
        push Not at happlies hwhole
        exact absurd ⟨hunits, happlies.2.1,
          rows, hhead, happlies.1, happlies.2.2, hwhole⟩ (h units)
  · rfl

/-! The runs of an applying fusion. -/

theorem mapM_partRun_eq_some {fusion : Fusion} {unitBytes : Nat}
    {slots : List (Nat × FusionPart)} {runs : List FusionRun} :
    (slots.mapM fun slot => fusion.partRun unitBytes slot.1 slot.2) =
        some runs ↔
      (∀ slot ∈ slots, unitBytes * slot.2.share.toNat < 2 ^ 64) ∧
        runs = slots.map fun slot =>
          ⟨fusion.runRole slot.1 slot.2, unitBytes * slot.2.share.toNat⟩ := by
  induction slots generalizing runs with
  | nil => simp [eq_comm]
  | cons slot slots ih =>
      simp only [List.mapM_cons, List.forall_mem_cons, List.map_cons, partRun,
        Option.bind_eq_bind, Option.bind_eq_some_iff, checkedMul_eq_some]
      constructor
      · rintro ⟨run, ⟨length, ⟨rfl, hlt⟩, hrun⟩, tail, htail, hruns⟩
        obtain ⟨hall, rfl⟩ := ih.mp htail
        cases hrun
        cases hruns
        exact ⟨⟨hlt, hall⟩, rfl⟩
      · rintro ⟨⟨hlt, hall⟩, rfl⟩
        exact ⟨_, ⟨_, ⟨rfl, hlt⟩, rfl⟩, _, ih.mpr ⟨hall, rfl⟩, rfl⟩

theorem mem_cycle {fusion : Fusion} {slot : Nat × FusionPart} :
    slot ∈ fusion.cycle ↔
      slot.1 < fusion.groups.toNat ∧ slot.2 ∈ fusion.parts := by
  obtain ⟨group, part⟩ := slot
  simp [cycle]

theorem length_cycle (fusion : Fusion) :
    fusion.cycle.length = fusion.groups.toNat * fusion.parts.length := by
  simp [cycle, List.length_flatMap]

/-- Shares of at least one leave no more parts than units. -/
theorem slots_of_shares {fusion : Fusion} (byteLength : Nat)
    (hshares : ∀ part ∈ fusion.parts, part.share ≠ 0) :
    fusion.slots byteLength (fusion.groups.toNat * fusion.shareSum) =
      fusion.groups.toNat * fusion.shareSum := by
  have hparts : fusion.parts.length ≤ fusion.shareSum := by
    rw [shareSum, ← List.length_map (fun part => part.share.toNat)]
    refine List.length_le_sum_of_one_le _ fun share hshare => ?_
    obtain ⟨part, hpart, rfl⟩ := List.mem_map.mp hshare
    rw [Nat.one_le_iff_ne_zero]
    exact fun hzero => hshares part hpart (UInt64.toNat_inj.mp hzero)
  have hpushed : fusion.pushed
      (byteLength / (fusion.groups.toNat * fusion.shareSum)) ≤
        fusion.groups.toNat * fusion.shareSum :=
    calc _ ≤ fusion.cycle.length := (List.takeWhile_sublist _).length_le
      _ = fusion.groups.toNat * fusion.parts.length := length_cycle fusion
      _ ≤ _ := Nat.mul_le_mul_left _ hparts
  exact if_pos hpushed

theorem groups_pos {fusion : Fusion} (hgroups : fusion.groups ≠ 0) :
    0 < fusion.groups.toNat := by
  rw [Nat.pos_iff_ne_zero]
  intro hzero
  exact hgroups (UInt64.toNat_inj.mp hzero)

theorem cycle_ne_nil {fusion : Fusion} (hparts : fusion.parts ≠ [])
    (hgroups : fusion.groups ≠ 0) : fusion.cycle ≠ [] := by
  obtain ⟨part, hpart⟩ := List.exists_mem_of_ne_nil _ hparts
  exact List.ne_nil_of_mem (mem_cycle.mpr ⟨groups_pos hgroups, hpart⟩ :
    (0, part) ∈ fusion.cycle)

theorem sum_cycle (fusion : Fusion) (unitBytes : Nat) :
    (fusion.cycle.map fun slot => unitBytes * slot.2.share.toNat).sum =
      fusion.groups.toNat * (unitBytes * fusion.shareSum) := by
  have hgroup : ∀ group : Nat, ((fusion.parts.map fun part =>
      (group, part)).map fun slot => unitBytes * slot.2.share.toNat).sum =
        unitBytes * fusion.shareSum := by
    intro group
    rw [List.map_map, shareSum, ← List.sum_map_mul_left]
    simp [Function.comp_def]
  unfold cycle
  induction fusion.groups.toNat with
  | zero => simp
  | succ groups ih =>
      rw [List.range_succ, List.flatMap_append, List.map_append,
        List.sum_append, ih, List.flatMap_singleton, hgroup, Nat.succ_mul]

end Fusion

/-! Running sums. -/

theorem seamsOk_of_sum {runs : List FusionRun} {cursor byteLength : Nat}
    (hlength : byteLength < 2 ^ 64)
    (hpositive : ∀ run ∈ runs, 0 < run.length)
    (hsum : cursor + (runs.map FusionRun.length).sum = byteLength) :
    SeamsOk byteLength cursor (Contract.seamCuts cursor runs) := by
  induction runs generalizing cursor with
  | nil => trivial
  | cons run rest ih =>
      cases rest with
      | nil => trivial
      | cons next rest =>
          have hrun := hpositive run List.mem_cons_self
          have hnext := hpositive next (by simp)
          simp only [List.map_cons, List.sum_cons] at hsum
          have hmod : (cursor + run.length) % 2 ^ 64 = cursor + run.length :=
            Nat.mod_eq_of_lt (by omega)
          rw [Contract.seamCuts, hmod]
          · refine ⟨by omega, by omega, ?_⟩
            refine ih (fun other hother =>
              hpositive other (List.mem_cons_of_mem _ hother)) ?_
            simp only [List.map_cons, List.sum_cons]
            omega
          · simp

/-- A run total beyond the tensor by `2 ^ 64` misplaces a seam: the first
partial sum past the end either shows as such or wraps below its
predecessor. -/
theorem not_seamsOk_of_overrun {runs : List FusionRun}
    {cursor byteLength : Nat} (hlength : byteLength < 2 ^ 64)
    (hcursor : cursor < byteLength)
    (hbounded : ∀ run ∈ runs, run.length < 2 ^ 64)
    (hsum : byteLength + 2 ^ 64 ≤ cursor + (runs.map FusionRun.length).sum) :
    ¬ SeamsOk byteLength cursor (Contract.seamCuts cursor runs) := by
  induction runs generalizing cursor with
  | nil =>
      simp only [List.map_nil, List.sum_nil] at hsum
      omega
  | cons run rest ih =>
      have hrun := hbounded run List.mem_cons_self
      simp only [List.map_cons, List.sum_cons] at hsum
      cases rest with
      | nil =>
          simp only [List.map_nil, List.sum_nil] at hsum
          omega
      | cons next rest =>
          rw [Contract.seamCuts]
          · rintro ⟨hlt, hinside, hrest⟩
            have hsmall : cursor + run.length < 2 ^ 64 := by
              by_contra hwraps
              have hmod : (cursor + run.length) % 2 ^ 64 =
                  cursor + run.length - 2 ^ 64 := by omega
              omega
            rw [Nat.mod_eq_of_lt hsmall] at hinside hrest
            exact ih hinside (fun other hother =>
              hbounded other (List.mem_cons_of_mem _ hother)) (by omega) hrest
          · simp

/-! What the planner is handed for one tensor. -/

namespace Contract

def Exhausts (contract : Option Contract) (name : Text)
    (shape : List UInt64) (byteLength : Nat)
    (limit : Nat := Fusion.maxRunCapacity) : Prop :=
  ∃ found fusion, contract = some found ∧
    found.fusionFor name = some fusion ∧
      fusion.Exhausts shape byteLength limit

def Overruns (contract : Option Contract) (name : Text)
    (shape : List UInt64) (byteLength : Nat)
    (limit : Nat := Fusion.maxRunCapacity) : Prop :=
  ∃ found fusion, contract = some found ∧
    found.fusionFor name = some fusion ∧
      fusion.Overruns shape byteLength limit

/-- Every declared fusion has parts and groups. -/
def FusionsOk (contract : Option Contract) : Prop :=
  ∀ found name fusion, contract = some found →
    found.fusionFor name = some fusion →
      fusion.parts ≠ [] ∧ fusion.groups ≠ 0

section Cases

variable {ε : Type} {contract : Option Contract} {name : Text}
  {shape : List UInt64} {byteLength limit : Nat}

theorem seams_of_exhausts (hlength : byteLength < 2 ^ 64)
    (h : Exhausts contract name shape byteLength limit) :
    seams (ε := ε) contract name shape byteLength limit =
      .error .panicked := by
  obtain ⟨found, fusion, rfl, hfusion, units, happlies, hcapacity⟩ := h
  simp only [seams, seamOffsets, runsOf, hfusion,
    Fusion.runs_of_applies hlength happlies, hcapacity, if_true]
  rfl

/-- Every run reaches the floor and none leaves 64 bits. -/
def RunsOk (fusion : Fusion) (unitBytes : Nat) : Prop :=
  ∀ part ∈ fusion.parts,
    minSeamPartBytes ≤ unitBytes * part.share.toNat ∧
      unitBytes * part.share.toNat < 2 ^ 64

def cycleRuns (fusion : Fusion) (unitBytes : Nat) : List FusionRun :=
  fusion.cycle.map fun slot =>
    ⟨fusion.runRole slot.1 slot.2, unitBytes * slot.2.share.toNat⟩

theorem mem_cycleRuns {fusion : Fusion} {unitBytes : Nat} {run : FusionRun}
    (h : run ∈ cycleRuns fusion unitBytes) :
    ∃ part ∈ fusion.parts, run.length = unitBytes * part.share.toNat := by
  obtain ⟨slot, hslot, rfl⟩ := List.mem_map.mp h
  exact ⟨slot.2, (Fusion.mem_cycle.mp hslot).2, rfl⟩

theorem sum_cycleRuns (fusion : Fusion) (unitBytes : Nat) :
    ((cycleRuns fusion unitBytes).map FusionRun.length).sum =
      fusion.groups.toNat * (unitBytes * fusion.shareSum) := by
  rw [cycleRuns, List.map_map]
  exact fusion.sum_cycle unitBytes

theorem runsOf_of_ok {found : Contract} {fusion : Fusion} {units : Nat}
    (hlength : byteLength < 2 ^ 64)
    (hfusion : found.fusionFor name = some fusion)
    (happlies : fusion.Applies shape byteLength units)
    (hcapacity : fusion.slots byteLength units ≤ limit)
    (hruns : RunsOk fusion (byteLength / units)) :
    found.runsOf (ε := ε) name shape byteLength limit =
      .ok (some (cycleRuns fusion (byteLength / units))) := by
  have hfound : (fusion.cycle.mapM fun slot =>
      fusion.partRun (byteLength / units) slot.1 slot.2) =
        some (cycleRuns fusion (byteLength / units)) :=
    Fusion.mapM_partRun_eq_some.mpr ⟨fun slot hslot =>
      (hruns slot.2 (Fusion.mem_cycle.mp hslot).2).2, rfl⟩
  have hfloor : (cycleRuns fusion (byteLength / units)).all
      (fun run => minSeamPartBytes ≤ run.length) = true := by
    rw [List.all_eq_true]
    intro run hrun
    obtain ⟨part, hpart, hlen⟩ := mem_cycleRuns hrun
    rw [hlen]
    exact decide_eq_true (hruns part hpart).1
  simp only [runsOf, hfusion, Fusion.runs_of_applies hlength happlies,
    if_neg (not_lt.mpr hcapacity), hfound, except_ok_bind,
    Option.filter_some, hfloor, if_true]

theorem runsOf_of_not_ok {found : Contract} {fusion : Fusion} {units : Nat}
    (hlength : byteLength < 2 ^ 64)
    (hfusion : found.fusionFor name = some fusion)
    (hgroups : fusion.groups ≠ 0)
    (happlies : fusion.Applies shape byteLength units)
    (hcapacity : fusion.slots byteLength units ≤ limit)
    (hruns : ¬ RunsOk fusion (byteLength / units)) :
    found.runsOf (ε := ε) name shape byteLength limit = .ok none := by
  have hpos : 0 < fusion.groups.toNat := Fusion.groups_pos hgroups
  simp only [runsOf, hfusion, Fusion.runs_of_applies hlength happlies,
    if_neg (not_lt.mpr hcapacity), except_ok_bind, Except.ok.injEq]
  cases hfound : fusion.cycle.mapM fun slot =>
      fusion.partRun (byteLength / units) slot.1 slot.2 with
  | none => rfl
  | some runs =>
      obtain ⟨hfits, rfl⟩ := Fusion.mapM_partRun_eq_some.mp hfound
      rw [Option.filter_some, if_neg]
      rw [List.all_eq_true]
      intro hfloor
      refine hruns fun part hpart => ?_
      have hslot : (0, part) ∈ fusion.cycle :=
        Fusion.mem_cycle.mpr ⟨hpos, hpart⟩
      exact ⟨of_decide_eq_true
        (hfloor _ (List.mem_map.mpr ⟨_, hslot, rfl⟩)), hfits _ hslot⟩

theorem seamOffsets_of_none {found : Contract}
    (h : found.runsOf (ε := ε) name shape byteLength limit = .ok none) :
    found.seamOffsets (ε := ε) name shape byteLength limit = .ok [] := by
  simp [seamOffsets, h]

theorem seamOffsets_of_ok {found : Contract} {fusion : Fusion} {units : Nat}
    (hlength : byteLength < 2 ^ 64)
    (hfusion : found.fusionFor name = some fusion)
    (hok : fusion.parts ≠ [] ∧ fusion.groups ≠ 0)
    (happlies : fusion.Applies shape byteLength units)
    (hcapacity : fusion.slots byteLength units ≤ limit)
    (hruns : RunsOk fusion (byteLength / units)) :
    found.seamOffsets (ε := ε) name shape byteLength limit =
      .ok (seamCuts 0 (cycleRuns fusion (byteLength / units))) := by
  have hne : cycleRuns fusion (byteLength / units) ≠ [] := by
    rw [cycleRuns, Ne, List.map_eq_nil_iff]
    exact Fusion.cycle_ne_nil hok.1 hok.2
  rw [seamOffsets, runsOf_of_ok hlength hfusion happlies hcapacity hruns,
    except_ok_bind]
  cases hlist : cycleRuns fusion (byteLength / units) with
  | nil => exact absurd hlist hne
  | cons run rest => rfl

theorem unitBytes_pos {fusion : Fusion} {units : Nat}
    (hparts : fusion.parts ≠ [])
    (hruns : RunsOk fusion (byteLength / units)) : 0 < byteLength / units := by
  obtain ⟨part, hpart⟩ := List.exists_mem_of_ne_nil _ hparts
  have hfloor := (hruns part hpart).1
  rw [Nat.pos_iff_ne_zero]
  intro hzero
  rw [hzero, Nat.zero_mul] at hfloor
  simp [minSeamPartBytes] at hfloor

theorem byteLength_eq {fusion : Fusion} {units : Nat}
    (happlies : fusion.Applies shape byteLength units) :
    byteLength = fusion.groups.toNat *
      (byteLength / units * (fusion.shareSum % 2 ^ 64)) := by
  have hunits := happlies.units_eq
  simp only [Fusion.units, checkedMul_eq_some] at hunits
  calc byteLength = byteLength / units * units :=
        (Nat.div_mul_cancel happlies.dvd).symm
    _ = byteLength / units *
        (fusion.shareSum % 2 ^ 64 * fusion.groups.toNat) := by
        rw [← hunits.1]
    _ = _ := by ring

/-- The seams as a list; a panic leaves none. -/
def cutPoints (contract : Option Contract) (name : Text)
    (shape : List UInt64) (byteLength : Nat)
    (limit : Nat := Fusion.maxRunCapacity) : List Nat :=
  match seams (ε := Unit) contract name shape byteLength limit with
  | .ok cuts => cuts
  | .error _ => []

theorem seams_eq_cutPoints {cuts : List Nat}
    (h : ∀ ε : Type, seams (ε := ε) contract name shape byteLength limit =
      .ok cuts) :
    seams (ε := ε) contract name shape byteLength limit =
      .ok (cutPoints contract name shape byteLength limit) ∧
      cutPoints contract name shape byteLength limit = cuts := by
  have hcuts : cutPoints contract name shape byteLength limit = cuts := by
    simp [cutPoints, h Unit]
  exact ⟨by rw [hcuts, h ε], hcuts⟩

/-- A fusion whose shares overflow hands the planner a misplaced seam. -/
theorem seams_of_overruns (hfusions : FusionsOk contract)
    (hlength : byteLength < 2 ^ 64)
    (h : Overruns contract name shape byteLength limit) :
    seams (ε := ε) contract name shape byteLength limit =
        .ok (cutPoints contract name shape byteLength limit) ∧
      ¬ SeamsOk byteLength 0
        (cutPoints contract name shape byteLength limit) := by
  obtain ⟨found, fusion, rfl, hfusion, hover, units, happlies, hcapacity,
    hruns⟩ := h
  have hok := hfusions found name fusion rfl hfusion
  have hall : ∀ ε : Type, seams (ε := ε) (some found) name shape byteLength
      limit = .ok (seamCuts 0 (cycleRuns fusion (byteLength / units))) :=
    fun _ =>
    seamOffsets_of_ok hlength hfusion hok happlies hcapacity hruns
  obtain ⟨hseams, hcuts⟩ := seams_eq_cutPoints (ε := ε) hall
  refine ⟨hseams, ?_⟩
  rw [hcuts]
  have hunit := unitBytes_pos hok.1 hruns
  have hgroups := Fusion.groups_pos hok.2
  have hbytes := byteLength_eq happlies
  refine not_seamsOk_of_overrun hlength ?_ ?_ ?_
  · exact lt_of_lt_of_le hunit (Nat.div_le_self _ _)
  · intro run hrun
    obtain ⟨part, hpart, hlen⟩ := mem_cycleRuns hrun
    rw [hlen]
    exact (hruns part hpart).2
  · rw [sum_cycleRuns, Nat.zero_add]
    have hsplit : fusion.shareSum % 2 ^ 64 + 2 ^ 64 ≤ fusion.shareSum := by
      omega
    have hone : 1 ≤ fusion.groups.toNat * (byteLength / units) :=
      Nat.mul_pos hgroups hunit
    calc byteLength + 2 ^ 64
        ≤ fusion.groups.toNat *
            (byteLength / units * (fusion.shareSum % 2 ^ 64)) +
          fusion.groups.toNat * (byteLength / units) * 2 ^ 64 := by
          rw [← hbytes]
          exact Nat.add_le_add_left (Nat.le_mul_of_pos_left _ hone) _
      _ = fusion.groups.toNat * (byteLength / units *
            (fusion.shareSum % 2 ^ 64 + 2 ^ 64)) := by ring
      _ ≤ fusion.groups.toNat * (byteLength / units * fusion.shareSum) :=
          Nat.mul_le_mul_left _ (Nat.mul_le_mul_left _ hsplit)

/-- In every other case the seams are in place. -/
theorem seams_of_not (hfusions : FusionsOk contract)
    (hlength : byteLength < 2 ^ 64)
    (hexhausts : ¬ Exhausts contract name shape byteLength limit)
    (hoverruns : ¬ Overruns contract name shape byteLength limit) :
    seams (ε := ε) contract name shape byteLength limit =
        .ok (cutPoints contract name shape byteLength limit) ∧
      SeamsOk byteLength 0
        (cutPoints contract name shape byteLength limit) := by
  suffices hcuts : ∃ cuts, (∀ ε : Type,
      seams (ε := ε) contract name shape byteLength limit = .ok cuts) ∧
        SeamsOk byteLength 0 cuts by
    obtain ⟨cuts, hseams, hok⟩ := hcuts
    obtain ⟨heq, hcuts⟩ := seams_eq_cutPoints (ε := ε) hseams
    exact ⟨heq, by rw [hcuts]; exact hok⟩
  cases contract with
  | none => exact ⟨[], fun _ => rfl, trivial⟩
  | some found =>
      cases hfusion : found.fusionFor name with
      | none =>
          exact ⟨[], fun _ => seamOffsets_of_none (by simp [runsOf, hfusion]),
            trivial⟩
      | some fusion =>
          have hok := hfusions found name fusion rfl hfusion
          by_cases happlies : ∃ units, fusion.Applies shape byteLength units
          · obtain ⟨units, happlies⟩ := happlies
            have hcapacity : fusion.slots byteLength units ≤ limit := by
              by_contra hlarge
              exact hexhausts ⟨found, fusion, rfl, hfusion, units, happlies,
                not_le.mp hlarge⟩
            by_cases hruns : RunsOk fusion (byteLength / units)
            · refine ⟨_, fun _ => seamOffsets_of_ok hlength hfusion hok
                happlies hcapacity hruns, ?_⟩
              have hsmall : fusion.shareSum < 2 ^ 64 := by
                by_contra hlarge
                exact hoverruns ⟨found, fusion, rfl, hfusion,
                  not_lt.mp hlarge, units, happlies, hcapacity, hruns⟩
              refine seamsOk_of_sum hlength ?_ ?_
              · intro run hrun
                obtain ⟨part, hpart, hlen⟩ := mem_cycleRuns hrun
                rw [hlen]
                exact lt_of_lt_of_le (by decide) (hruns part hpart).1
              · have hbytes := byteLength_eq happlies
                rw [Nat.mod_eq_of_lt hsmall] at hbytes
                rw [sum_cycleRuns, Nat.zero_add, ← hbytes]
            · exact ⟨[], fun _ => seamOffsets_of_none (runsOf_of_not_ok hlength
                hfusion hok.2 happlies hcapacity hruns), trivial⟩
          · refine ⟨[], fun ε => seamOffsets_of_none ?_, trivial⟩
            have hnone := @Fusion.runs_of_not_applies ε fusion shape
              byteLength limit
              (not_exists.mp happlies)
            simp only [runsOf, hfusion, hnone, except_ok_bind]
            rfl

/-- The grid objects one tensor takes, up to its first misplaced seam. -/
def pieces (contract : Option Contract) (name : Text) (shape : List UInt64)
    (byteLength : Nat) (limit : Nat := Fusion.maxRunCapacity) : Nat :=
  seamPieces byteLength 0 (cutPoints contract name shape byteLength limit)

end Cases

end Contract

/-! Accepted documents. -/

theorem RawFusion.validate_ok {raw : RawFusion} {malformed : ContractError}
    {fusion : Fusion} (h : raw.validate malformed = .ok fusion) :
    fusion.parts ≠ [] ∧ fusion.groups ≠ 0 := by
  simp only [RawFusion.validate, except_bind_eq_ok, exists_unit, ensure_eq_ok,
    Except.ok.injEq] at h
  obtain ⟨⟨_, hgroups, hparts, _⟩, _, _, rfl⟩ := h
  exact ⟨hparts, hgroups⟩

theorem RawTensor.validate_fusion {raw : RawTensor}
    {patterns roles : List Text} {tensor : TensorPattern}
    (h : raw.validate patterns roles = .ok tensor) {fusion : Fusion}
    (hfusion : tensor.fusion = some fusion) :
    fusion.parts ≠ [] ∧ fusion.groups ≠ 0 := by
  simp only [RawTensor.validate, except_bind_eq_ok, exists_unit,
    ensure_eq_ok, Except.ok.injEq] at h
  obtain ⟨_, _, _, _, _, _, _, declared, hdeclared, _, _, rfl⟩ := h
  simp only at hfusion
  subst hfusion
  unfold validateFusion at hdeclared
  split at hdeclared
  · cases hdeclared
  · simp only [except_bind_eq_ok, Except.ok.injEq] at hdeclared
    obtain ⟨found, hfound, heq⟩ := hdeclared
    cases heq
    exact RawFusion.validate_ok hfound

theorem Contract.declared_ok_of_parse
    {fromStr : Text → Except Text RawContract} {document : Text}
    {contract : Contract}
    (h : Contract.parse fromStr document = .ok contract)
    {entry : TensorPattern} (hentry : entry ∈ contract.tensors)
    {fusion : Fusion} (hfusion : entry.fusion = some fusion) :
    fusion.parts ≠ [] ∧ fusion.groups ≠ 0 := by
  unfold Contract.parse at h
  split at h
  · cases h
  · rename_i raw _
    simp only [RawContract.validate, except_bind_eq_ok, exists_unit,
      Except.ok.injEq] at h
    obtain ⟨_, handle, _, _, _, tensors, htensors, sets, _, rfl⟩ := h
    obtain ⟨raw, -, _, _, hraw⟩ := validateTensors_mem htensors entry hentry
    exact raw.validate_fusion hraw hfusion

/-- The fusions of an accepted contract have parts and groups. -/
theorem Contract.fusionsOk_of_parse
    {fromStr : Text → Except Text RawContract} {document : Text}
    {contract : Contract}
    (h : Contract.parse fromStr document = .ok contract) :
    Contract.FusionsOk (some contract) := by
  intro found name fusion heq hfusion
  cases heq
  simp only [Contract.fusionFor, Option.bind_eq_bind,
    Option.bind_eq_some_iff] at hfusion
  obtain ⟨entry, hentry, hfusion⟩ := hfusion
  exact Contract.declared_ok_of_parse h (List.mem_of_find?_eq_some hentry)
    hfusion

end TensorFS
