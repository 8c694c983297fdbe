import TensorFS.Planner.Totality

namespace TensorFS

open Data

/-! What the declared runs of a tensor add up to. -/

/-- The cuts rise strictly inside the tensor and are the running totals of the
runs, as unbounded sums. -/
structure Rising (runs : List FusionRun) (byteLength : Nat)
    (offsets : List Nat) : Prop where
  sorted : offsets.Pairwise (· < ·)
  inside : ∀ offset ∈ offsets, 0 < offset ∧ offset < byteLength
  total : ∀ index offset, offsets[index]? = some offset →
    offset = ((runs.take (index + 1)).map FusionRun.length).sum

section

variable {byteLength cursor : Nat} {cuts : List Nat} {runs : List FusionRun}

theorem SeamsOk.inside (h : SeamsOk byteLength cursor cuts) :
    ∀ cut ∈ cuts, cursor < cut ∧ cut < byteLength := by
  induction cuts generalizing cursor with
  | nil => simp
  | cons head cuts ih =>
      obtain ⟨hbehind, hbefore, hrest⟩ := h
      refine List.forall_mem_cons.mpr ⟨⟨hbehind, hbefore⟩, fun cut hcut => ?_⟩
      obtain ⟨hlow, hhigh⟩ := ih hrest cut hcut
      exact ⟨hbehind.trans hlow, hhigh⟩

theorem SeamsOk.sorted (h : SeamsOk byteLength cursor cuts) :
    cuts.Pairwise (· < ·) := by
  induction cuts generalizing cursor with
  | nil => exact List.Pairwise.nil
  | cons head cuts ih =>
      exact List.Pairwise.cons (fun cut hcut => (h.2.2.inside cut hcut).1)
        (ih h.2.2)

/-- No running total wraps while the runs end within 64 bits. -/
theorem Contract.seamCuts_total
    (hfits : cursor + (runs.map FusionRun.length).sum < 2 ^ 64)
    {index offset : Nat}
    (h : (Contract.seamCuts cursor runs)[index]? = some offset) :
    offset = cursor +
      ((runs.take (index + 1)).map FusionRun.length).sum := by
  induction runs generalizing cursor index with
  | nil => cases h
  | cons run rest ih =>
      cases rest with
      | nil => cases h
      | cons next rest =>
          simp only [List.map_cons, List.sum_cons] at hfits ih
          have hmod : (cursor + run.length) % 2 ^ 64 = cursor + run.length :=
            Nat.mod_eq_of_lt (by omega)
          rw [Contract.seamCuts, hmod] at h
          · cases index with
            | zero =>
                cases h
                simp
            | succ index =>
                rw [List.getElem?_cons_succ] at h
                have hrest := ih (by omega) h
                simp only [List.take_succ_cons, List.map_cons,
                  List.sum_cons] at hrest ⊢
                omega
          · simp

theorem Contract.seamCuts_rising (hlength : byteLength < 2 ^ 64)
    (hpositive : ∀ run ∈ runs, 0 < run.length)
    (hsum : (runs.map FusionRun.length).sum = byteLength) :
    Rising runs byteLength (Contract.seamCuts 0 runs) := by
  have hsum' : 0 + (runs.map FusionRun.length).sum = byteLength := by
    rw [Nat.zero_add, hsum]
  have hseams := seamsOk_of_sum hlength hpositive hsum'
  refine ⟨hseams.sorted, hseams.inside, fun index offset hoffset => ?_⟩
  rw [Contract.seamCuts_total (hsum' ▸ hlength) hoffset, Nat.zero_add]

end

namespace Fusion

/-- One run for each part of each group, in cycle order, of the part's share
of the bytes; nothing wraps and nothing is left over. -/
structure Tiled (fusion : Fusion) (byteLength : Nat)
    (runs : List FusionRun) : Prop where
  shares : fusion.shareSum < 2 ^ 64
  whole : fusion.groups.toNat * fusion.shareSum ∣ byteLength
  cycle : runs = fusion.cycle.map fun slot =>
    ⟨fusion.runRole slot.1 slot.2,
      byteLength / (fusion.groups.toNat * fusion.shareSum) *
        slot.2.share.toNat⟩
  count : runs.length = fusion.groups.toNat * fusion.parts.length
  ne_nil : runs ≠ []
  fits : ∀ run ∈ runs, run.length < 2 ^ 64
  total : (runs.map FusionRun.length).sum = byteLength

/-- The shares sum past 64 bits, and what is left of the sum still divides the
tensor into runs that fit, in a vector the allocator grants. -/
structure Wraps (fusion : Fusion) (shape : List UInt64)
    (byteLength limit : Nat) : Prop where
  shares : 2 ^ 64 ≤ fusion.shareSum
  rows : ∃ rows, shape.head? = some rows ∧ rows.toNat ≠ 0 ∧
    fusion.shareSum % 2 ^ 64 * fusion.groups.toNat ∣ rows.toNat ∧
    rows.toNat ∣ byteLength
  capacity : fusion.slots byteLength
    (fusion.shareSum % 2 ^ 64 * fusion.groups.toNat) ≤ limit
  fits : ∀ part ∈ fusion.parts,
    byteLength / (fusion.shareSum % 2 ^ 64 * fusion.groups.toNat) *
      part.share.toNat < 2 ^ 64

section

variable {ε : Type} {fusion : Fusion} {shape : List UInt64}
  {byteLength limit : Nat} {runs : List FusionRun}

theorem applies_iff {units : Nat} :
    fusion.Applies shape byteLength units ↔
      units = fusion.shareSum % 2 ^ 64 * fusion.groups.toNat ∧
        ∃ rows, shape.head? = some rows ∧ rows.toNat ≠ 0 ∧
          units ∣ rows.toNat ∧ rows.toNat ∣ byteLength := by
  constructor
  · intro h
    obtain ⟨hunits, _, hrows⟩ := h
    exact ⟨(checkedMul_eq_some.mp hunits).1, hrows⟩
  · intro h
    obtain ⟨hunits, rows, hhead, hne, hdivides, hwhole⟩ := h
    have hle := Nat.le_of_dvd (Nat.pos_of_ne_zero hne) hdivides
    refine ⟨checkedMul_eq_some.mpr ⟨hunits, ?_⟩, ?_,
      rows, hhead, hne, hdivides, hwhole⟩
    · exact hunits ▸ lt_of_le_of_lt hle rows.toNat_lt
    · intro hzero
      rw [hzero, Nat.zero_dvd] at hdivides
      exact hne hdivides

theorem runs_eq_some (hlength : byteLength < 2 ^ 64)
    (hgroups : fusion.groups ≠ 0) :
    fusion.runs (ε := ε) shape byteLength limit = .ok (some runs) ↔
      ∃ units, fusion.Applies shape byteLength units ∧
        fusion.slots byteLength units ≤ limit ∧
        (∀ part ∈ fusion.parts,
          byteLength / units * part.share.toNat < 2 ^ 64) ∧
        runs = Contract.cycleRuns fusion (byteLength / units) := by
  constructor
  · intro h
    by_cases happlies : ∃ units, fusion.Applies shape byteLength units
    · obtain ⟨units, happlies⟩ := happlies
      rw [runs_of_applies hlength happlies] at h
      split at h
      · cases h
      · rename_i hcapacity
        rw [Except.ok.injEq] at h
        obtain ⟨hfits, hruns⟩ := mapM_partRun_eq_some.mp h
        exact ⟨units, happlies, not_lt.mp hcapacity,
          fun part hpart => hfits (0, part)
            (mem_cycle.mpr ⟨groups_pos hgroups, hpart⟩), hruns⟩
    · rw [runs_of_not_applies (not_exists.mp happlies)] at h
      cases h
  · intro h
    obtain ⟨units, happlies, hcapacity, hfits, hruns⟩ := h
    rw [runs_of_applies hlength happlies, if_neg (not_lt.mpr hcapacity),
      Except.ok.injEq]
    exact mapM_partRun_eq_some.mpr
      ⟨fun slot hslot => hfits slot.2 (mem_cycle.mp hslot).2, hruns⟩

/-- Shares that do not wrap tile the tensor. -/
theorem tiled_of_shares (hlength : byteLength < 2 ^ 64)
    (hparts : fusion.parts ≠ []) (hgroups : fusion.groups ≠ 0)
    (hshares : fusion.shareSum < 2 ^ 64)
    (h : fusion.runs (ε := ε) shape byteLength limit = .ok (some runs)) :
    fusion.Tiled byteLength runs := by
  obtain ⟨units, happlies, -, hfits, hruns⟩ :=
    (runs_eq_some hlength hgroups).mp h
  have hunits := (applies_iff.mp happlies).1
  rw [Nat.mod_eq_of_lt hshares, Nat.mul_comm] at hunits
  have htotal := Contract.byteLength_eq happlies
  rw [Nat.mod_eq_of_lt hshares] at htotal
  refine ⟨hshares, hunits ▸ happlies.dvd, hunits ▸ hruns, ?_, ?_, ?_, ?_⟩
  · rw [hruns, Contract.cycleRuns, List.length_map, length_cycle]
  · rw [hruns, Contract.cycleRuns, Ne, List.map_eq_nil_iff]
    exact cycle_ne_nil hparts hgroups
  · intro run hrun
    rw [hruns] at hrun
    obtain ⟨part, hpart, hlen⟩ := Contract.mem_cycleRuns hrun
    exact hlen ▸ hfits part hpart
  · rw [hruns, Contract.sum_cycleRuns, ← htotal]

end

end Fusion

namespace Contract

variable {ε : Type} {contract : Contract} {fusion : Fusion} {name : Text}
  {shape : List UInt64} {byteLength limit : Nat} {runs : List FusionRun}

/-- The cuts a contract names in a tensor its fusion tiles. -/
theorem seamOffsets_rising (hlength : byteLength < 2 ^ 64)
    (hfusion : contract.fusionFor name = some fusion)
    (hruns : fusion.runs (ε := ε) shape byteLength limit = .ok (some runs))
    (htiled : fusion.Tiled byteLength runs) :
    ∃ offsets, contract.seamOffsets (ε := ε) name shape byteLength limit =
        .ok offsets ∧ Rising runs byteLength offsets := by
  by_cases hfloor : runs.all (fun run => minSeamPartBytes ≤ run.length) = true
  · have hof : contract.runsOf (ε := ε) name shape byteLength limit =
        .ok (some runs) := by
      rw [runsOf, hfusion]
      simp only
      rw [hruns, except_ok_bind, Option.filter_some, if_pos hfloor]
    refine ⟨seamCuts 0 runs, ?_, ?_⟩
    · rw [seamOffsets, hof, except_ok_bind]
      cases hlist : runs with
      | nil => exact absurd hlist htiled.ne_nil
      | cons run rest => rfl
    · refine seamCuts_rising hlength (fun run hrun => ?_) htiled.total
      have hlarge := of_decide_eq_true (List.all_eq_true.mp hfloor run hrun)
      exact lt_of_lt_of_le (by decide) hlarge
  · have hof : contract.runsOf (ε := ε) name shape byteLength limit =
        .ok none := by
      rw [runsOf, hfusion]
      simp only
      rw [hruns, except_ok_bind, Option.filter_some, if_neg hfloor]
    exact ⟨[], seamOffsets_of_none hof, List.Pairwise.nil, by simp, by simp⟩

/-- The runs of an accepted fusion tile its tensor, unless the shares wrap and
what is left of them divides it. -/
theorem declared_runs_tile_iff (ε : Type)
    {fromStr : Text → Except Text RawContract} {document : Text}
    (h : Contract.parse fromStr document = .ok contract)
    {entry : TensorPattern} (hentry : entry ∈ contract.tensors)
    (hfusion : entry.fusion = some fusion) (shape : List UInt64)
    (byteLength : UInt64) (limit : Nat) :
    (∀ runs,
      fusion.runs (ε := ε) shape byteLength.toNat limit = .ok (some runs) →
        fusion.Tiled byteLength.toNat runs ∧
        ∀ name, contract.entryFor name = some entry →
          ∃ offsets, contract.seamOffsets (ε := ε) name shape
              byteLength.toNat limit = .ok offsets ∧
            Rising runs byteLength.toNat offsets) ↔
      ¬ fusion.Wraps shape byteLength.toNat limit := by
  obtain ⟨hparts, hgroups⟩ := declared_ok_of_parse h hentry hfusion
  have hlength := byteLength.toNat_lt
  constructor
  · intro hall hwraps
    have happlies := Fusion.applies_iff.mpr ⟨rfl, hwraps.rows⟩
    obtain ⟨htiled, -⟩ := hall _ ((Fusion.runs_eq_some hlength hgroups).mpr
      ⟨_, happlies, hwraps.capacity, hwraps.fits, rfl⟩)
    exact absurd htiled.shares (not_lt.mpr hwraps.shares)
  · intro hclear runs hruns
    have hshares : fusion.shareSum < 2 ^ 64 := by
      by_contra hwrap
      obtain ⟨units, happlies, hcapacity, hfits, -⟩ :=
        (Fusion.runs_eq_some hlength hgroups).mp hruns
      obtain ⟨rfl, hrows⟩ := Fusion.applies_iff.mp happlies
      exact hclear ⟨not_lt.mp hwrap, hrows, hcapacity, hfits⟩
    have htiled := Fusion.tiled_of_shares hlength hparts hgroups hshares hruns
    refine ⟨htiled, fun name hname => ?_⟩
    have hfor : contract.fusionFor name = some fusion := by
      rw [fusionFor, hname, Option.bind_eq_bind, Option.bind_some, hfusion]
    exact seamOffsets_rising hlength hfor hruns htiled

/-- Shares of `2 ^ 63` and `2 ^ 63 + 2 ^ 21` are cut into runs beyond the
tensor. -/
theorem declared_runs_wrapped :
    Contract.parse
        (SplitFile.fromStr 9223372036854775808 9223372036856872960)
        (SplitFile.documentText 9223372036854775808 9223372036856872960) =
      .ok (SplitFile.contract 9223372036854775808 9223372036856872960) ∧
    (SplitFile.contract 9223372036854775808 9223372036856872960).fusionFor
        "w".toList =
      some ⟨1, [⟨"a".toList, 9223372036854775808⟩,
        ⟨"b".toList, 9223372036856872960⟩]⟩ ∧
    Fusion.runs (ε := Unit) ⟨1, [⟨"a".toList, 9223372036854775808⟩,
        ⟨"b".toList, 9223372036856872960⟩]⟩ [2097152] 2097152 =
      .ok (some [⟨"#a".toList, 9223372036854775808⟩,
        ⟨"#b".toList, 9223372036856872960⟩]) ∧
    9223372036854775808 + 9223372036856872960 ≠ 2097152 ∧
    (SplitFile.contract 9223372036854775808 9223372036856872960).seamOffsets
        (ε := Unit) "w".toList [2097152] 2097152 =
      .ok [9223372036854775808] := by
  refine ⟨?_, by decide +kernel, by decide +kernel, by decide,
    by decide +kernel⟩
  rw [Contract.parse, SplitFile.fromStr, if_pos rfl]
  rfl

/-- Equal shares tile the same tensor. -/
theorem declared_runs_tile_iff_equal_shares :
    Fusion.runs (ε := Unit) ⟨1, [⟨"a".toList, 1⟩, ⟨"b".toList, 1⟩]⟩
        [2097152] 2097152 =
      .ok (some [⟨"#a".toList, 1048576⟩, ⟨"#b".toList, 1048576⟩]) ∧
    Fusion.Tiled ⟨1, [⟨"a".toList, 1⟩, ⟨"b".toList, 1⟩]⟩ 2097152
      [⟨"#a".toList, 1048576⟩, ⟨"#b".toList, 1048576⟩] := by
  have hparse : Contract.parse (SplitFile.fromStr 1 1)
      (SplitFile.documentText 1 1) = .ok (SplitFile.contract 1 1) := by
    rw [Contract.parse, SplitFile.fromStr, if_pos rfl]
    rfl
  have hclear : ¬ Fusion.Wraps ⟨1, [⟨"a".toList, 1⟩, ⟨"b".toList, 1⟩]⟩
      [2097152] 2097152 Fusion.maxRunCapacity := fun hwraps => absurd hwraps.shares (by decide)
  have hruns : Fusion.runs (ε := Unit) ⟨1, [⟨"a".toList, 1⟩, ⟨"b".toList, 1⟩]⟩
      [2097152] 2097152 =
        .ok (some [⟨"#a".toList, 1048576⟩, ⟨"#b".toList, 1048576⟩]) := by
    decide +kernel
  exact ⟨hruns, ((declared_runs_tile_iff Unit hparse List.mem_cons_self rfl
    [2097152] 2097152 Fusion.maxRunCapacity).mpr hclear _ hruns).1⟩

end Contract

end TensorFS
