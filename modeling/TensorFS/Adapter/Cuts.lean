import TensorFS.Adapter.Distinct

namespace TensorFS

open Data

/-! The cuts of a tensor: whole rows, one behind another. -/

/-- The runs follow one another from the one byte to the other. -/
def Contiguous (stop : Nat) : Nat → List SourceRun → Prop
  | start, [] => start = stop
  | start, run :: runs =>
      run.offset = start ∧ Contiguous stop (start + run.length) runs

theorem Contiguous.total {start stop : Nat} {runs : List SourceRun}
    (h : Contiguous stop start runs) :
    start + (runs.map SourceRun.length).sum = stop := by
  induction runs generalizing start with
  | nil => exact h
  | cons run runs ih =>
      have htail := ih h.2
      rw [List.map_cons, List.sum_cons]
      omega

/-- Runs with bytes that follow one another begin one after another. -/
theorem Contiguous.rising {start stop : Nat} {runs : List SourceRun}
    (hpos : ∀ run ∈ runs, 0 < run.length) (h : Contiguous stop start runs) :
    (∀ run ∈ runs, start ≤ run.offset) ∧
      runs.Pairwise fun run other => run.offset < other.offset := by
  induction runs generalizing start with
  | nil => exact ⟨nofun, .nil⟩
  | cons run runs ih =>
      obtain ⟨hrun, hothers⟩ := List.forall_mem_cons.mp hpos
      obtain ⟨hoffset, htail⟩ := h
      obtain ⟨hbehind, hpairs⟩ := ih hothers htail
      refine ⟨List.forall_mem_cons.mpr ⟨hoffset.ge, fun other hmem => ?_⟩,
        List.pairwise_cons.mpr ⟨fun other hmem => ?_, hpairs⟩⟩
      · have hnext := hbehind other hmem
        omega
      · have hnext := hbehind other hmem
        omega

/-- The same runs in another order are in the same order. -/
theorem Contiguous.eq_of_perm {start stop begin' stop' : Nat}
    {runs others : List SourceRun} (hpos : ∀ run ∈ others, 0 < run.length)
    (h : Contiguous stop start runs)
    (hother : Contiguous stop' begin' others) (hperm : runs.Perm others) :
    runs = others := by
  have hruns := (h.rising fun run hmem =>
    hpos run (hperm.mem_iff.mp hmem)).2
  have hothers := (hother.rising hpos).2
  refine hperm.eq_of_pairwise (fun run other _ _ hlt hgt => ?_) hruns hothers
  omega

namespace Adapter

variable {contract : Contract} {tensor : InventoryTensor} {base : Text}
  {permute : Option Permute}

/-- The tensor is rows of whole bytes, and has one. -/
structure Rowed (tensor : InventoryTensor) : Prop where
  bytes : 0 < tensor.length
  rows : ∃ rows, tensor.shape.head? = some rows ∧
    rows.toNat ∣ tensor.length

/-- The contract cuts the tensor, or leaves it whole, into parts that add up
to it. -/
structure Divided (contract : Contract) (tensor : InventoryTensor) :
    Prop where
  settled : ∃ declared, contract.runsOf (ε := AdapterError) tensor.name
    tensor.shape tensor.length = .ok declared
  total : ((contract.partsOf tensor).map FusionRun.length).sum =
    tensor.length

theorem Rowed.rowBytes {rows : UInt64} (h : Rowed tensor)
    (hhead : tensor.shape.head? = some rows) :
    0 < rows.toNat ∧ rows.toNat ∣ tensor.length ∧
      rowBytes tensor = tensor.length / rows.toNat ∧
      0 < rowBytes tensor := by
  obtain ⟨other, hother, hdivides⟩ := h.rows
  cases hhead.symm.trans hother
  have hpos := Nat.pos_of_dvd_of_pos hdivides h.bytes
  have hrow : Adapter.rowBytes tensor = tensor.length / rows.toNat := by
    rw [Adapter.rowBytes, hhead, Option.map_some, Option.getD_some,
      Nat.max_eq_left hpos]
  refine ⟨hpos, hdivides, hrow, ?_⟩
  rw [hrow]
  exact Nat.div_pos (Nat.le_of_dvd h.bytes hdivides) hpos

/-- A declared cut is one of a declared fusion that applies. -/
theorem runsOf_parts {parts : List FusionRun}
    (hlength : tensor.length < 2 ^ 64)
    (h : contract.runsOf (ε := AdapterError) tensor.name tensor.shape
      tensor.length = .ok (some parts)) :
    (∀ part ∈ parts, 0 < part.length) ∧
      ∃ fusion units, Fusion.Applies fusion tensor.shape tensor.length units ∧
        parts = Contract.cycleRuns fusion (tensor.length / units) := by
  cases hfusion : contract.fusionFor tensor.name with
  | none => simp [Contract.runsOf, hfusion] at h
  | some fusion =>
      by_cases happlies : ∃ units,
          fusion.Applies tensor.shape tensor.length units
      · obtain ⟨units, happlies⟩ := happlies
        simp only [Contract.runsOf, hfusion,
          Fusion.runs_of_applies hlength happlies] at h
        split at h
        · cases h
        · simp only [except_ok_bind, Except.ok.injEq,
            Option.filter_eq_some_iff] at h
          refine ⟨fun part hmem => ?_, fusion, units, happlies,
            (Fusion.mapM_partRun_eq_some.mp h.1).2⟩
          have hfloor := of_decide_eq_true (List.all_eq_true.mp h.2 part hmem)
          exact lt_of_lt_of_le (by decide) hfloor
      · have hnone := @Fusion.runs_of_not_applies AdapterError fusion
          tensor.shape tensor.length Fusion.maxRunCapacity
          (not_exists.mp happlies)
        simp only [Contract.runsOf, hfusion, hnone, except_ok_bind,
          Except.ok.injEq, Option.filter_none] at h
        cases h

/-- Every part has bytes, and they are whole rows. -/
theorem partsOf_rows (hlength : tensor.length < 2 ^ 64)
    (hsettled : ∃ declared, contract.runsOf (ε := AdapterError) tensor.name
      tensor.shape tensor.length = .ok declared) :
    (0 < tensor.length → ∀ part ∈ contract.partsOf tensor, 0 < part.length) ∧
      (Rowed tensor → ∀ part ∈ contract.partsOf tensor,
        rowBytes tensor ∣ part.length) := by
  obtain ⟨declared, hdeclared⟩ := hsettled
  cases declared with
  | none =>
      have hparts : contract.partsOf tensor =
          [FusionRun.whole tensor.length] := by
        rw [Contract.partsOf, hdeclared]
      rw [hparts]
      simp only [List.mem_singleton, forall_eq, FusionRun.whole]
      refine ⟨id, fun hrowed => ?_⟩
      obtain ⟨rows, hhead, -⟩ := hrowed.rows
      obtain ⟨-, hdivides, hrow, -⟩ := hrowed.rowBytes hhead
      rw [hrow]
      exact Nat.div_dvd_of_dvd hdivides
  | some parts =>
      have hparts : contract.partsOf tensor = parts := by
        rw [Contract.partsOf, hdeclared]
      rw [hparts]
      obtain ⟨hpos, fusion, units, happlies, hcycle⟩ :=
        runsOf_parts hlength hdeclared
      refine ⟨fun _ => hpos, fun hrowed part hmem => ?_⟩
      obtain ⟨rows, hhead, hrows, hunits, hwhole⟩ := happlies.rows
      obtain ⟨-, -, hrow, -⟩ := hrowed.rowBytes hhead
      rw [hcycle] at hmem
      obtain ⟨found, -, hfound⟩ := Contract.mem_cycleRuns hmem
      rw [hrow, hfound, ← Fusion.unitBytes_eq hrows happlies.units_ne_zero
        hunits hwhole, Nat.mul_assoc]
      exact Nat.dvd_mul_right _ _

/-! The cuts of one tensor. -/

theorem mem_cutsFrom {offset : Nat} {parts : List FusionRun}
    {run : SourceRun}
    (h : run ∈ cutsFrom tensor base permute offset parts) :
    ∃ part ∈ parts, ∃ start, run = runOf tensor base permute start part := by
  induction parts generalizing offset with
  | nil => cases h
  | cons part parts ih =>
      rcases List.mem_cons.mp h with rfl | h
      · exact ⟨part, List.mem_cons_self, offset, rfl⟩
      · obtain ⟨found, hfound, hrun⟩ := ih h
        exact ⟨found, List.mem_cons_of_mem _ hfound, hrun⟩

theorem lengths_cutsFrom {offset : Nat} {parts : List FusionRun} :
    (cutsFrom tensor base permute offset parts).map SourceRun.length =
      parts.map FusionRun.length := by
  induction parts generalizing offset with
  | nil => rfl
  | cons part parts ih => exact congrArg (part.length :: ·) ih

theorem contiguous_cutsFrom {offset : Nat} {parts : List FusionRun}
    (h : offset + (parts.map FusionRun.length).sum < 2 ^ 64) :
    Contiguous (offset + (parts.map FusionRun.length).sum) offset
      (cutsFrom tensor base permute offset parts) := by
  induction parts generalizing offset with
  | nil => rfl
  | cons part parts ih =>
      rw [List.map_cons, List.sum_cons, ← Nat.add_assoc] at h ⊢
      refine ⟨rfl, ?_⟩
      rw [Nat.mod_eq_of_lt (by omega)]
      exact ih h

theorem cutsOf_eq (hbase : contract.baseRole tensor.name = some base) :
    cutsOf contract tensor = cutsFrom tensor base
      (contract.permuteFor tensor.name) tensor.offset
      (contract.partsOf tensor) := by
  rw [cutsOf, hbase]
  rfl

theorem mem_cutsOf {run : SourceRun} (h : run ∈ cutsOf contract tensor) :
    ∃ part ∈ contract.partsOf tensor, ∃ base start,
      run = runOf tensor base (contract.permuteFor tensor.name) start part := by
  cases hbase : contract.baseRole tensor.name with
  | none =>
      rw [cutsOf, hbase] at h
      cases h
  | some base =>
      rw [cutsOf_eq hbase] at h
      obtain ⟨part, hpart, start, hrun⟩ := mem_cutsFrom h
      exact ⟨part, hpart, base, start, hrun⟩

/-- What every cut of a tensor shares. -/
theorem cutsOf_same {run : SourceRun} (h : run ∈ cutsOf contract tensor) :
    run.tensor = tensor.name ∧ run.dtype = tensor.dtype ∧
      run.rowShape = tensor.shape.tail ∧
      run.permute = contract.permuteFor tensor.name ∧
      run.rows = run.length / rowBytes tensor := by
  obtain ⟨part, -, base, start, rfl⟩ := mem_cutsOf h
  exact ⟨rfl, rfl, rfl, rfl, rfl⟩

theorem lengths_cutsOf (hrole : (contract.baseRole tensor.name).isSome) :
    (cutsOf contract tensor).map SourceRun.length =
      (contract.partsOf tensor).map FusionRun.length := by
  obtain ⟨base, hbase⟩ := Option.isSome_iff_exists.mp hrole
  rw [cutsOf_eq hbase, lengths_cutsFrom]

/-- Cuts that add up to their tensor follow one another through it. -/
theorem contiguous_cutsOf (hrole : (contract.baseRole tensor.name).isSome)
    (hinside : tensor.offset + tensor.length < 2 ^ 64)
    (htotal : ((contract.partsOf tensor).map FusionRun.length).sum =
      tensor.length) :
    Contiguous (tensor.offset + tensor.length) tensor.offset
      (cutsOf contract tensor) := by
  obtain ⟨base, hbase⟩ := Option.isSome_iff_exists.mp hrole
  rw [cutsOf_eq hbase, ← htotal]
  exact contiguous_cutsFrom (htotal.symm ▸ hinside)

theorem sum_rows {runs : List SourceRun} (row : Nat)
    (hdivides : ∀ run ∈ runs, row ∣ run.length)
    (hrows : ∀ run ∈ runs, run.rows = run.length / row) :
    (runs.map SourceRun.rows).sum =
      (runs.map SourceRun.length).sum / row := by
  induction runs with
  | nil => simp
  | cons run runs ih =>
      obtain ⟨hhead, hothers⟩ := List.forall_mem_cons.mp hdivides
      obtain ⟨hrun, hrest⟩ := List.forall_mem_cons.mp hrows
      rw [List.map_cons, List.map_cons, List.sum_cons, List.sum_cons,
        ih hothers hrest, hrun, Nat.add_div_of_dvd_right hhead]

end Adapter

end TensorFS
