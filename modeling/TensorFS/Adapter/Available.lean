import TensorFS.Adapter.Shapes
import TensorFS.Data.Numeral

namespace TensorFS

open Data

/-! What the role map of a file holds: the runs of every tensor, each under the
role its declaration gives it. -/

namespace Contract

/-- The parts a tensor is cut into; the whole of it, when nothing declares or
allows a cut. -/
def partsOf (contract : Contract) (tensor : InventoryTensor) :
    List FusionRun :=
  match contract.runsOf (ε := AdapterError) tensor.name tensor.shape
      tensor.length with
  | .ok (some parts) => parts
  | _ => [FusionRun.whole tensor.length]

/-- The role a tensor has as a whole. -/
def baseRole (contract : Contract) (name : Text) : Option Text := do
  let entry ← contract.entryFor name
  let values ← entry.pattern.captures name
  entry.role.instantiate values

def permuteFor (contract : Contract) (name : Text) : Option Permute := do
  let entry ← contract.entryFor name
  entry.permute

end Contract

namespace Adapter

def runOf (tensor : InventoryTensor) (base : Text) (permute : Option Permute)
    (offset : Nat) (part : FusionRun) : SourceRun where
  role := base ++ part.role
  tensor := tensor.name
  dtype := tensor.dtype
  permute := permute
  offset := offset
  length := part.length
  rows := part.length / rowBytes tensor
  rowShape := tensor.shape.tail

/-- The parts one after another; the offset wraps at 64 bits. -/
def cutsFrom (tensor : InventoryTensor) (base : Text)
    (permute : Option Permute) : Nat → List FusionRun → List SourceRun
  | _, [] => []
  | offset, part :: parts => runOf tensor base permute offset part ::
      cutsFrom tensor base permute ((offset + part.length) % 2 ^ 64) parts

/-- The runs of a tensor that the contract describes. -/
def cutsOf (contract : Contract) (tensor : InventoryTensor) :
    List SourceRun :=
  ((contract.baseRole tensor.name).map fun base =>
    cutsFrom tensor base (contract.permuteFor tensor.name) tensor.offset
      (contract.partsOf tensor)).getD []

def rolesOf (contract : Contract) (tensor : InventoryTensor) : List Text :=
  (cutsOf contract tensor).map SourceRun.role

/-- A run of at least one whole row. -/
def WholeRows (tensor : InventoryTensor) (run : SourceRun) : Prop :=
  rowBytes tensor ≠ 0 ∧ rowBytes tensor ∣ run.length

variable {contract : Contract} {tensor : InventoryTensor} {base : Text}
  {permute : Option Permute} {runs result : OrdMap Text SourceRun}

theorem sourceRun_eq_ok {offset : Nat} {part : FusionRun} {run : SourceRun} :
    sourceRun tensor (base ++ part.role) offset part.length = .ok run ↔
      WholeRows tensor (runOf tensor base permute offset part) ∧
        { run with permute := permute } =
          runOf tensor base permute offset part ∧ run.permute = none := by
  unfold sourceRun WholeRows runOf
  constructor
  · intro h
    split at h
    · cases h
    · rename_i hwhole
      cases h
      rw [not_or, not_not] at hwhole
      exact ⟨hwhole, rfl, rfl⟩
  · intro h
    obtain ⟨hwhole, hrun, hnone⟩ := h
    rw [if_neg (by rw [not_or, not_not]; exact hwhole)]
    obtain ⟨_, _, _, _, _, _, _, _⟩ := run
    cases hnone
    cases hrun
    rfl

def insertRuns (runs : OrdMap Text SourceRun) (cuts : List SourceRun) :
    OrdMap Text SourceRun :=
  cuts.foldl (fun runs run => runs.insert run.role run) runs

/-- The cuts may join the runs: no role is taken, and none comes twice. -/
structure Fits (runs : OrdMap Text SourceRun) (cuts : List SourceRun) :
    Prop where
  fresh : ∀ run ∈ cuts, runs.get? run.role = none
  apart : (cuts.map SourceRun.role).Nodup

theorem fits_cons {run : SourceRun} {cuts : List SourceRun} :
    Fits runs (run :: cuts) ↔
      runs.get? run.role = none ∧ Fits (runs.insert run.role run) cuts := by
  have hget : ∀ other : SourceRun,
      (runs.insert run.role run).get? other.role = none ↔
        run.role ≠ other.role ∧ runs.get? other.role = none := by
    intro other
    rw [OrdMap.get?_insert]
    split
    · rename_i heq
      simp [heq]
    · rename_i hne
      simp [Ne.symm hne]
  constructor
  · intro h
    obtain ⟨hfresh, hapart⟩ := h
    obtain ⟨hrun, hcuts⟩ := List.forall_mem_cons.mp hfresh
    rw [List.map_cons, List.nodup_cons] at hapart
    refine ⟨hrun, fun other hmem => (hget other).mpr ⟨?_, hcuts other hmem⟩,
      hapart.2⟩
    intro heq
    exact hapart.1 (heq ▸ List.mem_map_of_mem hmem)
  · intro h
    obtain ⟨hrun, hfresh, hapart⟩ := h
    refine ⟨List.forall_mem_cons.mpr ⟨hrun, fun other hmem =>
      ((hget other).mp (hfresh other hmem)).2⟩, ?_⟩
    rw [List.map_cons, List.nodup_cons]
    refine ⟨fun hmem => ?_, hapart⟩
    obtain ⟨other, hother, heq⟩ := List.mem_map.mp hmem
    exact ((hget other).mp (hfresh other hother)).1 heq.symm

theorem fits_append {front back : List SourceRun} :
    Fits runs (front ++ back) ↔
      Fits runs front ∧ Fits (insertRuns runs front) back := by
  induction front generalizing runs with
  | nil =>
      constructor
      · intro h
        exact ⟨⟨nofun, List.nodup_nil⟩, h⟩
      · exact And.right
  | cons run front ih =>
      rw [List.cons_append, fits_cons, fits_cons, ih, and_assoc]
      rfl

theorem mem_insertRuns {cuts : List SourceRun} (h : Fits runs cuts)
    {pair : Text × SourceRun} :
    pair ∈ (insertRuns runs cuts).entries ↔
      pair ∈ runs.entries ∨ ∃ run ∈ cuts, pair = (run.role, run) := by
  induction cuts generalizing runs with
  | nil => simp [insertRuns]
  | cons run cuts ih =>
      obtain ⟨hrun, hcuts⟩ := fits_cons.mp h
      have hold : pair ∈ runs.entries → pair.1 ≠ run.role := by
        intro hmem heq
        exact OrdMap.get?_eq_none.mp hrun pair.2 (heq ▸ hmem)
      rw [insertRuns, List.foldl_cons, ← insertRuns, ih hcuts,
        OrdMap.mem_insert]
      simp only [List.exists_mem_cons_iff]
      constructor
      · intro hmem
        rcases hmem with (hnew | ⟨hkept, -⟩) | hlater
        · exact .inr (.inl hnew)
        · exact .inl hkept
        · exact .inr (.inr hlater)
      · intro hmem
        rcases hmem with hkept | hnew | hlater
        · exact .inl (.inr ⟨hkept, hold hkept⟩)
        · exact .inl (.inl hnew)
        · exact .inr hlater

theorem partRuns_eq_ok {offset : Nat} {parts : List FusionRun} :
    partRuns tensor base permute runs offset parts = .ok result ↔
      (∀ run ∈ cutsFrom tensor base permute offset parts,
        WholeRows tensor run) ∧
      Fits runs (cutsFrom tensor base permute offset parts) ∧
      result = insertRuns runs (cutsFrom tensor base permute offset parts) := by
  induction parts generalizing runs offset with
  | nil =>
      simp only [partRuns, cutsFrom, Except.ok.injEq]
      constructor
      · intro h
        exact ⟨List.forall_mem_nil _, ⟨List.forall_mem_nil _, List.nodup_nil⟩,
          h.symm⟩
      · intro h
        obtain ⟨_, _, h⟩ := h
        exact h.symm
  | cons part parts ih =>
      have hrun := @sourceRun_eq_ok tensor base permute offset part
      simp only [partRuns, except_bind_eq_ok, ensure_eq_ok, exists_unit, ih]
      rw [cutsFrom, fits_cons, List.forall_mem_cons]
      constructor
      · intro h
        obtain ⟨run, hsource, hfresh, hwhole, hfits, hresult⟩ := h
        obtain ⟨hrows, heq, -⟩ := hrun.mp hsource
        rw [heq] at hfits hresult
        exact ⟨⟨hrows, hwhole⟩, ⟨hfresh, hfits⟩, hresult⟩
      · intro h
        obtain ⟨⟨hrows, hwhole⟩, ⟨hfresh, hfits⟩, hresult⟩ := h
        refine ⟨{ runOf tensor base permute offset part with permute := none },
          hrun.mpr ⟨hrows, rfl, rfl⟩, hfresh, hwhole, hfits, hresult⟩

/-- What reading one tensor asks for, and what it adds. -/
theorem tensorRuns_eq_ok (hrole : (contract.baseRole tensor.name).isSome) :
    tensorRuns contract runs tensor = .ok result ↔
      (∃ declared, contract.runsOf (ε := AdapterError) tensor.name
        tensor.shape tensor.length = .ok declared) ∧
      (∀ run ∈ cutsOf contract tensor, WholeRows tensor run) ∧
      Fits runs (cutsOf contract tensor) ∧
      result = insertRuns runs (cutsOf contract tensor) := by
  obtain ⟨base, hbase⟩ := Option.isSome_iff_exists.mp hrole
  have hparts := hbase
  simp only [Contract.baseRole, Option.bind_eq_bind,
    Option.bind_eq_some_iff] at hparts
  obtain ⟨entry, hentry, values, hvalues, hname⟩ := hparts
  have hpermute : contract.permuteFor tensor.name = entry.permute := by
    simp [Contract.permuteFor, hentry]
  have hcuts : ∀ declared, contract.runsOf (ε := AdapterError) tensor.name
      tensor.shape tensor.length = .ok declared →
      cutsOf contract tensor = cutsFrom tensor base entry.permute
        tensor.offset (declared.getD [FusionRun.whole tensor.length]) := by
    intro declared hdeclared
    rw [cutsOf, hbase, Option.map_some, Option.getD_some, hpermute,
      Contract.partsOf, hdeclared]
    cases declared <;> rfl
  unfold tensorRuns
  simp only [hentry, hvalues, hname, orMismatch, except_bind_eq_ok,
    refusing_eq_ok, Except.ok.injEq, exists_eq_left', partRuns_eq_ok]
  constructor
  · intro h
    obtain ⟨declared, hdeclared, hall⟩ := h
    rw [hcuts declared hdeclared]
    exact ⟨⟨declared, hdeclared⟩, hall⟩
  · intro h
    obtain ⟨⟨declared, hdeclared⟩, hall⟩ := h
    rw [hcuts declared hdeclared] at hall
    exact ⟨declared, hdeclared, hall⟩

/-- What reading a file's tensors asks for, and what it leaves. -/
theorem foldlM_tensorRuns_eq_ok {tensors : List InventoryTensor}
    (hroles : ∀ tensor ∈ tensors, (contract.baseRole tensor.name).isSome) :
    tensors.foldlM (tensorRuns contract) runs = .ok result ↔
      (∀ tensor ∈ tensors, (∃ declared, contract.runsOf (ε := AdapterError)
        tensor.name tensor.shape tensor.length = .ok declared) ∧
        ∀ run ∈ cutsOf contract tensor, WholeRows tensor run) ∧
      Fits runs (tensors.flatMap (cutsOf contract)) ∧
      result = insertRuns runs (tensors.flatMap (cutsOf contract)) := by
  induction tensors generalizing runs with
  | nil =>
      rw [List.foldlM_nil, except_pure_eq_ok]
      constructor
      · intro h
        exact ⟨List.forall_mem_nil _, ⟨List.forall_mem_nil _, List.nodup_nil⟩,
          h.symm⟩
      · intro h
        obtain ⟨_, _, h⟩ := h
        exact h.symm
  | cons tensor tensors ih =>
      obtain ⟨htensor, htensors⟩ := List.forall_mem_cons.mp hroles
      simp only [List.foldlM_cons, except_bind_eq_ok, ih htensors,
        tensorRuns_eq_ok htensor, List.forall_mem_cons, List.flatMap_cons,
        fits_append]
      have hinsert : ∀ cuts, insertRuns runs (cutsOf contract tensor ++ cuts) =
          insertRuns (insertRuns runs (cutsOf contract tensor)) cuts :=
        fun _ => List.foldl_append
      constructor
      · intro h
        obtain ⟨next, ⟨hdeclared, hwhole, hfits, hnext⟩, hrest, hback,
          hresult⟩ := h
        subst hnext
        exact ⟨⟨⟨hdeclared, hwhole⟩, hrest⟩, ⟨hfits, hback⟩,
          hresult.trans (hinsert _).symm⟩
      · intro h
        obtain ⟨⟨⟨hdeclared, hwhole⟩, hrest⟩, ⟨hfits, hback⟩, hresult⟩ := h
        exact ⟨_, ⟨hdeclared, hwhole, hfits, rfl⟩, hrest, hback,
          hresult.trans (hinsert _)⟩

end Adapter

end TensorFS
