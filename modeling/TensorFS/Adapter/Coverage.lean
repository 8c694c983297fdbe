import TensorFS.Adapter.Decide
import TensorFS.Planner.Seams

namespace TensorFS

open Data

/-! Which bytes of a file a viewable decision carries over. -/

/-- The run holds this byte of the tensor. -/
def SourceRun.Carries (run : SourceRun) (tensor : InventoryTensor)
    (byte : Nat) : Prop :=
  run.tensor = tensor.name ∧
    run.offset ≤ byte ∧ byte < run.offset + run.length

/-- Every byte of every inventory tensor lies in a source run of some derived
tensor. -/
def Adapter.DropsNothing (adapter : Adapter) (inventory : TensorInventory) :
    Prop :=
  ∀ tensor ∈ inventory.tensors, ∀ byte,
    tensor.offset ≤ byte → byte < tensor.offset + tensor.length →
      ∃ derived ∈ adapter.tensors, ∃ run ∈ derived.runs,
        run.Carries tensor byte

/-- Every tensor with bytes has an entry in the contract. -/
def Contract.Declares (contract : Contract) (inventory : TensorInventory) :
    Prop :=
  ∀ tensor ∈ inventory.tensors, 0 < tensor.length →
    (contract.entryFor tensor.name).isSome = true

/-- The declared runs reach the end of the tensor, wrapped or not. -/
theorem Contract.runsOf_reach {ε : Type} {contract : Contract} {name : Text}
    {shape : List UInt64} {byteLength : Nat} {runs : List FusionRun}
    (hlength : byteLength < 2 ^ 64)
    (h : contract.runsOf (ε := ε) name shape byteLength = .ok (some runs)) :
    byteLength ≤ (runs.map FusionRun.length).sum := by
  cases hfusion : contract.fusionFor name with
  | none => simp [runsOf, hfusion] at h
  | some fusion =>
      by_cases happlies : ∃ units, fusion.Applies shape byteLength units
      · obtain ⟨units, happlies⟩ := happlies
        have hruns : runs = cycleRuns fusion (byteLength / units) := by
          simp only [runsOf, hfusion,
            Fusion.runs_of_applies hlength happlies] at h
          split at h
          · cases h
          · simp only [except_ok_bind, Except.ok.injEq,
              Option.filter_eq_some_iff] at h
            exact (Fusion.mapM_partRun_eq_some.mp h.1).2
        calc byteLength
            = fusion.groups.toNat *
                (byteLength / units * (fusion.shareSum % 2 ^ 64)) :=
              byteLength_eq happlies
          _ ≤ fusion.groups.toNat *
                (byteLength / units * fusion.shareSum) :=
              Nat.mul_le_mul_left _
                (Nat.mul_le_mul_left _ (Nat.mod_le _ _))
          _ = (runs.map FusionRun.length).sum := by
              rw [hruns, sum_cycleRuns]
      · have hnone := @Fusion.runs_of_not_applies ε fusion shape byteLength
          Fusion.maxRunCapacity (not_exists.mp happlies)
        simp only [runsOf, hfusion, hnone, except_ok_bind, Except.ok.injEq,
          Option.filter_none] at h
        cases h

namespace Adapter

variable {contract source target : Contract} {inventory : TensorInventory}
  {tensor : InventoryTensor} {base : Text} {permute : Option Permute}
  {runs result available : OrdMap Text SourceRun}

/-- The runs so far stay, and every new one is the tensor's under its own
role. -/
structure Extends (runs result : OrdMap Text SourceRun) (owner : Text) :
    Prop where
  kept : ∀ pair ∈ runs.entries, pair ∈ result.entries
  added : ∀ pair ∈ result.entries,
    pair ∈ runs.entries ∨ (pair.2.role = pair.1 ∧ pair.2.tensor = owner)

theorem Extends.refl (owner : Text) : Extends runs runs owner :=
  ⟨fun _ hpair => hpair, fun _ hpair => .inl hpair⟩

theorem sourceRun_ok {role : Text} {offset length : Nat} {run : SourceRun}
    (h : sourceRun tensor role offset length = .ok run) :
    run.role = role ∧ run.tensor = tensor.name ∧ run.offset = offset ∧
      run.length = length := by
  unfold sourceRun at h
  split at h
  · cases h
  · cases h
    exact ⟨rfl, rfl, rfl, rfl⟩

theorem partRuns_spec {offset : Nat} {parts : List FusionRun}
    (h : partRuns tensor base permute runs offset parts = .ok result) :
    Extends runs result tensor.name ∧
      ∀ byte, offset ≤ byte → byte < 2 ^ 64 →
        byte < offset + (parts.map FusionRun.length).sum →
          ∃ pair ∈ result.entries, pair.2.Carries tensor byte := by
  induction parts generalizing runs offset with
  | nil =>
      cases h
      refine ⟨Extends.refl _, fun byte hfrom _ hto => ?_⟩
      simp only [List.map_nil, List.sum_nil] at hto
      omega
  | cons part parts ih =>
      simp only [partRuns, except_bind_eq_ok, ensure_eq_ok] at h
      obtain ⟨run, hrun, _, hfresh, htail⟩ := h
      obtain ⟨hrole, howner, hoffset, hlength⟩ := sourceRun_ok hrun
      obtain ⟨hextends, hcovers⟩ := ih htail
      have hnew := hextends.kept (base ++ part.role,
        { run with permute := permute }) (OrdMap.mem_insert.mpr (.inl rfl))
      refine ⟨⟨fun pair hpair => hextends.kept pair ?_, ?_⟩, ?_⟩
      · refine OrdMap.mem_insert.mpr (.inr ⟨hpair, fun heq => ?_⟩)
        exact OrdMap.get?_eq_none.mp hfresh pair.2 (heq ▸ hpair)
      · intro pair hpair
        rcases hextends.added pair hpair with hold | hadded
        · rcases OrdMap.mem_insert.mp hold with rfl | ⟨hold, _⟩
          · exact .inr ⟨hrole, howner⟩
          · exact .inl hold
        · exact .inr hadded
      · intro byte hfrom hfits hto
        rw [List.map_cons, List.sum_cons] at hto
        by_cases hhere : byte < offset + part.length
        · exact ⟨_, hnew, howner, hoffset.trans_le hfrom, by
            rw [hoffset, hlength]
            exact hhere⟩
        · have hmod : (offset + part.length) % 2 ^ 64 =
              offset + part.length := Nat.mod_eq_of_lt (by omega)
          rw [hmod] at hcovers
          exact hcovers byte (by omega) hfits (by omega)

theorem tensorRuns_spec (hfits : tensor.offset + tensor.length < 2 ^ 64)
    (h : tensorRuns contract runs tensor = .ok result) :
    (contract.entryFor tensor.name = none ∧ result = runs) ∨
      ((contract.entryFor tensor.name).isSome = true ∧
        Extends runs result tensor.name ∧
        ∀ byte, tensor.offset ≤ byte →
          byte < tensor.offset + tensor.length →
            ∃ pair ∈ result.entries, pair.2.Carries tensor byte) := by
  unfold tensorRuns at h
  split at h
  · rename_i hentry
    cases h
    exact .inl ⟨hentry, rfl⟩
  · rename_i entry hentry
    simp only [except_bind_eq_ok, refusing_eq_ok] at h
    obtain ⟨_, _, base, _, declared, hdeclared, hparts⟩ := h
    obtain ⟨hextends, hcovers⟩ := partRuns_spec hparts
    have hreach : tensor.length ≤ ((declared.getD
        [FusionRun.whole tensor.length]).map FusionRun.length).sum := by
      cases declared with
      | none => simp [FusionRun.whole]
      | some declared =>
          exact Contract.runsOf_reach (by omega) hdeclared
    refine .inr ⟨by rw [hentry]; rfl, hextends, fun byte hfrom hto => ?_⟩
    exact hcovers byte hfrom (by omega) (by omega)

/-- What the role map holds once some tensors are read. -/
structure Holds (contract : Contract) (tensors : List InventoryTensor)
    (runs : OrdMap Text SourceRun) : Prop where
  keyed : ∀ pair ∈ runs.entries, pair.2.role = pair.1
  declared : ∀ pair ∈ runs.entries,
    (contract.entryFor pair.2.tensor).isSome = true
  covers : ∀ tensor ∈ tensors,
    (contract.entryFor tensor.name).isSome = true → ∀ byte,
      tensor.offset ≤ byte → byte < tensor.offset + tensor.length →
        ∃ pair ∈ runs.entries, pair.2.Carries tensor byte

theorem Holds.step {tensors : List InventoryTensor}
    (hholds : Holds contract tensors runs)
    (hfits : tensor.offset + tensor.length < 2 ^ 64)
    (h : tensorRuns contract runs tensor = .ok result) :
    Holds contract (tensors ++ [tensor]) result := by
  rcases tensorRuns_spec hfits h with ⟨hnone, rfl⟩ | ⟨hsome, hextends, hnew⟩
  · refine ⟨hholds.keyed, hholds.declared, ?_⟩
    intro other hother hentry
    rcases List.mem_append.mp hother with hother | hother
    · exact hholds.covers other hother hentry
    · rw [List.mem_singleton.mp hother, hnone] at hentry
      cases hentry
  · refine ⟨fun pair hpair => ?_, fun pair hpair => ?_, ?_⟩
    · rcases hextends.added pair hpair with hold | hadded
      · exact hholds.keyed pair hold
      · exact hadded.1
    · rcases hextends.added pair hpair with hold | hadded
      · exact hholds.declared pair hold
      · rw [hadded.2]
        exact hsome
    · intro other hother hentry byte hfrom hto
      rcases List.mem_append.mp hother with hother | hother
      · obtain ⟨pair, hpair, hcarries⟩ :=
          hholds.covers other hother hentry byte hfrom hto
        exact ⟨pair, hextends.kept pair hpair, hcarries⟩
      · cases List.mem_singleton.mp hother
        exact hnew byte hfrom hto

theorem foldlM_holds {before tensors : List InventoryTensor}
    (hholds : Holds contract before runs)
    (hfits : ∀ tensor ∈ tensors, tensor.offset + tensor.length < 2 ^ 64)
    (h : tensors.foldlM (tensorRuns contract) runs = .ok result) :
    Holds contract (before ++ tensors) result := by
  induction tensors generalizing before runs with
  | nil =>
      cases h
      rwa [List.append_nil]
  | cons tensor tensors ih =>
      rw [List.foldlM_cons, except_bind_eq_ok] at h
      obtain ⟨next, hstep, htail⟩ := h
      have hnext := hholds.step (hfits tensor List.mem_cons_self) hstep
      have hrest := ih hnext (fun other hother =>
        hfits other (List.mem_cons_of_mem _ hother)) htail
      rwa [List.append_assoc] at hrest

theorem roleRuns_holds (h : roleRuns contract inventory = .ok runs) :
    Holds contract inventory.tensors runs := by
  have hempty : Holds contract [] OrdMap.empty :=
    ⟨by simp, by simp, by simp⟩
  exact foldlM_holds hempty inventory.inside h

/-! The derived tensors claim every run. -/

theorem gatherRuns_available {suffixes : List Text} {found : List SourceRun}
    (h : gatherRuns available base suffixes = .ok found) :
    ∀ run ∈ found, ∃ role, (role, run) ∈ available.entries := by
  induction suffixes generalizing found with
  | nil =>
      cases h
      simp
  | cons suffix suffixes ih =>
      unfold gatherRuns at h
      split at h
      · cases h
      · rename_i run hget
        rw [except_bind_eq_ok] at h
        obtain ⟨rest, hrest, hcons⟩ := h
        cases hcons
        intro other hother
        rcases List.mem_cons.mp hother with rfl | hother
        · exact ⟨_, OrdMap.get?_eq_some.mp hget⟩
        · exact ih hrest other hother

theorem derivedTensor_runs {name : Text} {found : List SourceRun}
    {derived : DerivedTensor}
    (h : derivedTensor name found permute = .ok derived) :
    derived.runs = found := by
  unfold derivedTensor at h
  split at h
  · cases h
  · simp only [except_bind_eq_ok] at h
    obtain ⟨_, _, _, _, h⟩ := h
    cases h
    rfl

theorem instanceTensor_available {entry : TensorPattern} {values : List Nat}
    {derived : DerivedTensor}
    (h : instanceTensor available entry values = .ok derived) :
    ∀ run ∈ derived.runs, ∃ role, (role, run) ∈ available.entries := by
  simp only [instanceTensor, except_bind_eq_ok] at h
  obtain ⟨_, _, _, _, found, hfound, hderived⟩ := h
  rw [derivedTensor_runs hderived]
  exact gatherRuns_available hfound

/-- What a viewable outcome guarantees. -/
structure Claims (available : OrdMap Text SourceRun) (adapter : Adapter) :
    Prop where
  taken : ∀ derived ∈ adapter.tensors, ∀ run ∈ derived.runs,
    ∃ role, (role, run) ∈ available.entries
  spoken : ∀ pair ∈ available.entries, pair.1 ∈ claimed adapter.tensors

theorem adaptTo_claims {decision : Decision} {adapter : Adapter}
    (h : adaptTo available target = .ok decision)
    (hview : decision.adapter = some adapter) : Claims available adapter := by
  simp only [adaptTo, except_bind_eq_ok, ensure_eq_ok] at h
  obtain ⟨found, hfound, _, _, h⟩ := h
  split at h
  · cases h
  · rename_i horphan
    have hadapter : adapter = ⟨found.flatten⟩ := by
      split at h <;> cases h <;> exact (Option.some.inj hview).symm
    subst hadapter
    refine ⟨fun derived hderived => ?_, fun pair hpair => ?_⟩
    · obtain ⟨group, hgroup, hderived⟩ := List.mem_flatten.mp hderived
      obtain ⟨entry, _, hentry⟩ := mem_of_mapM hfound hgroup
      simp only [entryTensors, except_bind_eq_ok] at hentry
      obtain ⟨_, _, hentry⟩ := hentry
      obtain ⟨values, _, hvalues⟩ := mem_of_mapM hentry hderived
      exact instanceTensor_available hvalues
    · rw [List.find?_eq_none] at horphan
      have hmem := horphan pair.1 (List.mem_map_of_mem hpair)
      simpa using hmem

theorem decide_viewable {decision : Decision} {adapter : Adapter}
    (h : Adapter.decide source inventory target = .ok decision)
    (hview : decision.adapter = some adapter) :
    ∃ available, roleRuns source inventory = .ok available ∧
      Claims available adapter := by
  simp only [Adapter.decide, except_bind_eq_ok] at h
  obtain ⟨available, hruns, h⟩ := h
  refine ⟨available, hruns, ?_⟩
  split at h
  · rename_i found hadapt
    cases h
    exact adaptTo_claims hadapt hview
  · cases h
    cases hview
  · cases h

/-- An available run sits in some derived tensor: its role is claimed, and a
role names one run. -/
theorem Claims.mem_derived {adapter : Adapter}
    (hclaims : Claims available adapter)
    (hkeyed : ∀ pair ∈ available.entries, pair.2.role = pair.1)
    {pair : Text × SourceRun} (hpair : pair ∈ available.entries) :
    ∃ derived ∈ adapter.tensors, pair.2 ∈ derived.runs := by
  have hspoken := hclaims.spoken pair hpair
  simp only [claimed, List.mem_flatMap, List.mem_map] at hspoken
  obtain ⟨derived, hderived, run, hrun, hrole⟩ := hspoken
  obtain ⟨role, htaken⟩ := hclaims.taken derived hderived run hrun
  have hsame : role = pair.1 := (hkeyed _ htaken).symm.trans hrole
  subst hsame
  have hget := OrdMap.get?_eq_some.mpr htaken
  rw [OrdMap.get?_eq_some.mpr (show (pair.1, pair.2) ∈ _ from hpair),
    Option.some.injEq] at hget
  exact ⟨derived, hderived, hget ▸ hrun⟩

/-- A viewable decision carries over every byte exactly when the source
contract declares every tensor that has one. -/
theorem dropsNothing_iff_declares {decision : Decision} {adapter : Adapter}
    (h : Adapter.decide source inventory target = .ok decision)
    (hview : decision.adapter = some adapter) :
    adapter.DropsNothing inventory ↔ source.Declares inventory := by
  obtain ⟨available, hruns, hclaims⟩ := decide_viewable h hview
  have hholds := roleRuns_holds hruns
  constructor
  · intro hnothing tensor htensor hpositive
    obtain ⟨derived, hderived, run, hrun, howner, _⟩ :=
      hnothing tensor htensor tensor.offset le_rfl (by omega)
    obtain ⟨role, htaken⟩ := hclaims.taken derived hderived run hrun
    have hdeclared := hholds.declared _ htaken
    rwa [howner] at hdeclared
  · intro hdeclares tensor htensor byte hfrom hto
    obtain ⟨pair, hpair, hcarries⟩ := hholds.covers tensor htensor
      (hdeclares tensor htensor (by omega)) byte hfrom hto
    obtain ⟨derived, hderived, hrun⟩ :=
      hclaims.mem_derived hholds.keyed hpair
    exact ⟨derived, hderived, pair.2, hrun, hcarries⟩

/-! A file with one tensor its contract does not mention. -/

def bareEntry (name : Text) : TensorPattern where
  role := ⟨[.literal name], name⟩
  pattern := ⟨[.literal name], name⟩
  dtypes := []
  rank := none
  required := true
  fusion := none
  permute := none

def bareContract : Contract where
  handle := none
  description := []
  dtype := none
  tensors := [bareEntry "w".toList]
  sets := .empty

def strayInventory : TensorInventory where
  format := .safetensorsV1
  tensors := [
    ⟨"w".toList, "U8".toList, [2], 128, 2⟩,
    ⟨"x".toList, "U8".toList, [2], 130, 2⟩]
  inside := by simp

def bareAdapter : Adapter where
  tensors := [{
    name := "w".toList
    dtype := "U8".toList
    shape := [2]
    runs := [⟨"w".toList, "w".toList, "U8".toList, none, 128, 2, 2, []⟩]
    transform := .identity }]

theorem decide_stray :
    Adapter.decide bareContract strayInventory bareContract =
      .ok (.runPreserving bareAdapter) := by
  decide

/-- The stray tensor's bytes are in no run at all. -/
theorem decide_drops_stray :
    Adapter.decide bareContract strayInventory bareContract =
        .ok (.runPreserving bareAdapter) ∧
      ∃ tensor ∈ strayInventory.tensors,
        tensor.offset < tensor.offset + tensor.length ∧
          ∀ derived ∈ bareAdapter.tensors, ∀ run ∈ derived.runs,
            ¬ (run.offset ≤ tensor.offset ∧
              tensor.offset < run.offset + run.length) :=
  ⟨decide_stray, by decide⟩

theorem dropsNothing_iff_declares_stray :
    Adapter.decide bareContract strayInventory bareContract =
        .ok (.runPreserving bareAdapter) ∧
      (bareAdapter.DropsNothing strayInventory ↔
        bareContract.Declares strayInventory) :=
  ⟨decide_stray, dropsNothing_iff_declares decide_stray rfl⟩

end Adapter

end TensorFS
