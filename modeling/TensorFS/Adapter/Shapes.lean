import TensorFS.Adapter.Coverage
import TensorFS.Adapter.Permute

namespace TensorFS

open Data

/-! Where the runs of a derived tensor come from. -/

/-- The run is whole rows of the tensor. -/
structure SourceRun.Cuts (run : SourceRun) (tensor : InventoryTensor) :
    Prop where
  dtype : run.dtype = tensor.dtype
  rowShape : run.rowShape = tensor.shape.tail
  row_pos : 0 < Adapter.rowBytes tensor
  divides : Adapter.rowBytes tensor ∣ run.length
  rows : run.rows = run.length / Adapter.rowBytes tensor

/-- An entry of the contract declares the permute. -/
def Contract.Permutes (contract : Contract) (permute : Permute) : Prop :=
  ∃ entry ∈ contract.tensors, entry.permute = some permute

/-- A run of the inventory, under the permute its entry declares. -/
structure SourceRun.From (run : SourceRun) (contract : Contract)
    (tensors : List InventoryTensor) : Prop where
  cuts : ∃ tensor ∈ tensors, run.Cuts tensor
  permute : ∀ permute, run.permute = some permute → contract.Permutes permute

namespace Adapter

variable {contract source target : Contract} {inventory : TensorInventory}
  {tensor : InventoryTensor} {base : Text} {permute : Option Permute}
  {runs result available : OrdMap Text SourceRun}

theorem sourceRun_cuts {role : Text} {offset length : Nat} {run : SourceRun}
    (h : sourceRun tensor role offset length = .ok run) : run.Cuts tensor := by
  unfold sourceRun at h
  split at h
  · cases h
  · rename_i hwhole
    cases h
    rw [not_or, not_not] at hwhole
    exact ⟨rfl, rfl, Nat.pos_of_ne_zero hwhole.1, hwhole.2, rfl⟩

theorem partRuns_cuts {offset : Nat} {parts : List FusionRun}
    (h : partRuns tensor base permute runs offset parts = .ok result) :
    ∀ pair ∈ result.entries, pair ∈ runs.entries ∨
      (pair.2.Cuts tensor ∧ pair.2.permute = permute) := by
  induction parts generalizing runs offset with
  | nil =>
      cases h
      exact fun pair hpair => .inl hpair
  | cons part parts ih =>
      simp only [partRuns, except_bind_eq_ok, ensure_eq_ok] at h
      obtain ⟨run, hrun, _, _, htail⟩ := h
      intro pair hpair
      rcases ih htail pair hpair with hold | hnew
      · rcases OrdMap.mem_insert.mp hold with rfl | ⟨hold, _⟩
        · obtain ⟨hdtype, hshape, hpos, hdivides, hrows⟩ := sourceRun_cuts hrun
          exact .inr ⟨⟨hdtype, hshape, hpos, hdivides, hrows⟩, rfl⟩
        · exact .inl hold
      · exact .inr hnew

theorem tensorRuns_from {tensors : List InventoryTensor}
    (hmem : tensor ∈ tensors)
    (hruns : ∀ pair ∈ runs.entries, pair.2.From contract tensors)
    (h : tensorRuns contract runs tensor = .ok result) :
    ∀ pair ∈ result.entries, pair.2.From contract tensors := by
  unfold tensorRuns at h
  split at h
  · cases h
    exact hruns
  · rename_i entry hentry
    simp only [except_bind_eq_ok, refusing_eq_ok] at h
    obtain ⟨_, _, _, _, _, _, hparts⟩ := h
    intro pair hpair
    rcases partRuns_cuts hparts pair hpair with hold | ⟨hcuts, hpermute⟩
    · exact hruns pair hold
    · refine ⟨⟨tensor, hmem, hcuts⟩, fun found hfound => ?_⟩
      exact ⟨entry, List.mem_of_find?_eq_some hentry, hpermute ▸ hfound⟩

theorem foldlM_from {rest tensors : List InventoryTensor}
    (hsub : ∀ tensor ∈ rest, tensor ∈ tensors)
    (hruns : ∀ pair ∈ runs.entries, pair.2.From contract tensors)
    (h : rest.foldlM (tensorRuns contract) runs = .ok result) :
    ∀ pair ∈ result.entries, pair.2.From contract tensors := by
  induction rest generalizing runs with
  | nil =>
      cases h
      exact hruns
  | cons tensor rest ih =>
      rw [List.foldlM_cons, except_bind_eq_ok] at h
      obtain ⟨next, hstep, htail⟩ := h
      obtain ⟨hhead, hrest⟩ := List.forall_mem_cons.mp hsub
      exact ih hrest (tensorRuns_from hhead hruns hstep) htail

theorem roleRuns_from (h : roleRuns contract inventory = .ok runs) :
    ∀ pair ∈ runs.entries, pair.2.From contract inventory.tensors :=
  foldlM_from (fun _ hmem => hmem) (by simp) h

/-! What the decision makes of them. -/

theorem checkRuns_same {name : Text} {first : SourceRun}
    {found : List SourceRun} (h : checkRuns name first found = .ok ()) :
    ∀ run ∈ found, run.dtype = first.dtype ∧ run.rowShape = first.rowShape := by
  induction found with
  | nil => simp
  | cons run found ih =>
      simp only [checkRuns, except_bind_eq_ok, ensure_eq_ok,
        exists_unit] at h
      obtain ⟨hdtype, hshape, -, h⟩ := h
      exact List.forall_mem_cons.mpr ⟨⟨hdtype, hshape⟩, ih h⟩

end Adapter

/-- The shape, the dtype and the transform of a derived tensor are those of
its runs. -/
structure DerivedTensor.Fits (tensor : DerivedTensor)
    (source target : Contract) (tensors : List InventoryTensor) : Prop where
  nonempty : tensor.runs ≠ []
  dtype : ∀ run ∈ tensor.runs, run.dtype = tensor.dtype
  shape : ∃ rowShape,
    tensor.shape =
      UInt64.ofNat (tensor.runs.map SourceRun.rows).sum :: rowShape ∧
    ∀ run ∈ tensor.runs, run.rowShape = rowShape
  cuts : ∀ run ∈ tensor.runs, ∃ stored ∈ tensors, run.Cuts stored
  forward : ∀ permute, tensor.transform = .forward permute →
    target.Permutes permute
  inverse : ∀ permute, tensor.transform = .inverse permute →
    source.Permutes permute

namespace Adapter

variable {source target : Contract} {inventory : TensorInventory}
  {available : OrdMap Text SourceRun}

theorem transformBetween_permutes {name : Text}
    {sourcePermute targetPermute : Option Permute} {transform : Transform}
    (h : transformBetween name sourcePermute targetPermute = .ok transform) :
    (∀ permute, transform = .forward permute →
      targetPermute = some permute) ∧
    (∀ permute, transform = .inverse permute →
      sourcePermute = some permute) := by
  unfold transformBetween at h
  split at h
  · cases h
    exact ⟨nofun, nofun⟩
  · cases h
    exact ⟨fun _ heq => congrArg some (Transform.forward.inj heq), nofun⟩
  · cases h
    exact ⟨nofun, fun _ heq => congrArg some (Transform.inverse.inj heq)⟩
  · split at h
    · cases h
      exact ⟨nofun, nofun⟩
    · cases h

theorem derivedTensor_fits {tensors : List InventoryTensor} {name : Text}
    {found : List SourceRun} {targetPermute : Option Permute}
    {derived : DerivedTensor}
    (hfound : ∀ run ∈ found, run.From source tensors)
    (htarget : ∀ permute, targetPermute = some permute →
      target.Permutes permute)
    (h : derivedTensor name found targetPermute = .ok derived) :
    derived.Fits source target tensors := by
  unfold derivedTensor at h
  split at h
  · cases h
  · rename_i first rest
    simp only [except_bind_eq_ok] at h
    obtain ⟨_, hcheck, transform, htransform, h⟩ := h
    cases h
    have hsame := checkRuns_same hcheck
    obtain ⟨hforward, hinverse⟩ := transformBetween_permutes htransform
    refine ⟨List.cons_ne_nil _ _, fun run hrun => (hsame run hrun).1,
      ⟨first.rowShape, rfl, fun run hrun => (hsame run hrun).2⟩,
      fun run hrun => (hfound run hrun).cuts,
      fun permute heq => htarget permute (hforward permute heq),
      fun permute heq => ?_⟩
    exact (hfound first List.mem_cons_self).permute permute
      (hinverse permute heq)

theorem adaptTo_fits {tensors : List InventoryTensor} {decision : Decision}
    {adapter : Adapter}
    (havailable : ∀ pair ∈ available.entries, pair.2.From source tensors)
    (h : adaptTo available target = .ok decision)
    (hview : decision.adapter = some adapter) :
    ∀ derived ∈ adapter.tensors, derived.Fits source target tensors := by
  simp only [adaptTo, except_bind_eq_ok, ensure_eq_ok] at h
  obtain ⟨found, hfound, _, _, h⟩ := h
  split at h
  · cases h
  · have hadapter : adapter = ⟨found.flatten⟩ := by
      split at h <;> cases h <;> exact (Option.some.inj hview).symm
    subst hadapter
    intro derived hderived
    obtain ⟨group, hgroup, hderived⟩ := List.mem_flatten.mp hderived
    obtain ⟨entry, hentry, htensors⟩ := mem_of_mapM hfound hgroup
    simp only [entryTensors, except_bind_eq_ok] at htensors
    obtain ⟨_, _, htensors⟩ := htensors
    obtain ⟨values, _, hvalues⟩ := mem_of_mapM htensors hderived
    simp only [instanceTensor, except_bind_eq_ok] at hvalues
    obtain ⟨_, _, _, _, gathered, hgathered, hderived⟩ := hvalues
    refine derivedTensor_fits (fun run hrun => ?_)
      (fun permute hpermute => ⟨entry, hentry, hpermute⟩) hderived
    obtain ⟨role, hmem⟩ := gatherRuns_available hgathered run hrun
    exact havailable (role, run) hmem

theorem decide_fits {decision : Decision} {adapter : Adapter}
    (h : Adapter.decide source inventory target = .ok decision)
    (hview : decision.adapter = some adapter) :
    ∀ derived ∈ adapter.tensors,
      derived.Fits source target inventory.tensors := by
  simp only [Adapter.decide, except_bind_eq_ok] at h
  obtain ⟨available, hruns, h⟩ := h
  split at h
  · rename_i found hadapt
    cases h
    exact adaptTo_fits (roleRuns_from hruns) hadapt hview
  · cases h
    cases hview
  · cases h

end Adapter

/-! Accepted documents. -/

/-- The axes are the positions of the view, each once. -/
structure Permute.Ok (permute : Permute) : Prop where
  order : Radix.IsOrder permute.axes
  length : permute.axes.length = permute.view.length

theorem length_of_mapM_option {α β : Type} {f : α → Option β} {xs : List α}
    {ys : List β} (h : xs.mapM f = some ys) : ys.length = xs.length := by
  induction xs generalizing ys with
  | nil =>
      cases h
      rfl
  | cons x xs ih =>
      simp only [List.mapM_cons, Option.bind_eq_bind,
        Option.bind_eq_some_iff] at h
      obtain ⟨y, -, rest, hrest, h⟩ := h
      cases h
      exact congrArg (· + 1) (ih hrest)

theorem RawPermute.validate_ok {raw : RawPermute} {fused : Bool}
    {malformed : ContractError} {permute : Permute}
    (h : raw.validate fused malformed = .ok permute) : permute.Ok := by
  simp only [RawPermute.validate, except_bind_eq_ok, exists_unit,
    ensure_eq_ok] at h
  obtain ⟨-, ⟨-, hlength⟩, ⟨hbound, hnodup⟩, -, h⟩ := h
  split at h
  · cases h
  · rename_i view hview
    cases h
    refine ⟨?_, hlength.trans (length_of_mapM_option hview).symm⟩
    refine (hnodup.subperm fun axis hmem => ?_).perm_of_length_le ?_
    · exact List.mem_range.mpr
        (of_decide_eq_true (List.all_eq_true.mp hbound axis hmem))
    · rw [List.length_range]

theorem RawTensor.validate_permute {raw : RawTensor}
    {patterns roles : List Text} {tensor : TensorPattern}
    (h : raw.validate patterns roles = .ok tensor) {permute : Permute}
    (hpermute : tensor.permute = some permute) : permute.Ok := by
  simp only [RawTensor.validate, except_bind_eq_ok, exists_unit,
    ensure_eq_ok, Except.ok.injEq] at h
  obtain ⟨_, _, _, _, _, _, _, _, _, declared, hdeclared, rfl⟩ := h
  simp only at hpermute
  subst hpermute
  unfold validatePermute at hdeclared
  split at hdeclared
  · cases hdeclared
  · simp only [except_bind_eq_ok, Except.ok.injEq] at hdeclared
    obtain ⟨found, hfound, heq⟩ := hdeclared
    cases heq
    exact RawPermute.validate_ok hfound

/-- The permutes of an accepted contract move each axis once. -/
theorem Contract.permuteOk_of_parse
    {fromStr : Text → Except Text RawContract} {document : Text}
    {contract : Contract}
    (h : Contract.parse fromStr document = .ok contract) {permute : Permute}
    (hpermute : contract.Permutes permute) : permute.Ok := by
  unfold Contract.parse at h
  split at h
  · cases h
  · simp only [RawContract.validate, except_bind_eq_ok, exists_unit,
      Except.ok.injEq] at h
    obtain ⟨_, _, _, _, _, tensors, htensors, _, _, rfl⟩ := h
    obtain ⟨entry, hentry, hdeclared⟩ := hpermute
    obtain ⟨raw, -, _, _, hraw⟩ := validateTensors_mem htensors entry hentry
    exact raw.validate_permute hraw hdeclared

end TensorFS
