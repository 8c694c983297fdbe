import TensorFS.Engine.QuantRule

namespace TensorFS.Go

open Data

/-! Every tensor of a computed layout has an entry of its own. -/

namespace QuantRule

variable (rule : QuantRule) (topology : Topology)

/-- The names the tensor of one key comes out under. -/
def blockOf (component : TopologyComponent) (entry : Text × List UInt64) :
    List Text :=
  if rule.isEligible topology component entry.1 entry.2 = true then
    rule.emissions.map fun emission =>
      emission.emitted (rule.moduleOf entry.1) entry.1
  else [entry.1]

def namesOf (component : TopologyComponent) : List Text :=
  component.tensors.entries.flatMap (rule.blockOf topology component)

def passed (component : TopologyComponent) : Nat :=
  component.tensors.entries.countP fun entry =>
    !rule.isEligible topology component entry.1 entry.2

def acted (component : TopologyComponent) : Nat :=
  component.tensors.entries.countP fun entry =>
    rule.isEligible topology component entry.1 entry.2

/-- The entry an emission of a key writes. -/
def Writes (tensors : OrdMap Text LayoutTensor) (entry : Text × List UInt64)
    (emission : Emission) : Prop :=
  ∃ values, evalShape entry.2 emission.formula = .ok values ∧
    tensors.get? (emission.emitted (rule.moduleOf entry.1) entry.1) =
      some ⟨[emission.dtype], values.map UInt64.ofNat, emission.optional⟩

/-- What the tensor of one key comes out as. -/
def WritesBlock (component : TopologyComponent)
    (tensors : OrdMap Text LayoutTensor) (entry : Text × List UInt64) :
    Prop :=
  (rule.isEligible topology component entry.1 entry.2 = true →
    ∀ emission ∈ rule.emissions, rule.Writes tensors entry emission) ∧
  (rule.isEligible topology component entry.1 entry.2 = false →
    tensors.get? entry.1 = some ⟨rule.passthroughDtypes topology component
      entry.1, entry.2, false⟩)

structure Owns (component : TopologyComponent) (computed : LayoutComponent) :
    Prop where
  name : computed.name = component.name
  names : (computed.tensors.entries.map Prod.fst).Perm
    (rule.namesOf topology component)
  count : computed.tensors.entries.length = rule.passed topology component +
    rule.acted topology component * rule.emissions.length
  blocks : ∀ entry ∈ component.tensors.entries,
    rule.WritesBlock topology component computed.tensors entry

/-- No emission of the first key has the name of the second, which is kept. -/
def Apart (component : TopologyComponent) (entry kept : Text × List UInt64) :
    Prop :=
  rule.isEligible topology component entry.1 entry.2 = true →
    rule.isEligible topology component kept.1 kept.2 = false →
    ∀ emission ∈ rule.emissions,
      emission.emitted (rule.moduleOf entry.1) entry.1 ≠ kept.1

/-- No emission has the name of an untransformed key that sorts behind the key
it is made from. -/
def NoLateKey : Prop :=
  ∀ component ∈ topology.components, ∀ entry ∈ component.tensors.entries,
    ∀ kept ∈ component.tensors.entries, entry.1 < kept.1 →
      rule.Apart topology component entry kept

variable {rule topology}

theorem emitAll_ok {tensors out : OrdMap Text LayoutTensor} {key : Text}
    {shape : List UInt64} {emissions : List Emission}
    (h : rule.emitAll topology key shape tensors emissions = .ok out) :
    (out.entries.map Prod.fst).Perm
      ((emissions.map fun emission =>
        emission.emitted (rule.moduleOf key) key) ++
        tensors.entries.map Prod.fst) ∧
    (∀ found tensor, tensors.get? found = some tensor →
      out.get? found = some tensor) ∧
    ∀ emission ∈ emissions, rule.Writes out (key, shape) emission := by
  induction emissions generalizing tensors with
  | nil =>
      cases h
      exact ⟨.refl _, fun _ _ hfound => hfound, fun _ hmem => by cases hmem⟩
  | cons emission emissions ih =>
      unfold emitAll at h
      cases hshape : evalShape shape emission.formula with
      | error fault =>
          rw [hshape] at h
          cases h
      | ok values =>
          simp only [hshape, except_bind_eq_ok, ensure_eq_ok] at h
          obtain ⟨_, hnone, h⟩ := h
          obtain ⟨hperm, hkeeps, hwrites⟩ := ih h
          refine ⟨?_, fun found tensor hfound => ?_, fun other hother => ?_⟩
          · calc (out.entries.map Prod.fst).Perm _ := hperm
              _ |>.Perm _ := (OrdMap.keys_insert_perm hnone).append_left _
              _ |>.Perm _ := List.perm_middle
          · refine hkeeps found tensor ?_
            rw [OrdMap.get?_insert, if_neg ?_]
            · exact hfound
            · rintro rfl
              rw [hnone] at hfound
              cases hfound
          · rcases List.mem_cons.mp hother with rfl | hother
            · refine ⟨values, hshape, hkeeps _ _ ?_⟩
              rw [OrdMap.get?_insert, if_pos rfl]
            · exact hwrites other hother

/-- With no late key, every write of a component is to a fresh name. -/
theorem applyKeys_ok {component : TopologyComponent}
    {tensors out : OrdMap Text LayoutTensor} {before after : Nat}
    {entries : List (Text × List UInt64)}
    (h : rule.applyKeys topology component tensors before entries =
      .ok (out, after))
    (hfree : ∀ kept ∈ entries,
      rule.isEligible topology component kept.1 kept.2 = false →
        tensors.get? kept.1 = none)
    (hkeys : entries.Pairwise fun left right => left.1 < right.1)
    (hlate : entries.Pairwise (rule.Apart topology component)) :
    (out.entries.map Prod.fst).Perm
      (entries.flatMap (rule.blockOf topology component) ++
        tensors.entries.map Prod.fst) ∧
    (∀ found tensor, tensors.get? found = some tensor →
      out.get? found = some tensor) ∧
    ∀ entry ∈ entries, rule.WritesBlock topology component out entry := by
  induction entries generalizing tensors before with
  | nil =>
      cases h
      exact ⟨.refl _, fun _ _ hfound => hfound, fun _ hmem => by cases hmem⟩
  | cons entry entries ih =>
      obtain ⟨key, shape⟩ := entry
      obtain ⟨hkey, hkeys⟩ := List.pairwise_cons.mp hkeys
      obtain ⟨hemit, hlate⟩ := List.pairwise_cons.mp hlate
      unfold applyKeys at h
      split_ifs at h with heligible
      · -- an eligible key: its emissions are fresh, and none is a kept name
        simp only [except_bind_eq_ok] at h
        obtain ⟨written, hwritten, h⟩ := h
        obtain ⟨hperm, hkeeps, hwrites⟩ := emitAll_ok hwritten
        obtain ⟨hperm', hkeeps', hwrites'⟩ := ih h (fun kept hkept hplain => by
          by_contra hfound
          rcases List.mem_append.mp (hperm.mem_iff.mp
            (OrdMap.mem_keys.mpr hfound)) with hname | hold
          · obtain ⟨emission, hemission, hname⟩ := List.mem_map.mp hname
            exact hemit kept hkept heligible hplain emission hemission hname
          · exact OrdMap.mem_keys.mp hold
              (hfree kept (List.mem_cons_of_mem _ hkept) hplain)) hkeys hlate
        refine ⟨?_, fun found tensor hfound =>
          hkeeps' found tensor (hkeeps found tensor hfound), ?_⟩
        · rw [List.flatMap_cons, blockOf, if_pos heligible]
          refine hperm'.trans ((hperm.append_left _).trans ?_)
          rw [← List.append_assoc]
          exact List.perm_append_comm.append_right _
        · intro other hother
          rcases List.mem_cons.mp hother with rfl | hother
          · refine ⟨fun _ emission hemission => ?_, fun hplain => ?_⟩
            · obtain ⟨values, hvalues, hfound⟩ := hwrites emission hemission
              exact ⟨values, hvalues, hkeeps' _ _ hfound⟩
            · rw [heligible] at hplain
              cases hplain
          · exact hwrites' other hother
      · -- an untransformed key: its own name is still free
        rw [Bool.not_eq_true] at heligible
        have hnone := hfree (key, shape) List.mem_cons_self heligible
        obtain ⟨hperm, hkeeps, hwrites⟩ := ih h (fun kept hkept hplain => by
          rw [OrdMap.get?_insert, if_neg (ne_of_gt (hkey kept hkept))]
          exact hfree kept (List.mem_cons_of_mem _ hkept) hplain) hkeys hlate
        refine ⟨?_, fun found tensor hfound => hkeeps found tensor ?_, ?_⟩
        · rw [List.flatMap_cons, blockOf,
            if_neg (by rw [heligible]; exact Bool.false_ne_true)]
          refine hperm.trans
            (((OrdMap.keys_insert_perm hnone).append_left _).trans ?_)
          exact List.perm_middle
        · rw [OrdMap.get?_insert, if_neg ?_]
          · exact hfound
          · rintro rfl
            rw [hnone] at hfound
            cases hfound
        · intro other hother
          rcases List.mem_cons.mp hother with rfl | hother
          · refine ⟨fun hacted => ?_, fun _ => hkeeps _ _ ?_⟩
            · rw [heligible] at hacted
              cases hacted
            · rw [OrdMap.get?_insert, if_pos rfl]
          · exact hwrites other hother

theorem length_blocks (component : TopologyComponent)
    (entries : List (Text × List UInt64)) :
    (entries.flatMap (rule.blockOf topology component)).length =
      (entries.countP fun entry =>
        !rule.isEligible topology component entry.1 entry.2) +
      (entries.countP fun entry =>
        rule.isEligible topology component entry.1 entry.2) *
        rule.emissions.length := by
  induction entries with
  | nil => simp
  | cons entry entries ih =>
      rw [List.flatMap_cons, List.length_append, ih, List.countP_cons,
        List.countP_cons, blockOf]
      cases rule.isEligible topology component entry.1 entry.2 <;>
        simp <;> ring

theorem owns_of_applyKeys {component : TopologyComponent}
    {tensors : OrdMap Text LayoutTensor} {count : Nat}
    (h : rule.applyKeys topology component .empty 0
      component.tensors.entries = .ok (tensors, count))
    (hlate : ∀ entry ∈ component.tensors.entries,
      ∀ kept ∈ component.tensors.entries, entry.1 < kept.1 →
        rule.Apart topology component entry kept) :
    rule.Owns topology component ⟨component.name, tensors⟩ := by
  have hpairs : component.tensors.entries.Pairwise
      (rule.Apart topology component) :=
    component.tensors.sorted.imp_of_mem fun hentry hkept hlt =>
      hlate _ hentry _ hkept hlt
  obtain ⟨hperm, _, hwrites⟩ := applyKeys_ok h (fun _ _ _ => rfl)
    component.tensors.sorted hpairs
  rw [OrdMap.entries_empty, List.map_nil, List.append_nil] at hperm
  refine ⟨rfl, hperm, ?_, hwrites⟩
  rw [← List.length_map Prod.fst, hperm.length_eq]
  exact length_blocks component component.tensors.entries

theorem applyComponents_ok {components : List TopologyComponent}
    {computed : List LayoutComponent} {count : Nat}
    (h : rule.applyComponents topology components = .ok (computed, count)) :
    List.Forall₂ (fun component made => ∃ tensors count,
      rule.applyKeys topology component .empty 0 component.tensors.entries =
        .ok (tensors, count) ∧ made = ⟨component.name, tensors⟩)
      components computed := by
  induction components generalizing computed count with
  | nil =>
      cases h
      exact .nil
  | cons component components ih =>
      simp only [applyComponents, except_bind_eq_ok] at h
      obtain ⟨made, hmade, others, hothers, h⟩ := h
      cases h
      exact .cons ⟨made.1, made.2, hmade, rfl⟩ (ih hothers)

/-- A component whose entries are the names of its keys has no two keys of one
name. -/
theorem Owns.nodup {component : TopologyComponent} {computed : LayoutComponent}
    (h : rule.Owns topology component computed) :
    (rule.namesOf topology component).Nodup :=
  h.names.nodup_iff.mp computed.tensors.keys_nodup

/-- Distinct names leave no late key. -/
theorem apart_of_nodup {component : TopologyComponent}
    (h : (rule.namesOf topology component).Nodup)
    {entry kept : Text × List UInt64}
    (hentry : entry ∈ component.tensors.entries)
    (hkept : kept ∈ component.tensors.entries) :
    rule.Apart topology component entry kept := by
  intro hacted hplain emission hemission hname
  have hne : entry ≠ kept := by
    rintro rfl
    rw [hacted] at hplain
    cases hplain
  have hblock : emission.emitted (rule.moduleOf entry.1) entry.1 ∈
      rule.blockOf topology component entry := by
    rw [blockOf, if_pos hacted]
    exact List.mem_map_of_mem hemission
  have hown : kept.1 ∈ rule.blockOf topology component kept := by
    rw [blockOf, if_neg (by rw [hplain]; exact Bool.false_ne_true)]
    exact List.mem_singleton_self _
  have : Std.Symm (Function.onFun List.Disjoint
      (rule.blockOf topology component)) := ⟨fun _ _ hxy => hxy.symm⟩
  have happart := (List.nodup_flatMap.mp h).2.forall hentry hkept hne
  exact happart hblock (hname ▸ hown)

end QuantRule

/-- A computed layout has an entry for each untransformed key and each emission
exactly when no emission is named like a key kept behind it; the other order is
refused. -/
theorem apply_owns (rule : QuantRule) (topology : Topology) (layout : Layout)
    (h : rule.apply topology = .ok layout) :
    (List.Forall₂ (rule.Owns topology) topology.components
        layout.components ↔ rule.NoLateKey topology) ∧
    ((∀ component ∈ topology.components,
        (rule.namesOf topology component).Nodup) ↔
      rule.NoLateKey topology) := by
  simp only [QuantRule.apply, except_bind_eq_ok] at h
  obtain ⟨made, hmade, h⟩ := h
  cases h
  have hrun := QuantRule.applyComponents_ok hmade
  have howned : rule.NoLateKey topology →
      List.Forall₂ (rule.Owns topology) topology.components made.1 := by
    intro hlate
    refine ((List.forall₂_and_left _ _).mpr ⟨hlate, hrun⟩).imp ?_
    rintro component computed ⟨happart, tensors, count, hkeys, rfl⟩
    exact QuantRule.owns_of_applyKeys hkeys happart
  have hlate : (∀ component ∈ topology.components,
      (rule.namesOf topology component).Nodup) → rule.NoLateKey topology :=
    fun hnodup component hcomponent entry hentry kept hkept _ =>
      QuantRule.apart_of_nodup (hnodup component hcomponent) hentry hkept
  have hnodup : List.Forall₂ (rule.Owns topology) topology.components made.1 →
      ∀ component ∈ topology.components,
        (rule.namesOf topology component).Nodup := by
    intro hall
    exact ((List.forall₂_and_left _ _).mp
      (hall.imp fun _ _ howns => ⟨howns.nodup, howns⟩)).1
  exact ⟨⟨fun hall => hlate (hnodup hall), howned⟩,
    ⟨hlate, fun hapart => hnodup (howned hapart)⟩⟩

/-! A kept key behind the key whose emission has its name. -/

def scaledPart : TopologyComponent where
  name := []
  role := roleDenoiser
  islands := .empty
  tensors := (OrdMap.empty.insert "m.weight".toList [16]).insert
    "m.weight_scale".toList [1]

def scaled : Topology where
  handle := ⟨"cozy.scaled".toList, 1⟩
  dtype := "BF16".toList
  components := [scaledPart]

def scaling : QuantRule where
  handle := ⟨"cozy.scaling".toList, 1⟩
  declaredDtype := "float8_e4m3fn".toList
  capabilityFloorSM := 0
  baseDtype := "BF16".toList
  referenceTolerant := true
  conventions := OrdMap.empty.insert "scale".toList "per_tensor".toList
  scopeRoles := []
  lossy := true
  inverse := []
  eligible := some ⟨[], 0, 0, ".weight".toList, [], false, [], []⟩
  emissions := [⟨"\x7bmodule\x7d.weight".toList, "F8_E4M3".toList,
      ["d0".toList], false, [⟨"d0".toList, [.axis false 0]⟩]⟩,
    ⟨"\x7bmodule\x7d.weight_scale".toList, "F32".toList, ["1".toList],
      false, [⟨"1".toList, [.literal false 1]⟩]⟩]

/-- Both documents parse; the scale the rule emits is overwritten by the kept
key of its name. -/
theorem emission_overwritten :
    parseTopology ⟨some topologyFormat, some "cozy.scaled".toList, some 1,
      "BF16".toList, [⟨[], roleDenoiser, .empty, scaledPart.tensors⟩], []⟩ =
        .ok scaled ∧
    parseQuantRule ⟨some quantRuleFormat, some "cozy.scaling".toList, some 1,
      scaling.declaredDtype, 0, scaling.baseDtype, true, scaling.conventions,
      [], true, [], scaling.eligible,
      scaling.emissions.map fun emission =>
        ⟨emission.key, emission.dtype, emission.shape, false⟩, []⟩ =
        .ok scaling ∧
    ∃ layout, scaling.apply scaled = .ok layout ∧
      scaling.passed scaled scaledPart = 1 ∧
      scaling.acted scaled scaledPart = 1 ∧ scaling.emissions.length = 2 ∧
      (layout.components.map fun computed =>
        computed.tensors.entries.map Prod.fst) =
        [["m.weight".toList, "m.weight_scale".toList]] ∧
      (layout.components.map fun computed =>
        computed.tensors.get? "m.weight_scale".toList) =
        [some ⟨["BF16".toList], [1], false⟩] ∧
      ¬ List.Forall₂ (scaling.Owns scaled) scaled.components
        layout.components := by
  have hlayout : scaling.apply scaled = .ok ⟨⟨scaled.handle, scaling.handle,
      defaultLayout⟩, [⟨[], (OrdMap.empty.insert "m.weight".toList
        ⟨["F8_E4M3".toList], [16], false⟩).insert "m.weight_scale".toList
        ⟨["BF16".toList], [1], false⟩⟩], 1⟩ := by rfl
  refine ⟨?_, ?_, _, hlayout, rfl, rfl, rfl, rfl, rfl, fun hall => ?_⟩
  · have hhandle : namedHandle "cozy.scaled".toList 1 = .ok scaled.handle := by
      decide +kernel
    rw [parseTopology_of rfl rfl rfl hhandle (by decide) (by decide)
      rfl rfl, byName]
    exact congrArg (fun components => Except.ok (Topology.mk scaled.handle
      scaled.dtype components)) (List.mergeSort_singleton scaledPart)
  · have hhandle : namedHandle "cozy.scaling".toList 1 =
        .ok scaling.handle := by
      decide +kernel
    exact parseQuantRule_of rfl rfl rfl hhandle (by decide) (by decide)
      (by decide) (by decide) rfl rfl
  · obtain ⟨howns, _⟩ := List.forall₂_cons.mp hall
    exact absurd howns.count (by decide)

def unscaled : Topology where
  handle := ⟨"cozy.scaled".toList, 1⟩
  dtype := "BF16".toList
  components := [⟨[], roleDenoiser, .empty,
    OrdMap.empty.insert "m.weight".toList [16]⟩]

/-- Without that key nothing is overwritten. -/
theorem apply_owns_unscaled :
    ∃ layout, scaling.apply unscaled = .ok layout ∧
      List.Forall₂ (scaling.Owns unscaled) unscaled.components
        layout.components := by
  refine ⟨_, rfl, (apply_owns scaling unscaled _ rfl).1.mpr ?_⟩
  unfold QuantRule.NoLateKey QuantRule.Apart
  decide

end TensorFS.Go
