import TensorFS.Engine.MapRendering

namespace TensorFS.Go

open Data

/-! What the digest of an engine document pins: the fields of every two
accepted documents in which nothing may close a field early. -/

/-- Equal renderings mean the same, and so do equal digests of them where the
hash does not collide. -/
def Pinned (left right : Text) (same : Prop) : Prop :=
  (left = right → same) ∧
    ((sha256 left.utf8 = sha256 right.utf8 → left.utf8 = right.utf8) →
      digestOf left = digestOf right → same)

theorem digestOf_injective {left right : Text}
    (h : digestOf left = digestOf right) :
    sha256 left.utf8 = sha256 right.utf8 := by
  have hbytes := hexEncode_inj h
  generalize sha256 left.utf8 = digest at hbytes
  generalize sha256 right.utf8 = other at hbytes
  cases digest
  cases other
  simpa using hbytes

theorem pinned_of {left right : Text} {same : Prop} (h : left = right → same) :
    Pinned left right same := by
  refine ⟨h, fun hfree hdigest => ?_⟩
  exact h (Text.utf8_injective (hfree (digestOf_injective hdigest)))

/-! Topologies. -/

def RawTopologyPart.component (part : RawTopologyPart) : TopologyComponent :=
  ⟨part.name, part.role, part.islands, part.tensors⟩

/-- No text of the document holds what may close its field. -/
structure RawTopology.Framed (raw : RawTopology) : Prop where
  dtype : '\n' ∉ raw.dtype
  components : ∀ part ∈ raw.components, part.component.Framed

theorem parseParts_eq {handle : Handle} {count : Nat}
    {parts : List RawTopologyPart} {components : List TopologyComponent}
    (h : parseParts handle count parts = .ok components) :
    components = parts.map RawTopologyPart.component := by
  induction parts generalizing components with
  | nil =>
      cases h
      rfl
  | cons part parts ih =>
      simp only [parseParts, except_bind_eq_ok, exists_unit,
        Except.ok.injEq] at h
      obtain ⟨-, -, -, -, rest, hrest, rfl⟩ := h
      rw [ih hrest]
      rfl

theorem parseTopology_framed {raw : RawTopology} {topology : Topology}
    (h : parseTopology raw = .ok topology) (hframed : raw.Framed) :
    topology.Framed := by
  simp only [parseTopology, except_bind_eq_ok, exists_unit] at h
  obtain ⟨-, h⟩ := h
  split at h
  · split at h
    · cases h
    · rename_i handle hhandle
      simp only [except_bind_eq_ok, exists_unit, Except.ok.injEq] at h
      obtain ⟨-, -, components, hparts, -, rfl⟩ := h
      refine ⟨namedHandle_valid hhandle, hframed.dtype, fun component hmem => ?_⟩
      have hcomponent : component ∈ components :=
        (List.mergeSort_perm _ _).mem_iff.mp hmem
      rw [parseParts_eq hparts] at hcomponent
      obtain ⟨part, hpart, rfl⟩ := List.mem_map.mp hcomponent
      exact hframed.components part hpart
  · cases h

/-! Quant rules. -/

structure RawEmission.Framed (raw : RawEmission) : Prop where
  key : dtypeMark.Free raw.key
  dtype : shapesMark.Free raw.dtype

structure RawQuantRule.Framed (raw : RawQuantRule) : Prop where
  declaredDtype : '\n' ∉ raw.declaredDtype
  baseDtype : '\n' ∉ raw.baseDtype
  conventions : ∀ entry ∈ raw.conventions.entries,
    '=' ∉ entry.1 ∧ '\n' ∉ entry.2
  scopeRoles : ∀ role ∈ raw.scopeRoles, '\n' ∉ role
  eligible : ∀ predicate ∈ raw.eligible, predicate.Framed
  emissions : ∀ emission ∈ raw.emissions, emission.Framed

theorem parseEmissions_framed {handle : Handle} {raws : List RawEmission}
    {emissions : List Emission}
    (h : parseEmissions handle raws = .ok emissions)
    (hframed : ∀ raw ∈ raws, raw.Framed) :
    ∀ emission ∈ emissions, emission.Framed := by
  induction raws generalizing emissions with
  | nil =>
      cases h
      exact List.forall_mem_nil _
  | cons raw raws ih =>
      simp only [parseEmissions, except_bind_eq_ok, exists_unit,
        Except.ok.injEq] at h
      obtain ⟨-, -, formula, hformula, rest, hrest, rfl⟩ := h
      obtain ⟨hraw, hraws⟩ := List.forall_mem_cons.mp hframed
      exact List.forall_mem_cons.mpr ⟨⟨hraw.key, hraw.dtype, hformula⟩,
        ih hrest hraws⟩

theorem parseQuantRule_framed {raw : RawQuantRule} {rule : QuantRule}
    (h : parseQuantRule raw = .ok rule) (hframed : raw.Framed) :
    rule.Framed := by
  simp only [parseQuantRule, except_bind_eq_ok, exists_unit] at h
  obtain ⟨-, h⟩ := h
  split at h
  · split at h
    · cases h
    · rename_i handle hhandle
      simp only [except_bind_eq_ok, exists_unit, Except.ok.injEq] at h
      obtain ⟨-, -, -, -, emissions, hemissions, -, rfl⟩ := h
      exact ⟨namedHandle_valid hhandle, hframed.declaredDtype,
        hframed.baseDtype, hframed.conventions, hframed.scopeRoles,
        hframed.eligible, parseEmissions_framed hemissions hframed.emissions⟩
  · cases h

/-! Morphisms. -/

structure RawMorphism.Framed (raw : RawMorphism) : Prop where
  rekeys : ∀ row ∈ raw.rekeys, row.Framed
  seams : ∀ seam ∈ raw.seams, seam.Framed

theorem parsedHandle_eq_ok {found : Except HandleFault Handle}
    {handle : Handle} (h : parsedHandle found = .ok handle) :
    found = .ok handle := by
  cases found with
  | error fault => cases h
  | ok found =>
      cases h
      rfl

theorem parseMorphism_framed {raw : RawMorphism} {morphism : Morphism}
    (h : parseMorphism raw = .ok morphism) (hframed : raw.Framed) :
    morphism.Framed := by
  simp only [parseMorphism, except_bind_eq_ok, exists_unit] at h
  obtain ⟨-, h⟩ := h
  split at h
  · simp only [except_bind_eq_ok, exists_unit, Except.ok.injEq] at h
    obtain ⟨handle, hhandle, source, hsource, target, htarget, -, -, -, -, -,
      -, -, rfl⟩ := h
    exact ⟨namedHandle_valid (parsedHandle_eq_ok hhandle),
      (parseHandle_eq_ok.mp (parsedHandle_eq_ok hsource)).1,
      (parseHandle_eq_ok.mp (parsedHandle_eq_ok htarget)).1,
      hframed.rekeys, hframed.seams⟩
  · cases h

/-! Layout morphisms. -/

namespace LayoutMorphism

theorem validateAxes_formula {handle : Handle} {axis : Int} {covered : Nat}
    {subs : List SubAxis} {found : Nat} {extents : List ShapeExpr}
    (h : validateAxes handle axis covered subs = .ok (found, extents)) :
    parseFormula (subs.map SubAxis.extent) = .ok extents := by
  induction subs generalizing axis covered found extents with
  | nil =>
      cases h
      rfl
  | cons sub subs ih =>
      unfold validateAxes at h
      simp only [except_bind_eq_ok, exists_unit] at h
      obtain ⟨-, h⟩ := h
      split at h
      · cases h
      · rename_i expression hexpression
        simp only [except_bind_eq_ok, Prod.exists, Except.ok.injEq,
          Prod.mk.injEq] at h
        obtain ⟨_, rest, hrest, -, rfl⟩ := h
        rw [List.map_cons, parseFormula, hexpression]
        simp only [ih hrest]
        rfl

end LayoutMorphism

theorem parseLayoutMorphism_validated {raw : RawLayoutMorphism}
    {record : LayoutMorphism} (h : parseLayoutMorphism raw = .ok record) :
    record.Validated := by
  simp only [parseLayoutMorphism, except_bind_eq_ok, exists_unit] at h
  obtain ⟨-, h⟩ := h
  split at h
  · split at h
    · cases h
    · rename_i handle hhandle
      simp only [except_bind_eq_ok, ensure_eq_ok, exists_unit] at h
      obtain ⟨hclass, -, h⟩ := h
      split at h
      · cases h
      · rename_i found hfound
        simp only [except_bind_eq_ok, exists_unit, Except.ok.injEq] at h
        obtain ⟨-, rfl⟩ := h
        unfold LayoutMorphism.validate at hfound
        split at hfound
        · rename_i hnone
          simp only [except_bind_eq_ok, exists_unit, Except.ok.injEq] at hfound
          obtain ⟨-, -, rfl⟩ := hfound
          have hempty : raw.subAxes = [] := List.length_eq_zero_iff.mp hnone
          refine ⟨namedHandle_valid hhandle, hclass, ?_⟩
          rw [hempty]
          rfl
        · simp only [except_bind_eq_ok, exists_unit, Prod.exists,
            Except.ok.injEq] at hfound
          obtain ⟨-, -, covered, extents, haxes, -, -, -, rfl⟩ := hfound
          exact ⟨namedHandle_valid hhandle, hclass,
            LayoutMorphism.validateAxes_formula haxes⟩
  · cases h

/-- Of every two accepted documents of a class whose texts hold nothing that
may close their fields, the renderings tell every field that matching, applying
or planning reads; those of layout morphisms always do. -/
theorem digests_pin (topology otherTopology : RawTopology)
    (rule otherRule : RawQuantRule) (morphism otherMorphism : RawMorphism)
    (layout otherLayout : RawLayoutMorphism) :
    (∀ left right, parseTopology topology = .ok left →
      parseTopology otherTopology = .ok right → topology.Framed →
      otherTopology.Framed →
      Pinned left.canonical right.canonical (left = right)) ∧
    (∀ left right, parseQuantRule rule = .ok left →
      parseQuantRule otherRule = .ok right → rule.Framed →
      otherRule.Framed →
      Pinned left.canonical right.canonical (left = right)) ∧
    (∀ left right, parseMorphism morphism = .ok left →
      parseMorphism otherMorphism = .ok right → morphism.Framed →
      otherMorphism.Framed →
      Pinned left.canonical right.canonical (left.Alike right)) ∧
    ∀ left right, parseLayoutMorphism layout = .ok left →
      parseLayoutMorphism otherLayout = .ok right →
      Pinned left.canonical right.canonical (left = right) := by
  refine ⟨?_, ?_, ?_, ?_⟩
  · intro left right hleft hright hframed hother
    exact pinned_of ((parseTopology_framed hleft hframed).eq
      (parseTopology_framed hright hother))
  · intro left right hleft hright hframed hother
    exact pinned_of ((parseQuantRule_framed hleft hframed).eq
      (parseQuantRule_framed hright hother))
  · intro left right hleft hright hframed hother
    exact pinned_of ((parseMorphism_framed hleft hframed).alike
      (parseMorphism_framed hright hother))
  · intro left right hleft hright
    exact pinned_of ((parseLayoutMorphism_validated hleft).eq
      (parseLayoutMorphism_validated hright))

/-! Documents that print alike: a key that spells a line, two dtypes in one
text, and a prefix that holds the arrow. -/

def netDocument (tensors : OrdMap Text (List UInt64)) : RawTopology :=
  ⟨some topologyFormat, some "cozy.net".toList, some 1, "BF16".toList,
    [⟨"unet".toList, roleDenoiser, .empty, tensors⟩], []⟩

def netRecord (tensors : OrdMap Text (List UInt64)) : Topology :=
  ⟨⟨"cozy.net".toList, 1⟩, "BF16".toList,
    [⟨"unet".toList, roleDenoiser, .empty, tensors⟩]⟩

def bothKeys : OrdMap Text (List UInt64) :=
  ⟨[("a".toList, [1]), ("b".toList, [2])], by decide⟩

def spelledKey : OrdMap Text (List UInt64) :=
  ⟨[("a=[1]\ntensor b".toList, [2])], by decide⟩

theorem parse_netDocument {tensors : OrdMap Text (List UInt64)}
    (hparts : parseParts ⟨"cozy.net".toList, 1⟩ 1
      [⟨"unet".toList, roleDenoiser, .empty, tensors⟩] =
        .ok [⟨"unet".toList, roleDenoiser, .empty, tensors⟩]) :
    parseTopology (netDocument tensors) = .ok (netRecord tensors) := by
  have hhandle : namedHandle "cozy.net".toList 1 =
      .ok ⟨"cozy.net".toList, 1⟩ := by
    decide +kernel
  have hparsed := @parseTopology_of (netDocument tensors) _ _ _ _ rfl rfl rfl
    hhandle (by simp [netDocument]) (by simp [netDocument]) hparts rfl
  rwa [byName, List.mergeSort_singleton] at hparsed

def ruleDocument (dtypes : List Text) : RawQuantRule :=
  ⟨some quantRuleFormat, some "cozy.rule".toList, some 1, "F8".toList, 0,
    "BF16".toList, false, ⟨[("scale".toList, "row".toList)], by simp⟩, [],
    true, [], some ⟨dtypes, 0, 0, [], [], false, [], []⟩,
    [⟨"\x7bkey\x7d".toList, "F8".toList, ["d0".toList], false⟩], []⟩

def ruleRecord (dtypes : List Text) : QuantRule :=
  ⟨⟨"cozy.rule".toList, 1⟩, "F8".toList, 0, "BF16".toList, false,
    ⟨[("scale".toList, "row".toList)], by simp⟩, [], true, [],
    some ⟨dtypes, 0, 0, [], [], false, [], []⟩,
    [⟨"\x7bkey\x7d".toList, "F8".toList, ["d0".toList], false,
      [⟨"d0".toList, [.axis false 0]⟩]⟩]⟩

theorem parse_ruleDocument (dtypes : List Text) :
    parseQuantRule (ruleDocument dtypes) = .ok (ruleRecord dtypes) := by
  have hhandle : namedHandle "cozy.rule".toList 1 =
      .ok ⟨"cozy.rule".toList, 1⟩ := by
    decide +kernel
  exact parseQuantRule_of rfl rfl rfl hhandle (by simp [ruleDocument])
    (by simp [ruleDocument]) (by simp [ruleDocument])
    (by simp [ruleDocument]) rfl rfl

def morphismDocument (description fromPrefix toPrefix : Text) : RawMorphism :=
  ⟨some morphismFormat, some "cozy.map".toList, some 1, description,
    "cozy.net@1".toList, "cozy.other@1".toList, 1, false,
    [⟨fromPrefix, toPrefix, [], []⟩], [], ["seen".toList], []⟩

def morphismRecord (description fromPrefix toPrefix : Text) : Morphism :=
  ⟨⟨"cozy.map".toList, 1⟩, description, ⟨"cozy.net".toList, 1⟩,
    ⟨"cozy.other".toList, 1⟩, 1, false, [⟨fromPrefix, toPrefix, [], []⟩], [],
    ["seen".toList], false⟩

theorem parse_morphismDocument (description fromPrefix toPrefix : Text) :
    parseMorphism (morphismDocument description fromPrefix toPrefix) =
      .ok (morphismRecord description fromPrefix toPrefix) := by
  have hhandle : namedHandle "cozy.map".toList 1 =
      .ok ⟨"cozy.map".toList, 1⟩ := by
    decide +kernel
  have hsource : parseHandle "cozy.net@1".toList =
      .ok ⟨"cozy.net".toList, 1⟩ := by
    decide +kernel
  have htarget : parseHandle "cozy.other@1".toList =
      .ok ⟨"cozy.other".toList, 1⟩ := by
    decide +kernel
  exact parseMorphism_of rfl rfl rfl hhandle hsource htarget (by decide)
    (by simp [morphismDocument]) (by simp [morphismDocument]) rfl
    (by simp [morphismDocument, tierRekey, tierInterleaved])
    (by simp [morphismDocument, tierRekey]) rfl

/-! Two documents of each class in which nothing closes a field early. -/

def otherShape : OrdMap Text (List UInt64) :=
  ⟨[("a".toList, [1]), ("b".toList, [3])], by decide⟩

theorem netDocument_framed {tensors : OrdMap Text (List UInt64)}
    (h : ∀ entry ∈ tensors.entries, shapeMark.Free entry.1) :
    (netDocument tensors).Framed where
  dtype := (by decide : '\n' ∉ "BF16".toList)
  components := by
    intro part hmem
    rw [List.mem_singleton.mp hmem]
    exact ⟨(by decide : roleMark.Free "unet".toList),
      (by decide : '\n' ∉ roleDenoiser), h,
      fun _ hmem => absurd hmem List.not_mem_nil⟩

theorem ruleDocument_framed {dtypes : List Text}
    (h : ∀ dtype ∈ dtypes, dtypesClose.Free dtype) (htold : dtypes ≠ [[]]) :
    (ruleDocument dtypes).Framed where
  declaredDtype := (by decide : '\n' ∉ "F8".toList)
  baseDtype := (by decide : '\n' ∉ "BF16".toList)
  conventions := by
    intro entry hmem
    rw [List.mem_singleton.mp hmem]
    decide
  scopeRoles := fun _ hmem => absurd hmem List.not_mem_nil
  eligible := by
    intro predicate hmem
    cases hmem
    have hnone : ([] : List Text) ≠ [[]] := by decide
    exact ⟨h, htold, (by decide : alignMark.Free []),
      fun _ hmem => absurd hmem List.not_mem_nil, hnone,
      fun _ hmem => absurd hmem List.not_mem_nil, hnone⟩
  emissions := by
    intro emission hmem
    rw [List.mem_singleton.mp hmem]
    constructor <;> decide

theorem morphismDocument_framed (description : Text) :
    (morphismDocument description "a".toList "b".toList).Framed where
  rekeys := by
    intro row hmem
    rw [List.mem_singleton.mp hmem]
    constructor <;> decide
  seams := fun _ hmem => absurd hmem List.not_mem_nil

def layoutDocument (permutation : List Int) : RawLayoutMorphism :=
  ⟨some layoutMorphismFormat, some "cublas.blocks".toList, some 1,
    "endpoint-declared".toList, 2,
    [⟨0, "ceil(d0/128)".toList⟩, ⟨0, "128".toList⟩, ⟨1, "d1".toList⟩],
    permutation, false, ["to_blocked".toList], []⟩

def layoutRecord (permutation : List Int) : LayoutMorphism :=
  ⟨⟨"cublas.blocks".toList, 1⟩, "endpoint-declared".toList, 2,
    [⟨0, "ceil(d0/128)".toList⟩, ⟨0, "128".toList⟩, ⟨1, "d1".toList⟩],
    [⟨"ceil(d0/128)".toList,
        [.ceiling false "d0/128".toList [.axis false 0, .literal true 128]]⟩,
      ⟨"128".toList, [.literal false 128]⟩, ⟨"d1".toList, [.axis false 1]⟩],
    permutation, false⟩

/-- The renderings tell two shapes, two lists of dtypes and two storage orders
apart; a description is not rendered. -/
theorem digests_pin_classes :
    Pinned (netRecord bothKeys).canonical (netRecord otherShape).canonical
        (netRecord bothKeys = netRecord otherShape) ∧
      Pinned (ruleRecord ["BF16".toList]).canonical
        (ruleRecord ["BF16".toList, "F16".toList]).canonical
        (ruleRecord ["BF16".toList] =
          ruleRecord ["BF16".toList, "F16".toList]) ∧
      (morphismRecord "one".toList "a".toList "b".toList).Alike
        (morphismRecord "other".toList "a".toList "b".toList) ∧
      Pinned (layoutRecord [0, 2, 1]).canonical
        (layoutRecord [2, 0, 1]).canonical
        (layoutRecord [0, 2, 1] = layoutRecord [2, 0, 1]) := by
  obtain ⟨htopologies, hrules, hmorphisms, hlayouts⟩ := digests_pin
    (netDocument bothKeys) (netDocument otherShape)
    (ruleDocument ["BF16".toList])
    (ruleDocument ["BF16".toList, "F16".toList])
    (morphismDocument "one".toList "a".toList "b".toList)
    (morphismDocument "other".toList "a".toList "b".toList)
    (layoutDocument [0, 2, 1]) (layoutDocument [2, 0, 1])
  have hmorphism := hmorphisms _ _ (parse_morphismDocument _ _ _)
    (parse_morphismDocument _ _ _) (morphismDocument_framed _)
    (morphismDocument_framed _)
  refine ⟨?_, ?_, hmorphism.1 (by decide +kernel), ?_⟩
  · exact htopologies _ _ (parse_netDocument rfl) (parse_netDocument rfl)
      (netDocument_framed (by decide)) (netDocument_framed (by decide))
  · exact hrules _ _ (parse_ruleDocument _) (parse_ruleDocument _)
      (ruleDocument_framed (by decide) (by decide))
      (ruleDocument_framed (by decide) (by decide))
  · exact hlayouts _ _ (by rfl) (by rfl)

theorem print_alike :
    (∃ left right, parseTopology (netDocument bothKeys) = .ok left ∧
      parseTopology (netDocument spelledKey) = .ok right ∧
      left.canonical = right.canonical ∧ left.digest = right.digest ∧
      left.components.map TopologyComponent.keys ≠
        right.components.map TopologyComponent.keys) ∧
    (∃ left right,
      parseQuantRule (ruleDocument ["BF16".toList, "F16".toList]) =
        .ok left ∧
      parseQuantRule (ruleDocument ["BF16,F16".toList]) = .ok right ∧
      left.canonical = right.canonical ∧ left.digest = right.digest ∧
      left.eligible ≠ right.eligible) ∧
    ∃ left right,
      parseMorphism (morphismDocument [] "a->b".toList "c".toList) =
        .ok left ∧
      parseMorphism (morphismDocument [] "a".toList "b->c".toList) =
        .ok right ∧
      left.canonical = right.canonical ∧ left.digest = right.digest ∧
      left.rekeys ≠ right.rekeys := by
  have hnets : (netRecord bothKeys).canonical =
      (netRecord spelledKey).canonical := by
    decide +kernel
  have hrules : (ruleRecord ["BF16".toList, "F16".toList]).canonical =
      (ruleRecord ["BF16,F16".toList]).canonical := by
    decide +kernel
  have hmorphisms : (morphismRecord [] "a->b".toList "c".toList).canonical =
      (morphismRecord [] "a".toList "b->c".toList).canonical := by
    decide +kernel
  refine ⟨⟨netRecord bothKeys, netRecord spelledKey, parse_netDocument rfl,
    parse_netDocument rfl, hnets, congrArg digestOf hnets, by decide⟩,
    ⟨_, _, parse_ruleDocument _, parse_ruleDocument _, hrules,
      congrArg digestOf hrules, by decide⟩,
    _, _, parse_morphismDocument _ _ _, parse_morphismDocument _ _ _,
    hmorphisms, congrArg digestOf hmorphisms, by decide⟩

end TensorFS.Go
