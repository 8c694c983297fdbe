import TensorFS.Engine.Rendering

namespace TensorFS.Go

open Data

/-! The renderings of quant rules. -/

def dtypesClose : Delimiters Char :=
  ⟨[",".toList, " rank=".toList], by decide, by decide⟩

def alignMark : Delimiters Char :=
  ⟨[" align=[".toList], by decide, by decide⟩

def alignmentsEnd : Delimiters Char :=
  ⟨[" ".toList, "]".toList], by decide, by decide⟩

def substringsEnd : Delimiters Char :=
  ⟨[",".toList, " exact=".toList], by decide, by decide⟩

def exactEnd : Delimiters Char :=
  ⟨[",".toList, ['\n']], by decide, by decide⟩

def dtypeMark : Delimiters Char :=
  ⟨[" dtype=".toList], by decide, by decide⟩

def shapesMark : Delimiters Char :=
  ⟨[" shape=".toList], by decide, by decide⟩

def shapesEnd : Delimiters Char :=
  ⟨[",".toList, " optional=".toList], by decide, by decide⟩

/-- No text of the predicate holds what may close its field, and no list of it
reads as the empty one. -/
structure Eligibility.Framed (predicate : Eligibility) : Prop where
  dtypes : ∀ dtype ∈ predicate.sourceDtypes, dtypesClose.Free dtype
  dtypes_told : predicate.sourceDtypes ≠ [[]]
  suffix : alignMark.Free predicate.keySuffix
  substrings : ∀ needle ∈ predicate.skipModuleSubstrings,
    substringsEnd.Free needle
  substrings_told : predicate.skipModuleSubstrings ≠ [[]]
  names : ∀ name ∈ predicate.skipModuleExact, exactEnd.Free name
  names_told : predicate.skipModuleExact ≠ [[]]

/-- The alignments, and what closes them. -/
def alignments (dimAlign : List UInt64) : Text :=
  " ".toList.intercalate (dimAlign.map fun alignment =>
    decimal alignment.toNat) ++ "]".toList

theorem readable_alignments : Readable (fun _ => True) alignments :=
  readable_list (d := alignmentsEnd) word_injective
    (fun _ => Delimiters.free_decimal _ (by simp [alignmentsEnd]))
    (fun _ => decimal_ne_nil) (by simp [alignmentsEnd])
    (by simp [alignmentsEnd]) (by simp)

theorem eligibility_eq (predicate : Eligibility) :
    predicate.canonical = "eligible dtypes=".toList ++
      (",".toList.intercalate predicate.sourceDtypes ++ (" rank=".toList ++
      (renderInt predicate.rank ++ ' ' :: ("rank>=".toList ++
      (renderInt predicate.rankAtLeast ++ ' ' :: ("suffix=".toList ++
      (predicate.keySuffix ++ (" align=[".toList ++
      (alignments predicate.dimAlign ++ (" block=".toList ++
      (renderBool predicate.requireRepeatedBlockSegment ++
        '\n' :: ("skip substrings=".toList ++
      (",".toList.intercalate predicate.skipModuleSubstrings ++
        (" exact=".toList ++
      (",".toList.intercalate predicate.skipModuleExact ++
        ['\n']))))))))))))))) := by
  unfold Eligibility.canonical alignments
  simp [joinStrings_eq]

theorem readable_eligibility :
    Readable Eligibility.Framed Eligibility.canonical := by
  intro left right hleft hright x y h
  simp only [eligibility_eq, List.append_assoc, List.cons_append,
    List.append_cancel_left_eq] at h
  obtain ⟨hdtypes, hranks⟩ := Delimiters.split_list hleft.dtypes hright.dtypes
    (by simp [dtypesClose]) (by simp [dtypesClose]) (by simp [dtypesClose])
    (by simp) (by simp) hleft.dtypes_told hright.dtypes_told h
  rw [List.append_cancel_left_eq] at hranks
  obtain ⟨hrank, hleasts⟩ := int_split (by decide) (by decide) hranks
  rw [List.append_cancel_left_eq] at hleasts
  obtain ⟨hleast, hsuffixes⟩ := int_split (by decide) (by decide) hleasts
  rw [List.append_cancel_left_eq] at hsuffixes
  obtain ⟨hsuffix, haligns⟩ := Delimiters.split_same hleft.suffix hright.suffix
    (by simp [alignMark]) hsuffixes
  obtain ⟨halign, hblocks⟩ := readable_alignments trivial trivial haligns
  rw [List.append_cancel_left_eq] at hblocks
  obtain ⟨hblock, hskips⟩ := bool_split hblocks
  rw [List.append_cancel_left_eq] at hskips
  obtain ⟨hsubstrings, hexacts⟩ := Delimiters.split_list hleft.substrings
    hright.substrings (by simp [substringsEnd]) (by simp [substringsEnd])
    (by simp [substringsEnd]) (by simp) (by simp) hleft.substrings_told
    hright.substrings_told hskips
  rw [List.append_cancel_left_eq] at hexacts
  obtain ⟨hexact, htail⟩ := Delimiters.split_list (p := ['\n'])
    (q := ['\n']) hleft.names hright.names (by simp [exactEnd])
    (by simp [exactEnd]) (by simp [exactEnd]) (by simp) (by simp)
    hleft.names_told hright.names_told hexacts
  obtain ⟨_, _, _, _, _, _, _, _⟩ := left
  obtain ⟨_, _, _, _, _, _, _, _⟩ := right
  simp only at hdtypes hrank hleast hsuffix halign hblock hsubstrings hexact
  rw [hdtypes, hrank, hleast, hsuffix, halign, hblock, hsubstrings, hexact]
  exact ⟨rfl, List.append_cancel_left htail⟩

/-! Emissions. -/

/-- What an accepted emission prints, and that its shape is spelled by what
parsed it. -/
structure Emission.Framed (emission : Emission) : Prop where
  key : dtypeMark.Free emission.key
  dtype : shapesMark.Free emission.dtype
  shape : parseFormula emission.shape = .ok emission.formula

theorem parseFormula_mem {terms : List Text} {formula : List ShapeExpr}
    (h : parseFormula terms = .ok formula) :
    ∀ term ∈ terms, ∃ expression, parseShapeExpr term = .ok expression := by
  induction terms generalizing formula with
  | nil => exact List.forall_mem_nil _
  | cons term terms ih =>
      unfold parseFormula at h
      cases hterm : parseShapeExpr term with
      | error fault =>
          rw [hterm] at h
          cases h
      | ok expression =>
          simp only [hterm, except_bind_eq_ok] at h
          obtain ⟨_, hterms, -⟩ := h
          exact List.forall_mem_cons.mpr ⟨⟨expression, hterm⟩, ih hterms⟩

theorem emission_eq (emission : Emission) :
    emission.canonical = "emit key=".toList ++ (emission.key ++
      (" dtype=".toList ++ (emission.dtype ++ (" shape=".toList ++
      (",".toList.intercalate emission.shape ++ (" optional=".toList ++
      (renderBool emission.optional ++ ['\n']))))))) := by
  unfold Emission.canonical
  simp [joinStrings_eq]

theorem readable_emission :
    Readable Emission.Framed Emission.canonical := by
  intro left right hleft hright x y h
  have hfree : ∀ {emission : Emission}, emission.Framed →
      ∀ term ∈ emission.shape, shapesEnd.Free term := by
    intro emission hframed term hmem
    obtain ⟨_, hparsed⟩ := parseFormula_mem hframed.shape term hmem
    exact Delimiters.free_of_all isFormulaChar
      (by simp [shapesEnd, isFormulaChar]) (parseShapeExpr_formula hparsed).2
  have htold : ∀ {emission : Emission}, emission.Framed →
      emission.shape ≠ [[]] := by
    intro emission hframed hone
    obtain ⟨_, hparsed⟩ := parseFormula_mem hframed.shape []
      (hone ▸ List.mem_singleton_self [])
    exact (parseShapeExpr_formula hparsed).1 rfl
  simp only [emission_eq, List.append_assoc, List.cons_append,
    List.nil_append, List.append_cancel_left_eq] at h
  obtain ⟨hkey, hdtypes⟩ := Delimiters.split_same hleft.key hright.key
    (by simp [dtypeMark]) h
  obtain ⟨hdtype, hshapes⟩ := Delimiters.split_same hleft.dtype hright.dtype
    (by simp [shapesMark]) hdtypes
  obtain ⟨hshape, hoptionals⟩ := Delimiters.split_list (hfree hleft)
    (hfree hright) (by simp [shapesEnd]) (by simp [shapesEnd])
    (by simp [shapesEnd]) (by simp) (by simp) (htold hleft) (htold hright)
    hshapes
  rw [List.append_cancel_left_eq] at hoptionals
  obtain ⟨hoptional, htail⟩ := bool_split hoptionals
  have hformula : left.formula = right.formula := by
    have hparsed := hleft.shape
    rw [hshape, hright.shape] at hparsed
    exact (Except.ok.inj hparsed).symm
  obtain ⟨_, _, _, _, _⟩ := left
  obtain ⟨_, _, _, _, _⟩ := right
  simp only at hkey hdtype hshape hoptional hformula
  rw [hkey, hdtype, hshape, hoptional, hformula]
  exact ⟨rfl, htail⟩

/-! The lines of a rule. -/

inductive RuleLine where
  | convention (key value : Text)
  | scope (role : ComponentRole)
  | eligible (predicate : Eligibility)
  | emit (emission : Emission)

namespace RuleLine

def render : RuleLine → Text
  | convention key value => "convention ".toList ++
      (key ++ '=' :: (value ++ ['\n']))
  | scope role => "scope=".toList ++ (role ++ ['\n'])
  | eligible predicate => predicate.canonical
  | emit emission => emission.canonical

@[simp] theorem render_convention (key value : Text) :
    (convention key value).render =
      "convention ".toList ++ (key ++ '=' :: (value ++ ['\n'])) := rfl

@[simp] theorem render_scope (role : ComponentRole) :
    (scope role).render = "scope=".toList ++ (role ++ ['\n']) := rfl

@[simp] theorem render_eligible (predicate : Eligibility) :
    (eligible predicate).render = predicate.canonical := rfl

@[simp] theorem render_emit (emission : Emission) :
    (emit emission).render = emission.canonical := rfl

def Framed : RuleLine → Prop
  | convention key value => '=' ∉ key ∧ '\n' ∉ value
  | scope role => '\n' ∉ role
  | eligible predicate => predicate.Framed
  | emit emission => emission.Framed

theorem readable : Readable Framed render := by
  intro left right hleft hright x y h
  cases left with
  | convention key value =>
      cases right with
      | convention key' value' =>
          simp only [render_convention, List.append_assoc,
            List.append_cancel_left_eq, List.cons_append, List.nil_append] at h
          obtain ⟨rfl, hvalues⟩ := Delimiters.split_char hleft.1 hright.1 h
          obtain ⟨rfl, htail⟩ :=
            Delimiters.split_char hleft.2 hright.2 hvalues
          exact ⟨rfl, htail⟩
      | scope => simp at h
      | eligible => simp [eligibility_eq] at h
      | emit => simp [emission_eq] at h
  | scope role =>
      cases right with
      | convention => simp at h
      | scope role' =>
          simp only [render_scope, List.append_assoc,
            List.append_cancel_left_eq, List.cons_append, List.nil_append] at h
          obtain ⟨rfl, htail⟩ := Delimiters.split_char hleft hright h
          exact ⟨rfl, htail⟩
      | eligible => simp [eligibility_eq] at h
      | emit => simp [emission_eq] at h
  | eligible predicate =>
      cases right with
      | convention => simp [eligibility_eq] at h
      | scope => simp [eligibility_eq] at h
      | eligible predicate' =>
          obtain ⟨rfl, htail⟩ := readable_eligibility hleft hright h
          exact ⟨rfl, htail⟩
      | emit => simp [eligibility_eq, emission_eq] at h
  | emit emission =>
      cases right with
      | convention => simp [emission_eq] at h
      | scope => simp [emission_eq] at h
      | eligible => simp [eligibility_eq, emission_eq] at h
      | emit emission' =>
          obtain ⟨rfl, htail⟩ := readable_emission hleft hright h
          exact ⟨rfl, htail⟩

/-- No line starts where the inverse is printed. -/
theorem not_inverse (line : RuleLine) (text : Text) :
    ¬ line.render <+: "inverse=".toList ++ text := by
  cases line <;> simp [eligibility_eq, emission_eq]

def conventionOf : RuleLine → Option (Text × Text)
  | convention key value => some (key, value)
  | _ => none

def scopeOf : RuleLine → Option ComponentRole
  | scope role => some role
  | _ => none

def eligibleOf : RuleLine → Option Eligibility
  | eligible predicate => some predicate
  | _ => none

def emissionOf : RuleLine → Option Emission
  | emit emission => some emission
  | _ => none

end RuleLine

/-- No text of the rule holds what may close its field. -/
structure QuantRule.Framed (rule : QuantRule) : Prop where
  handle : rule.handle.Valid
  declaredDtype : '\n' ∉ rule.declaredDtype
  baseDtype : '\n' ∉ rule.baseDtype
  conventions : ∀ entry ∈ rule.conventions.entries,
    '=' ∉ entry.1 ∧ '\n' ∉ entry.2
  scopeRoles : ∀ role ∈ rule.scopeRoles, '\n' ∉ role
  eligible : ∀ predicate ∈ rule.eligible, predicate.Framed
  emissions : ∀ emission ∈ rule.emissions, emission.Framed

namespace QuantRule

def lines (rule : QuantRule) : List RuleLine :=
  rule.conventions.entries.map (fun entry => .convention entry.1 entry.2) ++
    (rule.scopeRoles.map .scope ++
      (rule.eligible.toList.map .eligible ++ rule.emissions.map .emit))

theorem Framed.lines {rule : QuantRule} (h : rule.Framed) :
    ∀ line ∈ rule.lines, line.Framed := by
  refine List.forall_mem_append.mpr ⟨List.forall_mem_map.mpr h.conventions, ?_⟩
  refine List.forall_mem_append.mpr ⟨List.forall_mem_map.mpr h.scopeRoles, ?_⟩
  refine List.forall_mem_append.mpr ⟨List.forall_mem_map.mpr ?_,
    List.forall_mem_map.mpr h.emissions⟩
  intro predicate hmem
  exact h.eligible predicate (Option.mem_toList.mp hmem)

open RuleLine in
theorem eq_of_lines {left right : QuantRule} (h : left.lines = right.lines) :
    left.conventions = right.conventions ∧
      left.scopeRoles = right.scopeRoles ∧ left.eligible = right.eligible ∧
      left.emissions = right.emissions := by
  have hconventions := congrArg (List.filterMap conventionOf) h
  have hscopes := congrArg (List.filterMap scopeOf) h
  have heligible := congrArg (List.filterMap eligibleOf) h
  have hemissions := congrArg (List.filterMap emissionOf) h
  simp only [QuantRule.lines, List.filterMap_append, List.filterMap_map,
    Function.comp_def, conventionOf, scopeOf, eligibleOf, emissionOf,
    Prod.mk.eta, List.filterMap_some, List.filterMap_none, List.append_nil,
    List.nil_append] at hconventions hscopes heligible hemissions
  refine ⟨OrdMap.ext_entries hconventions, hscopes, ?_, hemissions⟩
  rw [← Option.head?_toList (o := left.eligible), heligible,
    Option.head?_toList]

theorem canonical_eq (rule : QuantRule) :
    rule.canonical = quantRuleFormat ++ "\nname=".toList ++
      (rule.handle.name ++ ("\nversion=".toList ++
      (decimal rule.handle.version.toNat ++
        '\n' :: ("declared_dtype=".toList ++ (rule.declaredDtype ++
        '\n' :: ("floor_sm=".toList ++ (renderInt rule.capabilityFloorSM ++
        '\n' :: ("base=".toList ++ (rule.baseDtype ++
        '\n' :: ("tolerant=".toList ++ (renderBool rule.referenceTolerant ++
        '\n' :: ("lossy=".toList ++ (renderBool rule.lossy ++
        '\n' :: (rule.lines.flatMap RuleLine.render ++
          ("inverse=".toList ++ (rule.inverse ++ ['\n'])))))))))))))))) := by
  obtain ⟨handle, declared, floor, base, tolerant, conventions, scopes, lossy,
    inverse, eligible, emissions⟩ := rule
  unfold canonical lines
  cases eligible <;> simp [List.flatMap_map]

theorem Framed.eq {left right : QuantRule} (hleft : left.Framed)
    (hright : right.Framed) (h : left.canonical = right.canonical) :
    left = right := by
  rw [canonical_eq, canonical_eq, List.append_cancel_left_eq] at h
  obtain ⟨hhandle, hdeclareds⟩ := handle_split hleft.handle hright.handle h
  rw [List.append_cancel_left_eq] at hdeclareds
  obtain ⟨hdeclared, hfloors⟩ := Delimiters.split_char hleft.declaredDtype
    hright.declaredDtype hdeclareds
  rw [List.append_cancel_left_eq] at hfloors
  obtain ⟨hfloor, hbases⟩ := int_split (by decide) (by decide) hfloors
  rw [List.append_cancel_left_eq] at hbases
  obtain ⟨hbase, htolerants⟩ :=
    Delimiters.split_char hleft.baseDtype hright.baseDtype hbases
  rw [List.append_cancel_left_eq] at htolerants
  obtain ⟨htolerant, hlossies⟩ := bool_split htolerants
  rw [List.append_cancel_left_eq] at hlossies
  obtain ⟨hlossy, hlines⟩ := bool_split hlossies
  obtain ⟨hsame, hinverses⟩ := RuleLine.readable.flatMap hleft.lines
    hright.lines (fun line _ => line.not_inverse _)
    (fun line _ => line.not_inverse _) hlines
  rw [List.append_cancel_left_eq, List.append_cancel_right_eq] at hinverses
  obtain ⟨hconventions, hscopes, heligible, hemissions⟩ := eq_of_lines hsame
  obtain ⟨_, _, _, _, _, _, _, _, _, _, _⟩ := left
  obtain ⟨_, _, _, _, _, _, _, _, _, _, _⟩ := right
  simp only at hhandle hdeclared hfloor hbase htolerant hlossy hinverses
  simp only at hconventions hscopes heligible hemissions
  rw [hhandle, hdeclared, hfloor, hbase, htolerant, hlossy, hinverses,
    hconventions, hscopes, heligible, hemissions]

end QuantRule

end TensorFS.Go
