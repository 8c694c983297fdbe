import TensorFS.Data.Framing
import TensorFS.Engine.Morphism
import TensorFS.Engine.ShapeParity
import TensorFS.Engine.Spelling
import TensorFS.Layout.Go

namespace TensorFS.Go

open Data

/-! When the canonical rendering of an engine document can be read back.
Nothing in it is escaped, so a field reads back when it holds no literal that
may close it. -/

theorem joinStrings_eq (separator : Text) (texts : List Text) :
    joinStrings separator texts = separator.intercalate texts := by
  induction texts with
  | nil => rfl
  | cons text rest ih =>
      cases rest with
      | nil => simp [joinStrings]
      | cons next rest => simp [joinStrings, ih]

/-! Numbers and flags. -/

theorem not_mem_renderInt {c : Char} (hdigit : c.isDigit = false)
    (hminus : c ≠ '-') {value : Int} : c ∉ renderInt value := by
  have hdecimal : c ∉ decimal value.natAbs := not_mem_decimal hdigit
  unfold renderInt
  split
  · simp [hminus, hdecimal]
  · exact hdecimal

theorem renderInt_ne_nil {value : Int} : renderInt value ≠ [] := by
  unfold renderInt
  split
  · exact List.cons_ne_nil _ _
  · exact decimal_ne_nil

theorem renderInt_injective : Function.Injective renderInt := by
  intro left right h
  have hsign : ∀ {n : Nat} {text : Text}, decimal n ≠ '-' :: text := by
    intro n text heq
    have hmem : '-' ∈ decimal n := heq ▸ List.mem_cons_self
    exact not_mem_decimal (by decide) hmem
  unfold renderInt at h
  split at h
  · split at h
    · have hsame := decimal_injective (List.cons.inj h).2
      omega
    · exact absurd h.symm hsign
  · split at h
    · exact absurd h hsign
    · have hsame := decimal_injective h
      omega

/-- A number up to a character that is no part of one. -/
theorem int_split {c : Char} (hdigit : c.isDigit = false) (hminus : c ≠ '-')
    {left right : Int} {x y : Text}
    (h : renderInt left ++ c :: x = renderInt right ++ c :: y) :
    left = right ∧ x = y :=
  (Delimiters.split_char (not_mem_renderInt hdigit hminus)
    (not_mem_renderInt hdigit hminus) h).imp_left fun hsame =>
      renderInt_injective hsame

theorem bool_split {left right : Bool} {x y : Text}
    (h : renderBool left ++ '\n' :: x = renderBool right ++ '\n' :: y) :
    left = right ∧ x = y := by
  cases left <;> cases right <;> simp_all [renderBool]

theorem word_injective :
    Function.Injective fun word : UInt64 => decimal word.toNat := by
  intro left right h
  exact UInt64.toNat_inj.mp (decimal_injective h)

/-! Handles. -/

theorem versionLine_nonempty : [] ∉ ["\nversion=".toList] := by decide

theorem versionLine_apart : ∀ p ∈ ["\nversion=".toList],
    ∀ q ∈ ["\nversion=".toList], ∀ v ∈ p.tails, v ≠ [] →
      v <+: q ∨ q <+: v → v = p ∧ p = q := by
  decide

def versionLine : Delimiters Char :=
  ⟨["\nversion=".toList], versionLine_nonempty, versionLine_apart⟩

theorem handle_split {left right : Handle} (hleft : left.Valid)
    (hright : right.Valid) {x y : Text}
    (h : left.name ++ ("\nversion=".toList ++
        (decimal left.version.toNat ++ '\n' :: x)) =
      right.name ++ ("\nversion=".toList ++
        (decimal right.version.toNat ++ '\n' :: y))) :
    left = right ∧ x = y := by
  have hfree : ∀ {handle : Handle}, handle.Valid →
      versionLine.Free handle.name := fun hvalid =>
    Delimiters.free_of_not_mem (c := '\n') (by simp [versionLine])
      (hvalid.not_mem (by decide))
  obtain ⟨hname, hversions⟩ := Delimiters.split_same (hfree hleft)
    (hfree hright) (by simp [versionLine]) h
  obtain ⟨hversion, htail⟩ := decimal_split (by decide) hversions
  obtain ⟨name, version⟩ := left
  obtain ⟨name', version'⟩ := right
  simp only at hname hversion
  rw [hname, UInt32.toNat_inj.mp hversion]
  exact ⟨rfl, htail⟩

theorem render_split {left right : Handle} (hleft : left.Valid)
    (hright : right.Valid) {x y : Text}
    (h : left.render ++ '\n' :: x = right.render ++ '\n' :: y) :
    left = right ∧ x = y := by
  have hfree : ∀ {handle : Handle}, handle.Valid → '\n' ∉ handle.render :=
    fun hvalid => Handle.not_mem_render hvalid (by decide) (by decide)
      (by decide)
  obtain ⟨hsame, htail⟩ :=
    Delimiters.split_char (hfree hleft) (hfree hright) h
  have hparsed := Handle.parse_render hleft
  rw [hsame, Handle.parse_render hright] at hparsed
  exact ⟨(Except.ok.inj hparsed).symm, htail⟩

theorem namedHandle_valid {name : Text} {version : UInt32} {handle : Handle}
    (h : namedHandle name version = .ok handle) : handle.Valid :=
  (parseHandle_eq_ok.mp h).1

/-! What stands in a shape formula. -/

def isFormulaChar (c : Char) : Bool :=
  c.isDigit || "+-*/()ceild ".toList.contains c

def FormulaText (text : Text) : Prop := ∀ c ∈ text, isFormulaChar c = true

theorem formulaText_append {left right : Text} :
    FormulaText (left ++ right) ↔ FormulaText left ∧ FormulaText right :=
  List.forall_mem_append

theorem formulaText_digits {digits : Text}
    (h : digits.all isAsciiDigit = true) : FormulaText digits := by
  intro c hmem
  have hdigit : c.isDigit = true := List.all_eq_true.mp h c hmem
  simp [isFormulaChar, hdigit]

theorem formulaText_of_withoutSpaces {text : Text}
    (h : FormulaText (withoutSpaces text)) : FormulaText text := by
  intro c hmem
  by_cases hspace : c = ' '
  · subst hspace
    decide
  · exact h c (List.mem_filter.mpr ⟨hmem, by simpa using hspace⟩)

theorem atoi_formula {digits : Text} {value : Int}
    (h : atoi digits = some value) : FormulaText digits := by
  unfold atoi at h
  split at h
  · rename_i hdigits
    have hunsigned := formulaText_digits hdigits.2
    unfold unsigned at hunsigned
    split at hunsigned
    · exact List.forall_mem_cons.mpr ⟨by decide, hunsigned⟩
    · exact List.forall_mem_cons.mpr ⟨by decide, hunsigned⟩
    · exact hunsigned
  · cases h

theorem parseUint_formula {digits : Text} {value : Nat}
    (h : parseUint digits = some value) : FormulaText digits := by
  unfold parseUint at h
  split at h
  · rename_i hdigits
    exact formulaText_digits hdigits.2.1
  · cases h

theorem parseExprAtom_formula {token : Text} {divide : Bool}
    {term : ShapeTerm} (h : parseExprAtom token divide = .ok term) :
    FormulaText token := by
  unfold parseExprAtom at h
  split at h
  · cases h
  · split at h
    · cases h
    · rename_i axis haxis
      exact List.forall_mem_cons.mpr ⟨by decide, atoi_formula haxis⟩
  · split at h
    · cases h
    · rename_i literal hliteral
      exact parseUint_formula hliteral

theorem isOperator_formula {c : Char} (h : Formula.isOperator c = true) :
    isFormulaChar c = true := by
  simp only [Formula.isOperator, Bool.or_eq_true, decide_eq_true_eq] at h
  rcases h with rfl | rfl <;> decide

theorem parseTerms_formula {rounds : Nat} {text rest : Text} {divide : Bool}
    {terms : List ShapeTerm}
    (h : parseTerms rounds text divide rest = .ok terms) :
    FormulaText rest := by
  induction rounds generalizing text divide rest terms with
  | zero => cases h
  | succ rounds ih =>
      -- What stands behind a term is an operator and more terms.
      have hbehind : ∀ {after : Text},
          (∀ c rest, after = c :: rest → Formula.isOperator c = true ∧
            ∃ terms, parseTerms rounds text (c = '/') rest = .ok terms) →
          FormulaText after := by
        intro after hafter
        cases after with
        | nil => exact List.forall_mem_nil _
        | cons c after =>
            obtain ⟨hoperator, _, hterms⟩ := hafter c after rfl
            exact List.forall_mem_cons.mpr
              ⟨isOperator_formula hoperator, ih hterms⟩
      unfold parseTerms at h
      cases hword : Pattern.stripPrefix "ceil(".toList rest with
      | some inner =>
          rw [hword, Pattern.stripPrefix_eq_some.mp hword,
            FormulaTerm.closing_word] at h
          rw [Pattern.stripPrefix_eq_some.mp hword]
          cases hclosing : Formula.closing 1 inner with
          | none =>
              rw [hclosing] at h
              cases h
          | some parts =>
              obtain ⟨body, after⟩ := parts
              simp only [hclosing, Option.map_some, except_bind_eq_ok,
                ensure_eq_ok, exists_unit] at h
              obtain ⟨-, _, hbody, _, hpair, hafter⟩ := h
              cases hpair
              rw [FormulaTerm.closing_eq_some hclosing]
              have hfront : FormulaText body :=
                formulaText_of_withoutSpaces (ih hbody)
              have hopen : FormulaText "ceil(".toList := by
                simp [FormulaText, isFormulaChar]
              refine formulaText_append.mpr ⟨hopen,
                formulaText_append.mpr ⟨hfront, List.forall_mem_cons.mpr
                  ⟨by decide, hbehind fun c rest heq => ?_⟩⟩⟩
              rw [heq] at hafter
              simp only [except_bind_eq_ok, ensure_eq_ok, exists_unit] at hafter
              obtain ⟨hoperator, -, terms, hterms, -⟩ := hafter
              exact ⟨hoperator, terms, hterms⟩
      | none =>
          simp only [hword, except_bind_eq_ok] at h
          obtain ⟨term, hatom, _, hpair, hafter⟩ := h
          cases hpair
          rw [← List.takeWhile_append_dropWhile
            (p := fun c => !Formula.isOperator c) (l := rest)]
          refine formulaText_append.mpr
            ⟨parseExprAtom_formula hatom, hbehind fun c rest heq => ?_⟩
          rw [heq] at hafter
          simp only [except_bind_eq_ok, ensure_eq_ok, exists_unit] at hafter
          obtain ⟨hoperator, -, terms, hterms, -⟩ := hafter
          exact ⟨hoperator, terms, hterms⟩

theorem parseShapeExpr_formula {text : Text} {expression : ShapeExpr}
    (h : parseShapeExpr text = .ok expression) :
    text ≠ [] ∧ FormulaText text := by
  simp only [parseShapeExpr, except_bind_eq_ok, ensure_eq_ok, exists_unit] at h
  obtain ⟨hne, terms, hterms, -⟩ := h
  refine ⟨?_, formulaText_of_withoutSpaces (parseTerms_formula hterms)⟩
  intro hnil
  rw [hnil] at hne
  exact hne rfl

/-! Topologies. -/

def roleMark : Delimiters Char :=
  ⟨[" role=".toList], by decide, by decide⟩

def shapeMark : Delimiters Char :=
  ⟨["=[".toList], by decide, by decide⟩

def dimensionsEnd : Delimiters Char :=
  ⟨[",".toList, "]".toList], by decide, by decide⟩

/-- The dimensions of a shape, and what closes them. -/
def dimensions (shape : List UInt64) : Text :=
  ",".toList.intercalate (shape.map fun dimension =>
    decimal dimension.toNat) ++ "]".toList

theorem readable_dimensions : Readable (fun _ => True) dimensions :=
  readable_list (d := dimensionsEnd) word_injective
    (fun _ => Delimiters.free_decimal _ (by simp [dimensionsEnd]))
    (fun _ => decimal_ne_nil) (by simp [dimensionsEnd])
    (by simp [dimensionsEnd]) (by simp)

theorem shapeCanonical_eq (shape : List UInt64) :
    shapeCanonical shape = '[' :: dimensions shape := by
  unfold shapeCanonical dimensions
  simp [joinStrings_eq]

inductive TopologyLine where
  | component (name : Text) (role : ComponentRole)
  | tensor (key : Text) (shape : List UInt64)
  | island (key dtype : Text)

namespace TopologyLine

def render : TopologyLine → Text
  | component name role => "component name=".toList ++
      (name ++ (" role=".toList ++ (role ++ ['\n'])))
  | tensor key shape => "tensor ".toList ++
      (key ++ ("=[".toList ++ (dimensions shape ++ ['\n'])))
  | island key dtype => "island ".toList ++ (key ++ '=' :: (dtype ++ ['\n']))

@[simp] theorem render_component (name : Text) (role : ComponentRole) :
    (component name role).render = "component name=".toList ++
      (name ++ (" role=".toList ++ (role ++ ['\n']))) := rfl

@[simp] theorem render_tensor (key : Text) (shape : List UInt64) :
    (tensor key shape).render = "tensor ".toList ++
      (key ++ ("=[".toList ++ (dimensions shape ++ ['\n']))) := rfl

@[simp] theorem render_island (key dtype : Text) :
    (island key dtype).render =
      "island ".toList ++ (key ++ '=' :: (dtype ++ ['\n'])) := rfl

def Framed : TopologyLine → Prop
  | component name role => roleMark.Free name ∧ '\n' ∉ role
  | tensor key _ => shapeMark.Free key
  | island key dtype => '=' ∉ key ∧ '\n' ∉ dtype

def isComponent : TopologyLine → Bool
  | component _ _ => true
  | _ => false

theorem render_ne_nil (line : TopologyLine) : line.render ≠ [] := by
  cases line <;> simp

theorem readable : Readable Framed render := by
  intro left right hleft hright x y h
  cases left with
  | component name role =>
      cases right with
      | component name' role' =>
          simp only [render_component, List.append_assoc,
            List.append_cancel_left_eq, List.cons_append, List.nil_append] at h
          obtain ⟨rfl, hroles⟩ := Delimiters.split_same hleft.1 hright.1
            (by simp [roleMark]) h
          obtain ⟨rfl, htail⟩ :=
            Delimiters.split_char hleft.2 hright.2 hroles
          exact ⟨rfl, htail⟩
      | tensor => simp at h
      | island => simp at h
  | tensor key shape =>
      cases right with
      | component => simp at h
      | tensor key' shape' =>
          simp only [render_tensor, List.append_assoc,
            List.append_cancel_left_eq] at h
          obtain ⟨rfl, hshapes⟩ := Delimiters.split_same hleft hright
            (by simp [shapeMark]) h
          obtain ⟨rfl, htail⟩ := readable_dimensions trivial trivial hshapes
          exact ⟨rfl, (List.cons.inj htail).2⟩
      | island => simp at h
  | island key dtype =>
      cases right with
      | component => simp at h
      | tensor => simp at h
      | island key' dtype' =>
          simp only [render_island, List.append_assoc,
            List.append_cancel_left_eq, List.cons_append, List.nil_append] at h
          obtain ⟨rfl, hdtypes⟩ := Delimiters.split_char hleft.1 hright.1 h
          obtain ⟨rfl, htail⟩ :=
            Delimiters.split_char hleft.2 hright.2 hdtypes
          exact ⟨rfl, htail⟩

end TopologyLine

/-- No text of the component holds what may close its field. -/
structure TopologyComponent.Framed (component : TopologyComponent) :
    Prop where
  name : roleMark.Free component.name
  role : '\n' ∉ component.role
  tensors : ∀ entry ∈ component.tensors.entries, shapeMark.Free entry.1
  islands : ∀ entry ∈ component.islands.entries,
    '=' ∉ entry.1 ∧ '\n' ∉ entry.2

namespace TopologyComponent

def heading (component : TopologyComponent) : TopologyLine :=
  .component component.name component.role

def body (component : TopologyComponent) : List TopologyLine :=
  component.tensors.entries.map (fun entry => .tensor entry.1 entry.2) ++
    component.islands.entries.map fun entry => .island entry.1 entry.2

theorem Framed.lines {component : TopologyComponent} (h : component.Framed) :
    ∀ line ∈ sectionOf heading body component, line.Framed := by
  refine List.forall_mem_cons.mpr ⟨⟨h.name, h.role⟩, ?_⟩
  refine List.forall_mem_append.mpr ⟨?_, ?_⟩
  · exact List.forall_mem_map.mpr h.tensors
  · exact List.forall_mem_map.mpr h.islands

def tensorOf : TopologyLine → Option (Text × List UInt64)
  | .tensor key shape => some (key, shape)
  | _ => none

def islandOf : TopologyLine → Option (Text × Text)
  | .island key dtype => some (key, dtype)
  | _ => none

theorem eq_of_lines {left right : TopologyComponent}
    (hhead : left.heading = right.heading) (hbody : left.body = right.body) :
    left = right := by
  obtain ⟨name, role, islands, tensors⟩ := left
  obtain ⟨name', role', islands', tensors'⟩ := right
  cases hhead
  have htensors := congrArg (List.filterMap tensorOf) hbody
  have hislands := congrArg (List.filterMap islandOf) hbody
  simp only [body, List.filterMap_append, List.filterMap_map,
    Function.comp_def, tensorOf, islandOf, Prod.mk.eta, List.filterMap_some,
    List.filterMap_none, List.append_nil, List.nil_append]
    at htensors hislands
  have htensor : tensors = tensors' := OrdMap.ext_entries htensors
  have hisland : islands = islands' := OrdMap.ext_entries hislands
  rw [htensor, hisland]

end TopologyComponent

/-- No text of the record holds what may close its field. -/
structure Topology.Framed (topology : Topology) : Prop where
  handle : topology.handle.Valid
  dtype : '\n' ∉ topology.dtype
  components : ∀ component ∈ topology.components, component.Framed

namespace Topology

open TopologyComponent

theorem canonicalComponent_eq (component : TopologyComponent) :
    canonicalComponent component =
      (sectionOf heading body component).flatMap TopologyLine.render := by
  unfold canonicalComponent sectionOf heading body
  simp [List.flatMap_map, shapeCanonical_eq]

theorem canonical_eq (topology : Topology) :
    topology.canonical = topologyFormat ++ "\nname=".toList ++
      (topology.handle.name ++ ("\nversion=".toList ++
        (decimal topology.handle.version.toNat ++
          '\n' :: ("dtype=".toList ++ (topology.dtype ++
            '\n' :: (topology.components.flatMap
              (sectionOf heading body)).flatMap TopologyLine.render))))) := by
  have hbody : canonicalComponent = fun component =>
      (sectionOf heading body component).flatMap TopologyLine.render :=
    funext canonicalComponent_eq
  simp [canonical, hbody, List.flatMap_assoc]

theorem Framed.eq {left right : Topology} (hleft : left.Framed)
    (hright : right.Framed) (h : left.canonical = right.canonical) :
    left = right := by
  rw [canonical_eq, canonical_eq, List.append_cancel_left_eq] at h
  obtain ⟨hhandle, hdtypes⟩ := handle_split hleft.handle hright.handle h
  rw [List.append_cancel_left_eq] at hdtypes
  obtain ⟨hdtype, hlines⟩ :=
    Delimiters.split_char hleft.dtype hright.dtype hdtypes
  have hframed : ∀ {topology : Topology}, topology.Framed →
      ∀ line ∈ topology.components.flatMap (sectionOf heading body),
        line.Framed := by
    intro topology hframed line hmem
    obtain ⟨component, hcomponent, hline⟩ := List.mem_flatMap.mp hmem
    exact (hframed.components component hcomponent).lines line hline
  have hend : ∀ line : TopologyLine, line.Framed →
      ¬ line.render <+: [] := by
    intro line _ hnil
    exact line.render_ne_nil (List.prefix_nil.mp hnil)
  obtain ⟨hsame, -⟩ := TopologyLine.readable.flatMap (hframed hleft)
    (hframed hright) hend hend (congrArg (· ++ []) hlines)
  have hbody : ∀ component : TopologyComponent, ∀ line ∈ component.body,
      line.isComponent = false := by
    intro component line hmem
    rcases List.mem_append.mp hmem with hmem | hmem
    all_goals
      obtain ⟨_, -, rfl⟩ := List.mem_map.mp hmem
      rfl
  have hsections := sections_eq (fun _ => rfl) hbody hsame
  have hinjective : Function.Injective fun component : TopologyComponent =>
      (component.heading, component.body) := by
    intro first second heq
    obtain ⟨hhead, hbody⟩ := Prod.mk.inj heq
    exact eq_of_lines hhead hbody
  have hcomponents := List.map_injective_iff.mpr hinjective hsections
  obtain ⟨_, _, _⟩ := left
  obtain ⟨_, _, _⟩ := right
  simp only at hhandle hdtype hcomponents
  rw [hhandle, hdtype, hcomponents]

end Topology

end TensorFS.Go
