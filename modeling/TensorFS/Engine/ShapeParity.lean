import TensorFS.Engine.ShapeExpr

namespace TensorFS

open Data

/-! One formula, two evaluators.  Both read the brackets and operators of a
text alike; they differ in the tokens they take and in how a division rounds. -/

inductive FormulaTerm where
  | atom (divide : Bool) (token : Text)
  | ceiling (divide : Bool) (body : Text) (inner : List FormulaTerm)

namespace FormulaTerm

def divide : FormulaTerm → Bool
  | .atom divide _ => divide
  | .ceiling divide _ _ => divide

mutual

def tokens : FormulaTerm → List Text
  | .atom _ token => [token]
  | .ceiling _ _ inner => tokensOf inner

def tokensOf : List FormulaTerm → List Text
  | [] => []
  | term :: terms => term.tokens ++ tokensOf terms

end

/-- The first term of a text, as a token or as the body of its brackets, and
the text behind it. -/
def readHead (inner : Text → Option (List FormulaTerm)) (divide : Bool)
    (rest : Text) : Option (FormulaTerm × Text) :=
  match Pattern.stripPrefix "ceil(".toList rest with
  | some behind =>
      (Formula.closing 1 behind).bind fun parts =>
        if parts.1 = [] then none
        else (inner parts.1).map fun terms =>
          (.ceiling divide parts.1 terms, parts.2)
  | none =>
      some (.atom divide (rest.takeWhile fun c => !Formula.isOperator c),
        rest.dropWhile fun c => !Formula.isOperator c)

def readBehind (more : Bool → Text → Option (List FormulaTerm))
    (term : FormulaTerm) : Text → Option (List FormulaTerm)
  | [] => some [term]
  | c :: rest =>
      if Formula.isOperator c = true ∧ rest ≠ [] then
        (more (c = '/') rest).map (term :: ·)
      else none

/-- The brackets and operators of a text, its tokens unread. -/
def readTerms : Nat → Bool → Text → Option (List FormulaTerm)
  | 0, _, _ => none
  | rounds + 1, divide, rest =>
      (readHead (readTerms rounds false) divide rest).bind fun head =>
        readBehind (readTerms rounds) head.1 head.2

def read (text : Text) : Option (List FormulaTerm) :=
  if Go.withoutSpaces text = [] then none
  else readTerms ((Go.withoutSpaces text).length + 1) false
    (Go.withoutSpaces text)

/-! What the two sides make of the terms. -/

section

variable (shape : List UInt64)

def atomValue (token : Text) : Option Nat :=
  (Formula.operand shape [] token).toOption

def step (ceiling divide : Bool) (value operand : Nat) : Option Nat :=
  (Formula.combine ceiling divide [] value operand).toOption

mutual

def operand : FormulaTerm → Option Nat
  | .atom _ token => atomValue shape token
  | .ceiling _ _ inner => valueOf true 1 inner

def valueOf (ceiling : Bool) : Nat → List FormulaTerm → Option Nat
  | value, [] => some value
  | value, term :: terms =>
      term.operand.bind fun operand =>
        (step ceiling term.divide value operand).bind fun value =>
          valueOf ceiling value terms

end

mutual

def parsed : FormulaTerm → Option Go.ShapeTerm
  | .atom divide token => (Go.parseExprAtom token divide).toOption
  | .ceiling divide body inner =>
      (parsedAll inner).map fun terms => .ceiling divide body terms

def parsedAll : List FormulaTerm → Option (List Go.ShapeTerm)
  | [] => some []
  | term :: terms =>
      term.parsed.bind fun first => (parsedAll terms).map (first :: ·)

end

/-! The texts both sides read alike. -/

/-- A literal with a plus sign, which one side alone takes, or an axis of minus
zero, which the other alone takes where there is an axis. -/
def foreign : Text → Bool
  | '+' :: digits => (Go.parseUint digits).any (· ≠ 0)
  | 'd' :: '-' :: digits => shape ≠ [] && Go.parseUint digits = some 0
  | _ => false

def wellFormed (token : Text) : Bool :=
  (Go.parseExprAtom token false).toOption.isSome

def otherValue (token : Text) : Option Nat :=
  (Go.parseExprAtom token false).toOption.bind fun term =>
    (term.operand shape []).toOption

mutual

def calm : FormulaTerm → Bool
  | .atom _ token => !foreign shape token
  | .ceiling _ _ inner => calmAll true 1 inner

/-- Until a step is refused, no token is foreign and no sum under a `ceil`
passes the machine word. -/
def calmAll (ceiling : Bool) : Nat → List FormulaTerm → Bool
  | _, [] => true
  | value, term :: terms =>
      term.calm && (term.operand shape).all fun operand =>
        (!(ceiling && term.divide) || value + operand ≤ 2 ^ 64) &&
          (step ceiling term.divide value operand).all fun value =>
            calmAll ceiling value terms

end

/-- Each side refuses one of the tokens, or nothing that the two take
differently is reached. -/
def common (text : Text) : Bool :=
  (read text).all fun terms =>
    ((tokensOf terms).any (fun token => (atomValue shape token).isNone) &&
      (tokensOf terms).any fun token => (otherValue shape token).isNone) ||
      calmAll shape false 1 terms

end

/-! The reading of the brackets. -/

theorem closing_eq_some {depth : Nat} {text body after : Text}
    (h : Formula.closing depth text = some (body, after)) :
    text = body ++ ')' :: after := by
  induction text generalizing depth body with
  | nil => cases h
  | cons c rest ih =>
      unfold Formula.closing at h
      split at h
      case isTrue hc =>
        cases h
        rw [hc.1]
        rfl
      case isFalse =>
        obtain ⟨⟨front, behind⟩, hparts, hpair⟩ := Option.map_eq_some_iff.mp h
        cases hpair
        rw [ih hparts]
        rfl

/-- One side scans from the word, the other from behind its bracket. -/
theorem closing_word (inner : Text) :
    Formula.closing 0 ("ceil(".toList ++ inner) =
      (Formula.closing 1 inner).map fun parts =>
        ("ceil(".toList ++ parts.1, parts.2) := by
  simp [Formula.closing, Function.comp_def]

theorem operand_text (shape : List UInt64) (text token : Text) :
    (Formula.operand shape text token).toOption = atomValue shape token := by
  unfold atomValue Formula.operand
  split
  · split
    · rfl
    · split <;> rfl
  · rfl

theorem combine_text (ceiling divide : Bool) (text : Text)
    (value operand : Nat) :
    (Formula.combine ceiling divide text value operand).toOption =
      step ceiling divide value operand := by
  unfold step Formula.combine
  split
  · simp only [toOption_bind, toOption_ensure]
    split
    · split <;> simp [toOption_bind, toOption_ensure]
    · rfl
  · rfl

theorem readBehind_none {shape : List UInt64} {term : FormulaTerm}
    {more : Bool → Text → Option (List FormulaTerm)} {rest : Text}
    {ceiling : Bool} {value : Nat} (hterm : term.operand shape = none) :
    (readBehind more term rest).bind (valueOf shape ceiling value) = none := by
  cases rest with
  | nil => simp [readBehind, valueOf, hterm]
  | cons c rest =>
      by_cases hc : Formula.isOperator c = true ∧ rest ≠ []
      · simp [readBehind, hc, Option.bind_map, Function.comp_def, valueOf,
          hterm]
      · simp [readBehind, hc]

/-- The rest of a chain behind one operand. -/
theorem chain_behind {shape : List UInt64} {rounds : Nat} {ceiling : Bool}
    {text rest : Text} {c : Char} {value operand : Nat} {term : FormulaTerm}
    (hterm : term.operand shape = some operand)
    (ih : ∀ value divide rest,
      (Formula.chain shape rounds ceiling text value divide rest).toOption =
        (readTerms rounds divide rest).bind (valueOf shape ceiling value)) :
    (do
      let value ← Formula.combine ceiling term.divide text value operand
      ensure (Formula.isOperator c = true) (.stray text c)
      ensure (rest ≠ []) (.endsOnOperator text)
      Formula.chain shape rounds ceiling text value (c = '/')
        rest).toOption =
      (readBehind (readTerms rounds) term (c :: rest)).bind
        (valueOf shape ceiling value) := by
  unfold readBehind
  simp only [toOption_bind, combine_text, toOption_ensure, ih]
  by_cases hboth : Formula.isOperator c = true ∧ rest ≠ []
  · simp only [if_pos hboth, if_pos hboth.1, if_pos hboth.2, Option.bind_some,
      Option.bind_map, Function.comp_def, valueOf, hterm]
    cases step ceiling term.divide value operand with
    | none => simp
    | some value => rfl
  · rw [if_neg hboth]
    cases step ceiling term.divide value operand with
    | none => rfl
    | some value =>
        by_cases hoperator : Formula.isOperator c = true
        · have hrest : ¬ rest ≠ [] := fun h => hboth ⟨hoperator, h⟩
          simp [hoperator, hrest]
        · simp [hoperator]

theorem chain_end {shape : List UInt64} {ceiling : Bool} {text : Text}
    {more : Bool → Text → Option (List FormulaTerm)} {value operand : Nat}
    {term : FormulaTerm} (hterm : term.operand shape = some operand) :
    (Formula.combine ceiling term.divide text value operand >>=
      fun value => .ok value).toOption =
      (readBehind more term []).bind (valueOf shape ceiling value) := by
  simp only [toOption_bind, combine_text, toOption_ok, readBehind,
    Option.bind_some, valueOf, hterm]

theorem chain_reads (shape : List UInt64) (rounds : Nat) (ceiling : Bool)
    (text : Text) (value : Nat) (divide : Bool) (rest : Text) :
    (Formula.chain shape rounds ceiling text value divide rest).toOption =
      (readTerms rounds divide rest).bind (valueOf shape ceiling value) := by
  induction rounds generalizing ceiling text value divide rest with
  | zero => rfl
  | succ rounds ih =>
      unfold Formula.chain readTerms readHead
      cases Pattern.stripPrefix "ceil(".toList rest with
      | some inner =>
          dsimp only
          cases Formula.closing 1 inner with
          | none => rfl
          | some parts =>
              obtain ⟨body, after⟩ := parts
              dsimp only [Option.bind_some]
              by_cases hbody : body = []
              · simp [hbody, toOption_bind, toOption_ensure]
              rw [if_neg hbody, toOption_bind, toOption_ensure, if_pos hbody,
                Option.bind_some, toOption_bind, ih true body 1 false body]
              cases hinner : readTerms rounds false body with
              | none => rfl
              | some terms =>
                  let term := FormulaTerm.ceiling divide body terms
                  simp only [Option.bind_some, Option.map_some]
                  cases hterm : valueOf shape true 1 terms with
                  | none =>
                      exact (@readBehind_none shape term _ _ _ _ hterm).symm
                  | some operand =>
                      cases after with
                      | nil => exact @chain_end shape _ _ _ _ _ term hterm
                      | cons c after =>
                          exact @chain_behind shape _ _ _ _ _ _ _ term hterm
                            (ih ceiling text)
      | none =>
          let term := FormulaTerm.atom divide
            (rest.takeWhile fun c => !Formula.isOperator c)
          dsimp only
          rw [toOption_bind, operand_text]
          cases hterm : atomValue shape
              (rest.takeWhile fun c => !Formula.isOperator c) with
          | none => exact (@readBehind_none shape term _ _ _ _ hterm).symm
          | some operand =>
              simp only [Option.bind_some, except_ok_bind]
              cases rest.dropWhile fun c => !Formula.isOperator c with
              | nil => exact @chain_end shape _ _ _ _ _ term hterm
              | cons c after =>
                  exact @chain_behind shape _ _ _ _ _ _ _ term hterm
                    (ih ceiling text)

theorem eval_reads (text : Text) (shape : List UInt64) :
    (Formula.eval text shape).toOption =
      (read text).bind (valueOf shape false 1) := by
  unfold Formula.eval read
  change (do
    ensure (Go.withoutSpaces text ≠ []) FormulaFault.empty
    Formula.chain shape ((Go.withoutSpaces text).length + 1) false
      (Go.withoutSpaces text) 1 false (Go.withoutSpaces text)).toOption = _
  rw [toOption_bind, toOption_ensure]
  by_cases hempty : Go.withoutSpaces text = []
  · simp [hempty]
  · rw [if_pos hempty, if_neg hempty, Option.bind_some, chain_reads]

theorem parse_behind {text rest : Text} {rounds : Nat} {c : Char}
    {term : FormulaTerm} {first : Go.ShapeTerm}
    (hterm : term.parsed = some first)
    (ih : ∀ divide, (Go.parseTerms rounds text divide rest).toOption =
      (readTerms rounds divide rest).bind parsedAll) :
    (do
      ensure (Formula.isOperator c = true) (Go.ShapeFault.stray text c)
      ensure (rest ≠ []) (.endsOnOperator text)
      let terms ← Go.parseTerms rounds text (c = '/') rest
      .ok (first :: terms)).toOption =
      (readBehind (readTerms rounds) term (c :: rest)).bind parsedAll := by
  unfold readBehind
  simp only [toOption_bind, toOption_ensure, ih, toOption_ok]
  by_cases hboth : Formula.isOperator c = true ∧ rest ≠ []
  · simp only [if_pos hboth, if_pos hboth.1, if_pos hboth.2, Option.bind_some,
      Option.bind_map, Function.comp_def, parsedAll, hterm]
    cases readTerms rounds (c = '/') rest with
    | none => rfl
    | some terms => simp [Option.map_eq_bind]
  · rw [if_neg hboth]
    by_cases hoperator : Formula.isOperator c = true
    · have hrest : ¬ rest ≠ [] := fun h => hboth ⟨hoperator, h⟩
      simp [hoperator, hrest]
    · simp [hoperator]

theorem parse_none {term : FormulaTerm}
    {more : Bool → Text → Option (List FormulaTerm)} {rest : Text}
    (hterm : term.parsed = none) :
    (readBehind more term rest).bind parsedAll = none := by
  cases rest with
  | nil => simp [readBehind, parsedAll, hterm]
  | cons c rest =>
      by_cases hc : Formula.isOperator c = true ∧ rest ≠ []
      · simp [readBehind, hc, Option.bind_map, Function.comp_def, parsedAll,
          hterm]
      · simp [readBehind, hc]

theorem parse_end {term : FormulaTerm} {first : Go.ShapeTerm}
    {more : Bool → Text → Option (List FormulaTerm)}
    (hterm : term.parsed = some first) :
    (Except.ok [first] : Except Go.ShapeFault _).toOption =
      (readBehind more term []).bind parsedAll := by
  simp [readBehind, parsedAll, hterm]

theorem withoutSpaces_of {text : Text} (h : ' ' ∉ text) :
    Go.withoutSpaces text = text := by
  refine List.filter_eq_self.mpr fun c hc => ?_
  simp only [ne_eq, decide_not, Bool.not_eq_true', decide_eq_false_iff_not]
  rintro rfl
  exact h hc

theorem parse_reads (rounds : Nat) (text : Text) (divide : Bool)
    (rest : Text) (hspace : ' ' ∉ rest) :
    (Go.parseTerms rounds text divide rest).toOption =
      (readTerms rounds divide rest).bind parsedAll := by
  induction rounds generalizing text divide rest with
  | zero => rfl
  | succ rounds ih =>
      unfold Go.parseTerms readTerms readHead
      cases hword : Pattern.stripPrefix "ceil(".toList rest with
      | some inner =>
          have hrest := Pattern.stripPrefix_eq_some.mp hword
          dsimp only
          rw [hrest, closing_word]
          cases hclosing : Formula.closing 1 inner with
          | none => rfl
          | some parts =>
              obtain ⟨body, after⟩ := parts
              have hinner := closing_eq_some hclosing
              have hbodySpace : ' ' ∉ body := by
                intro h
                apply hspace
                simp [hrest, hinner, h]
              have hafterSpace : ' ' ∉ after := by
                intro h
                apply hspace
                simp [hrest, hinner, h]
              have hdrop : ("ceil(".toList ++ body).drop 5 = body := rfl
              simp only [Option.map_some, Option.bind_some, hdrop,
                withoutSpaces_of hbodySpace]
              by_cases hbody : body = []
              · simp [hbody, toOption_bind, toOption_ensure]
              rw [if_neg hbody, toOption_bind, toOption_ensure, if_pos hbody,
                Option.bind_some, toOption_bind,
                ih body false body hbodySpace]
              cases readTerms rounds false body with
              | none => rfl
              | some terms =>
                  let term := FormulaTerm.ceiling divide body terms
                  simp only [Option.bind_some, Option.map_some]
                  cases hterms : parsedAll terms with
                  | none =>
                      have hterm : term.parsed = none := by
                        simp [term, parsed, hterms]
                      exact (parse_none hterm).symm
                  | some parsedTerms =>
                      have hterm : term.parsed =
                          some (.ceiling divide body parsedTerms) := by
                        simp [term, parsed, hterms]
                      cases after with
                      | nil => exact parse_end hterm
                      | cons c after =>
                          have hmore : ' ' ∉ after := fun h =>
                            hafterSpace (List.mem_cons_of_mem c h)
                          exact parse_behind hterm fun divide =>
                            ih text divide after hmore
      | none =>
          let term := FormulaTerm.atom divide
            (rest.takeWhile fun c => !Formula.isOperator c)
          dsimp only
          rw [toOption_bind]
          cases hterm : (Go.parseExprAtom
              (rest.takeWhile fun c => !Formula.isOperator c)
              divide).toOption with
          | none => exact (@parse_none term _ _ hterm).symm
          | some first =>
              simp only [Option.bind_some, except_ok_bind]
              cases hafter : rest.dropWhile fun c => !Formula.isOperator c with
              | nil => exact @parse_end term _ _ hterm
              | cons c after =>
                  have hmore : ' ' ∉ after := fun h => hspace
                    ((List.dropWhile_sublist _).subset
                      (hafter ▸ List.mem_cons_of_mem c h))
                  exact @parse_behind _ _ _ _ term _ hterm fun divide =>
                    ih text divide after hmore

/-! The tokens. -/

theorem parseU64_plus (digits : Text) :
    parseU64 ('+' :: digits) = Go.parseUint digits := by
  simp [parseU64, Go.parseUint]

theorem parseU64_bare {text : Text} (h : text.head? ≠ some '+') :
    parseU64 text = Go.parseUint text := by
  simp [parseU64, Go.parseUint, h]

theorem parseUint_sign {c : Char} {digits : Text}
    (hc : isAsciiDigit c = false) : Go.parseUint (c :: digits) = none := by
  simp [Go.parseUint, hc]

theorem atoi_minus (digits : Text) :
    Go.atoi ('-' :: digits) =
      (Go.parseUint digits).bind fun value =>
        if value ≤ 2 ^ 63 then some (-(value : Int)) else none := by
  simp only [Go.atoi, Go.unsigned, Go.parseUint, List.head?_cons]
  split_ifs <;> simp_all
  omega

theorem unsigned_of_not_minus {text : Text} (h : text.head? ≠ some '-') :
    Go.unsigned text =
      if text.head? = some '+' then text.tail else text := by
  unfold Go.unsigned
  split
  · rfl
  · exact absurd rfl h
  · next hplus _ =>
      cases text with
      | nil => rfl
      | cons c text =>
          have hc : c ≠ '+' := fun hc => hplus text (by rw [hc])
          simp [hc]

theorem atoi_of_not_minus {text : Text} (h : text.head? ≠ some '-') :
    Go.atoi text = (parseU64 text).bind fun value =>
      if value < 2 ^ 63 then some (value : Int) else none := by
  simp only [Go.atoi, parseU64, unsigned_of_not_minus h, h, if_false]
  split_ifs <;> simp_all <;> omega

theorem axis_atom (digits : Text) (divide : Bool) :
    (Go.parseExprAtom ('d' :: digits) divide).toOption =
      (Go.atoi digits).bind fun axis =>
        if 0 ≤ axis then some (.axis divide axis.toNat) else none := by
  simp only [Go.parseExprAtom]
  cases Go.atoi digits with
  | none => rfl
  | some axis =>
      simp only [Option.bind_some, toOption_bind, toOption_ensure]
      split <;> rfl

theorem literal_atom {token : Text} (divide : Bool)
    (haxis : token.head? ≠ some 'd') :
    (Go.parseExprAtom token divide).toOption =
      (Go.parseUint token).bind fun literal =>
        if literal ≠ 0 then some (.literal divide literal) else none := by
  unfold Go.parseExprAtom
  split
  · rfl
  · exact absurd rfl haxis
  · cases Go.parseUint token with
    | none => rfl
    | some literal =>
        simp only [Option.bind_some, toOption_bind, toOption_ensure]
        split <;> rfl

theorem axis_value (shape : List UInt64) (digits : Text) :
    atomValue shape ('d' :: digits) =
      (parseU64 digits).bind fun axis => shape[axis]?.map UInt64.toNat := by
  simp only [atomValue, Formula.operand]
  cases parseU64 digits with
  | none => rfl
  | some axis => cases h : shape[axis]? <;> simp [h]

theorem literal_value (shape : List UInt64) {token : Text}
    (haxis : token.head? ≠ some 'd') :
    atomValue shape token =
      (parseU64 token).bind fun literal =>
        if literal ≠ 0 then some literal else none := by
  unfold atomValue Formula.operand
  split
  · exact absurd rfl haxis
  · cases parseU64 token with
    | none => rfl
    | some literal =>
        simp only [Option.bind_some, toOption_bind, toOption_ensure]
        split <;> rfl

theorem axis_operand (shape : List UInt64) (divide : Bool) (axis : Nat)
    (text : Text) :
    ((Go.ShapeTerm.axis divide axis).operand shape text).toOption =
      shape[axis]?.map UInt64.toNat := by
  simp only [Go.ShapeTerm.operand]
  cases shape[axis]? <;> rfl

theorem axis_other (shape : List UInt64) (digits : Text) (divide : Bool)
    (text : Text) :
    ((Go.parseExprAtom ('d' :: digits) divide).toOption.bind fun term =>
        (term.operand shape text).toOption) =
      (Go.atoi digits).bind fun axis =>
        if 0 ≤ axis then shape[axis.toNat]?.map UInt64.toNat else none := by
  rw [axis_atom]
  cases Go.atoi digits with
  | none => rfl
  | some axis =>
      simp only [Option.bind_some]
      split
      · exact axis_operand shape divide axis.toNat text
      · rfl

theorem literal_other (shape : List UInt64) {token : Text} (divide : Bool)
    (haxis : token.head? ≠ some 'd') (text : Text) :
    ((Go.parseExprAtom token divide).toOption.bind fun term =>
        (term.operand shape text).toOption) =
      (Go.parseUint token).bind fun literal =>
        if literal ≠ 0 then some literal else none := by
  rw [literal_atom divide haxis]
  cases Go.parseUint token with
  | none => rfl
  | some literal =>
      simp only [Option.bind_some]
      split <;> rfl

/-- Neither the operator before a token nor the text around it matters. -/
theorem otherValue_eq (shape : List UInt64) (token : Text) (divide : Bool)
    (text : Text) :
    ((Go.parseExprAtom token divide).toOption.bind fun term =>
        (term.operand shape text).toOption) = otherValue shape token := by
  unfold otherValue
  by_cases haxis : token.head? = some 'd'
  · obtain ⟨digits, rfl⟩ := List.head?_eq_some_iff.mp haxis
    rw [axis_other, axis_other]
  · rw [literal_other shape divide haxis, literal_other shape false haxis]

theorem axis_agrees {shape : List UInt64} (hshape : shape.length < 2 ^ 63)
    (digits : Text) :
    atomValue shape ('d' :: digits) = otherValue shape ('d' :: digits) ↔
      foreign shape ('d' :: digits) = false := by
  rw [otherValue, axis_value, axis_other]
  by_cases hminus : digits.head? = some '-'
  · obtain ⟨rest, rfl⟩ := List.head?_eq_some_iff.mp hminus
    rw [parseU64_bare (by simp), parseUint_sign (by decide), atoi_minus]
    cases hrest : Go.parseUint rest with
    | none => simp [foreign, hrest]
    | some value =>
        simp only [foreign, hrest, Option.bind_some, Option.bind_none]
        by_cases hzero : value = 0
        · subst hzero
          cases shape <;> simp
        · split <;> simp [hzero]
  · have hnative : foreign shape ('d' :: digits) = false := by
      unfold foreign
      split
      · rename_i heq
        cases heq
      · rename_i rest heq
        cases heq
        exact absurd rfl hminus
      · rfl
    rw [atoi_of_not_minus hminus]
    refine iff_of_true ?_ hnative
    cases parseU64 digits with
    | none => rfl
    | some axis =>
        simp only [Option.bind_some]
        by_cases haxis : axis < 2 ^ 63
        · rw [if_pos haxis, Option.bind_some, if_pos (by omega),
            Int.toNat_natCast]
        · have hnone : shape[axis]? = none := by
            rw [List.getElem?_eq_none_iff]
            omega
          rw [if_neg haxis, hnone]
          rfl

theorem literal_agrees (shape : List UInt64) {token : Text}
    (haxis : token.head? ≠ some 'd') :
    atomValue shape token = otherValue shape token ↔
      foreign shape token = false := by
  rw [otherValue, literal_value shape haxis, literal_other shape false haxis]
  by_cases hplus : token.head? = some '+'
  · obtain ⟨digits, rfl⟩ := List.head?_eq_some_iff.mp hplus
    rw [parseU64_plus, parseUint_sign (by decide)]
    cases hdigits : Go.parseUint digits with
    | none => simp [foreign, hdigits]
    | some literal => simp [foreign, hdigits]
  · have hnative : foreign shape token = false := by
      unfold foreign
      split
      · exact absurd rfl hplus
      · exact absurd rfl haxis
      · rfl
    rw [parseU64_bare hplus]
    exact iff_of_true rfl hnative

/-- The two sides take a token alike exactly where it is not foreign. -/
theorem atom_agrees {shape : List UInt64} (hshape : shape.length < 2 ^ 63)
    (token : Text) :
    atomValue shape token = otherValue shape token ↔
      foreign shape token = false := by
  by_cases haxis : token.head? = some 'd'
  · obtain ⟨digits, rfl⟩ := List.head?_eq_some_iff.mp haxis
    exact axis_agrees hshape digits
  · exact literal_agrees shape haxis

/-- Whether a token is read does not depend on the operator before it. -/
theorem wellFormed_divide (token : Text) (divide : Bool) :
    (Go.parseExprAtom token divide).toOption.isSome = wellFormed token := by
  unfold wellFormed
  by_cases haxis : token.head? = some 'd'
  · obtain ⟨digits, rfl⟩ := List.head?_eq_some_iff.mp haxis
    rw [axis_atom, axis_atom]
    cases Go.atoi digits with
    | none => rfl
    | some axis =>
        simp only [Option.bind_some]
        split <;> rfl
  · rw [literal_atom divide haxis, literal_atom false haxis]
    cases Go.parseUint token with
    | none => rfl
    | some literal =>
        simp only [Option.bind_some]
        split <;> rfl

theorem otherValue_none (shape : List UInt64) {token : Text}
    (h : wellFormed token = false) : otherValue shape token = none := by
  have hnone : (Go.parseExprAtom token false).toOption = none := by
    simpa [wellFormed] using h
  rw [otherValue, hnone]
  rfl

/-! The terms. -/

theorem parsed_divide {term : FormulaTerm} {first : Go.ShapeTerm}
    (h : term.parsed = some first) : first.divide = term.divide := by
  cases term with
  | atom divide token =>
      rw [parsed] at h
      by_cases haxis : token.head? = some 'd'
      · obtain ⟨digits, rfl⟩ := List.head?_eq_some_iff.mp haxis
        rw [axis_atom, Option.bind_eq_some_iff] at h
        obtain ⟨axis, _, hterm⟩ := h
        split at hterm
        · cases hterm
          rfl
        · cases hterm
      · rw [literal_atom divide haxis, Option.bind_eq_some_iff] at h
        obtain ⟨literal, _, hterm⟩ := h
        split at hterm
        · cases hterm
          rfl
        · cases hterm
  | ceiling divide body inner =>
      rw [parsed, Option.map_eq_some_iff] at h
      obtain ⟨terms, _, rfl⟩ := h
      rfl

mutual

theorem operand_none {shape : List UInt64} {token : Text}
    (h : atomValue shape token = none) :
    ∀ term : FormulaTerm, token ∈ term.tokens → term.operand shape = none
  | .atom _ other, hmem => by
      obtain rfl : token = other := by simpa [tokens] using hmem
      exact h
  | .ceiling _ _ inner, hmem => valueOf_none h true inner 1 hmem

theorem valueOf_none {shape : List UInt64} {token : Text}
    (h : atomValue shape token = none) (ceiling : Bool) :
    ∀ (terms : List FormulaTerm) (value : Nat), token ∈ tokensOf terms →
      valueOf shape ceiling value terms = none
  | [], _, hmem => by simp [tokensOf] at hmem
  | term :: terms, value, hmem => by
      rw [tokensOf, List.mem_append] at hmem
      rw [valueOf]
      rcases hmem with hterm | hterms
      · rw [operand_none h term hterm]
        rfl
      · cases term.operand shape with
        | none => rfl
        | some operand =>
            rw [Option.bind_some]
            cases step ceiling term.divide value operand with
            | none => rfl
            | some value => exact valueOf_none h ceiling terms value hterms

end

mutual

theorem parsed_none :
    ∀ term : FormulaTerm,
      term.parsed = none ↔ ∃ token ∈ term.tokens, wellFormed token = false
  | .atom divide token => by
      simp [tokens, parsed, ← wellFormed_divide token divide]
  | .ceiling divide body inner => by
      simp only [parsed, tokens, Option.map_eq_none_iff, parsedAll_none inner]

theorem parsedAll_none :
    ∀ terms : List FormulaTerm,
      parsedAll terms = none ↔
        ∃ token ∈ tokensOf terms, wellFormed token = false
  | [] => by simp [parsedAll, tokensOf]
  | term :: terms => by
      simp only [parsedAll, tokensOf, List.mem_append, or_and_right,
        exists_or, ← parsed_none term, ← parsedAll_none terms]
      cases term.parsed <;> simp

end

mutual

theorem other_operand_none {shape : List UInt64} {token : Text}
    (h : otherValue shape token = none) :
    ∀ (term : FormulaTerm) (first : Go.ShapeTerm) (text : Text),
      token ∈ term.tokens → term.parsed = some first →
      (first.operand shape text).toOption = none
  | .atom divide other, first, text, hmem, hparsed => by
      obtain rfl : token = other := by simpa [tokens] using hmem
      rw [← otherValue_eq shape token divide text] at h
      rw [parsed] at hparsed
      rwa [hparsed] at h
  | .ceiling divide body inner, first, text, hmem, hparsed => by
      rw [parsed, Option.map_eq_some_iff] at hparsed
      obtain ⟨terms, hterms, rfl⟩ := hparsed
      rw [Go.ShapeTerm.operand]
      exact other_ceiling_none h inner terms 1 body hmem hterms

theorem other_ceiling_none {shape : List UInt64} {token : Text}
    (h : otherValue shape token = none) :
    ∀ (terms : List FormulaTerm) (others : List Go.ShapeTerm) (value : Nat)
      (text : Text), token ∈ tokensOf terms → parsedAll terms = some others →
      (Go.evalCeiling shape text value others).toOption = none
  | [], _, _, _, hmem, _ => by simp [tokensOf] at hmem
  | term :: terms, others, value, text, hmem, hparsed => by
      rw [parsedAll, Option.bind_eq_some_iff] at hparsed
      obtain ⟨first, hfirst, hmap⟩ := hparsed
      obtain ⟨rest, hrest, rfl⟩ := Option.map_eq_some_iff.mp hmap
      rw [tokensOf, List.mem_append] at hmem
      rw [Go.evalCeiling, toOption_bind]
      rcases hmem with hterm | hterms
      · rw [other_operand_none h term first text hterm hfirst]
        rfl
      · cases (first.operand shape text).toOption with
        | none => rfl
        | some operand =>
            rw [Option.bind_some, toOption_bind]
            cases (Go.ceilingStep text first.divide value operand).toOption with
            | none => rfl
            | some value =>
                exact other_ceiling_none h terms rest value text hterms hrest

end

theorem other_terms_none {shape : List UInt64} {token : Text}
    (h : otherValue shape token = none) {terms : List FormulaTerm}
    {others : List Go.ShapeTerm} {value : Nat} {text : Text}
    (hmem : token ∈ tokensOf terms) (hparsed : parsedAll terms = some others) :
    (Go.evalTerms shape text value others).toOption = none := by
  induction terms generalizing others value with
  | nil => simp [tokensOf] at hmem
  | cons term terms ih =>
      rw [parsedAll, Option.bind_eq_some_iff] at hparsed
      obtain ⟨first, hfirst, hmap⟩ := hparsed
      obtain ⟨rest, hrest, rfl⟩ := Option.map_eq_some_iff.mp hmap
      rw [tokensOf, List.mem_append] at hmem
      rw [Go.evalTerms, toOption_bind]
      rcases hmem with hterm | hterms
      · rw [other_operand_none h term first text hterm hfirst]
        rfl
      · cases (first.operand shape text).toOption with
        | none => rfl
        | some operand =>
            rw [Option.bind_some, toOption_bind]
            cases (Go.exactStep text first.divide value operand).toOption with
            | none => rfl
            | some value => exact ih hterms hrest

/-! The steps. -/

theorem ceilingStep_agrees {divide : Bool} {value operand : Nat}
    (h : divide = true → value + operand ≤ 2 ^ 64) (text : Text) :
    (Go.ceilingStep text divide value operand).toOption =
      step true divide value operand := by
  unfold Go.ceilingStep step Formula.combine
  cases divide with
  | false => rfl
  | true =>
      have hsum := h rfl
      simp only [if_true, toOption_bind, toOption_ensure]
      by_cases hoperand : operand ≠ 0
      · have hword : value + operand - 1 < 2 ^ 64 := by omega
        simp only [if_pos hoperand, Option.bind_some, toOption_ok,
          Nat.mod_eq_of_lt hword]
      · simp [hoperand]

theorem exactStep_agrees (divide : Bool) (value operand : Nat)
    (text : Text) :
    (Go.exactStep text divide value operand).toOption =
      step false divide value operand := by
  unfold Go.exactStep step Formula.combine
  cases divide with
  | false => rfl
  | true =>
      simp only [if_true, toOption_bind, toOption_ensure, toOption_ok,
        Nat.dvd_iff_mod_eq_zero, Bool.false_eq_true, if_false]
      by_cases hoperand : operand ≠ 0
      · by_cases hexact : value % operand = 0
        · simp [hoperand, hexact]
        · simp [hoperand, hexact]
      · simp [hoperand]

mutual

/-- A term with a value has had all its tokens read. -/
theorem operand_reads {shape : List UInt64} :
    ∀ (term : FormulaTerm) (operand : Nat), term.calm shape = true →
      term.operand shape = some operand →
      ∀ token ∈ term.tokens, foreign shape token = false
  | .atom divide other, operand, hcalm, _, token, hmem => by
      obtain rfl : token = other := by simpa [tokens] using hmem
      simpa [calm] using hcalm
  | .ceiling divide body inner, operand, hcalm, hvalue, token, hmem =>
      valueOf_reads true inner 1 operand hcalm hvalue token hmem

theorem valueOf_reads {shape : List UInt64} (ceiling : Bool) :
    ∀ (terms : List FormulaTerm) (value result : Nat),
      calmAll shape ceiling value terms = true →
      valueOf shape ceiling value terms = some result →
      ∀ token ∈ tokensOf terms, foreign shape token = false
  | [], _, _, _, _, token, hmem => by simp [tokensOf] at hmem
  | term :: terms, value, result, hcalm, hvalue, token, hmem => by
      rw [calmAll, Bool.and_eq_true] at hcalm
      obtain ⟨hterm, hall⟩ := hcalm
      rw [valueOf, Option.bind_eq_some_iff] at hvalue
      obtain ⟨operand, hoperand, hrest⟩ := hvalue
      obtain ⟨next, hstep, hnext⟩ := Option.bind_eq_some_iff.mp hrest
      rw [hoperand, Option.all_some, Bool.and_eq_true, hstep,
        Option.all_some] at hall
      rw [tokensOf, List.mem_append] at hmem
      rcases hmem with hmem | hmem
      · exact operand_reads term operand hterm hoperand token hmem
      · exact valueOf_reads ceiling terms next result hall.2 hnext token hmem

end

mutual

theorem operand_agrees {shape : List UInt64}
    (hshape : shape.length < 2 ^ 63) :
    ∀ (term : FormulaTerm) (first : Go.ShapeTerm) (text : Text),
      term.calm shape = true → term.parsed = some first →
      (first.operand shape text).toOption = term.operand shape
  | .atom divide token, first, text, hcalm, hparsed => by
      have htoken : foreign shape token = false := by simpa [calm] using hcalm
      rw [operand, (atom_agrees hshape token).mpr htoken,
        ← otherValue_eq shape token divide text]
      rw [parsed] at hparsed
      rw [hparsed]
      rfl
  | .ceiling divide body inner, first, text, hcalm, hparsed => by
      rw [parsed, Option.map_eq_some_iff] at hparsed
      obtain ⟨terms, hterms, rfl⟩ := hparsed
      rw [Go.ShapeTerm.operand, operand]
      exact ceiling_agrees hshape inner terms 1 body hcalm hterms

theorem ceiling_agrees {shape : List UInt64}
    (hshape : shape.length < 2 ^ 63) :
    ∀ (terms : List FormulaTerm) (others : List Go.ShapeTerm) (value : Nat)
      (text : Text), calmAll shape true value terms = true →
      parsedAll terms = some others →
      (Go.evalCeiling shape text value others).toOption =
        valueOf shape true value terms
  | [], others, value, text, _, hparsed => by
      cases hparsed
      rw [Go.evalCeiling, valueOf]
      rfl
  | term :: terms, others, value, text, hcalm, hparsed => by
      rw [parsedAll, Option.bind_eq_some_iff] at hparsed
      obtain ⟨first, hfirst, hmap⟩ := hparsed
      obtain ⟨rest, hrest, rfl⟩ := Option.map_eq_some_iff.mp hmap
      rw [calmAll, Bool.and_eq_true] at hcalm
      obtain ⟨hterm, hall⟩ := hcalm
      rw [Go.evalCeiling, valueOf, toOption_bind,
        operand_agrees hshape term first text hterm hfirst]
      cases hoperand : term.operand shape with
      | none => rfl
      | some operand =>
          rw [hoperand, Option.all_some, Bool.and_eq_true] at hall
          obtain ⟨hsum, hnext⟩ := hall
          have hdivide := parsed_divide hfirst
          rw [Option.bind_some, Option.bind_some, toOption_bind, hdivide,
            ceilingStep_agrees (fun h => by simpa [h] using hsum) text]
          cases hstep : step true term.divide value operand with
          | none => rfl
          | some value =>
              rw [hstep, Option.all_some] at hnext
              exact ceiling_agrees hshape terms rest value text hnext hrest

end

theorem exact_agrees {shape : List UInt64} (hshape : shape.length < 2 ^ 63)
    {terms : List FormulaTerm} {others : List Go.ShapeTerm} {value : Nat}
    {text : Text} (hcalm : calmAll shape false value terms = true)
    (hparsed : parsedAll terms = some others) :
    (Go.evalTerms shape text value others).toOption =
      valueOf shape false value terms := by
  induction terms generalizing others value with
  | nil =>
      cases hparsed
      rfl
  | cons term terms ih =>
      rw [parsedAll, Option.bind_eq_some_iff] at hparsed
      obtain ⟨first, hfirst, hmap⟩ := hparsed
      obtain ⟨rest, hrest, rfl⟩ := Option.map_eq_some_iff.mp hmap
      rw [calmAll, Bool.and_eq_true] at hcalm
      obtain ⟨hterm, hall⟩ := hcalm
      rw [Go.evalTerms, valueOf, toOption_bind,
        operand_agrees hshape term first text hterm hfirst]
      cases hoperand : term.operand shape with
      | none => rfl
      | some operand =>
          rw [hoperand, Option.all_some, Bool.and_eq_true] at hall
          obtain ⟨_, hnext⟩ := hall
          rw [Option.bind_some, Option.bind_some, toOption_bind,
            parsed_divide hfirst, exactStep_agrees]
          cases hstep : step false term.divide value operand with
          | none => rfl
          | some value =>
              rw [hstep, Option.all_some] at hnext
              exact ih hnext hrest

theorem parseShapeExpr_reads (text : Text) (shape : List UInt64) :
    (Go.parseShapeExpr text >>= fun expression =>
        expression.eval shape).toOption =
      (read text).bind fun terms => (parsedAll terms).bind fun others =>
        (Go.evalTerms shape text 1 others).toOption := by
  unfold Go.parseShapeExpr read
  simp only [toOption_bind, toOption_ensure]
  by_cases hempty : Go.withoutSpaces text = []
  · simp [hempty]
  · have hspace : ' ' ∉ Go.withoutSpaces text := by
      simp [Go.withoutSpaces]
    rw [if_pos hempty, if_neg hempty, Option.bind_some,
      parse_reads _ _ _ _ hspace]
    cases readTerms ((Go.withoutSpaces text).length + 1) false
        (Go.withoutSpaces text) with
    | none => rfl
    | some terms =>
        simp only [Option.bind_some]
        cases parsedAll terms <;> rfl

end FormulaTerm

open FormulaTerm in
/-- On the common texts the two evaluators agree: one value, or no value. The
length of a slice is an `int`. -/
theorem formula_agrees {shape : List UInt64} (hshape : shape.length < 2 ^ 63)
    {text : Text} (hcommon : common shape text = true) :
    (Formula.eval text shape).toOption =
      (Go.parseShapeExpr text >>= fun expression =>
        expression.eval shape).toOption := by
  rw [eval_reads, parseShapeExpr_reads]
  unfold common at hcommon
  cases hread : read text with
  | none => rfl
  | some terms =>
      rw [hread, Option.all_some, Bool.or_eq_true] at hcommon
      simp only [Option.bind_some]
      rcases hcommon with hrefused | hcalm
      · simp only [Bool.and_eq_true, List.any_eq_true,
          Option.isNone_iff_eq_none] at hrefused
        obtain ⟨⟨token, hmem, htoken⟩, other, hmemOther, hother⟩ := hrefused
        rw [valueOf_none htoken false terms 1 hmem]
        cases hparsed : parsedAll terms with
        | none => rfl
        | some others => exact (other_terms_none hother hmemOther hparsed).symm
      · cases hparsed : parsedAll terms with
        | some others => exact (exact_agrees hshape hcalm hparsed).symm
        | none =>
            -- A value would have had the token that the other side refuses
            -- read before it, and so not foreign.
            obtain ⟨token, hmem, hill⟩ := (parsedAll_none terms).mp hparsed
            cases hvalue : valueOf shape false 1 terms with
            | none => rfl
            | some value =>
                have hforeign := valueOf_reads false terms 1 value hcalm hvalue
                  token hmem
                have htoken := (atom_agrees hshape token).mpr hforeign
                rw [otherValue_none shape hill] at htoken
                rw [valueOf_none htoken false terms 1 hmem] at hvalue
                cases hvalue

/-- A signed literal behind a missing axis is not reached. -/
theorem formula_agrees_padding :
    ((Formula.eval "ceil(d0 / 16) * 16".toList [100, 3]).toOption =
      (Go.parseShapeExpr "ceil(d0 / 16) * 16".toList >>= fun expression =>
        expression.eval [100, 3]).toOption) ∧
    ((Formula.eval "d5*+2".toList [7]).toOption =
      (Go.parseShapeExpr "d5*+2".toList >>= fun expression =>
        expression.eval [7]).toOption) :=
  ⟨formula_agrees (by decide) (by decide +kernel),
    formula_agrees (by decide) (by decide +kernel)⟩

/-- A signed literal, an axis of minus zero, and a sum past the machine word. -/
theorem evaluators_differ :
    ((Formula.eval "+2".toList []).toOption = some 2 ∧
      (Go.parseShapeExpr "+2".toList >>= fun expression =>
        expression.eval []).toOption = none) ∧
    ((Formula.eval "d-0".toList [7]).toOption = none ∧
      (Go.parseShapeExpr "d-0".toList >>= fun expression =>
        expression.eval [7]).toOption = some 7) ∧
    ((Formula.eval "ceil(d0/2)".toList [2 ^ 64 - 1]).toOption =
        some (2 ^ 63) ∧
      (Go.parseShapeExpr "ceil(d0/2)".toList >>= fun expression =>
        expression.eval [2 ^ 64 - 1]).toOption = some 0) := by
  decide +kernel

end TensorFS
