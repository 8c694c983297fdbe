import TensorFS.Layout.Morphism

namespace TensorFS.Go

open Data

/-! The emission-shape evaluator: integers, `dN`, products, quotients and
`ceil`.  Machine arithmetic wraps at 64 bits. -/

inductive ShapeFault where
  | empty
  | unclosed (text : Text)
  | stray (text : Text) (character : Char)
  | endsOnOperator (text : Text)
  | emptyTerm
  | notAxis (token : Text)
  | notPositive (token : Text)
  | missingAxis (text : Text) (axis rank : Nat)
  | inexact (text : Text) (value operand : Nat)
  | dividesByZero (text : Text)
  deriving DecidableEq

inductive ShapeTerm where
  | literal (divide : Bool) (value : Nat)
  | axis (divide : Bool) (axis : Nat)
  | ceiling (divide : Bool) (text : Text) (inner : List ShapeTerm)

def ShapeTerm.divide : ShapeTerm → Bool
  | .literal divide _ => divide
  | .axis divide _ => divide
  | .ceiling divide _ _ => divide

structure ShapeExpr where
  text : Text
  terms : List ShapeTerm

/-- `strconv.ParseUint` in base ten: no sign. -/
def parseUint (digits : Text) : Option Nat :=
  if digits ≠ [] ∧ digits.all isAsciiDigit ∧ digitsValue digits < 2 ^ 64 then
    some (digitsValue digits)
  else none

def unsigned (text : Text) : Text :=
  match text with
  | '+' :: digits => digits
  | '-' :: digits => digits
  | digits => digits

/-- `strconv.Atoi`: an optional sign, and a value that fits. -/
def atoi (text : Text) : Option Int :=
  if unsigned text ≠ [] ∧ (unsigned text).all isAsciiDigit then
    if text.head? = some '-' then
      if digitsValue (unsigned text) ≤ 2 ^ 63 then
        some (-(digitsValue (unsigned text) : Int))
      else none
    else if digitsValue (unsigned text) < 2 ^ 63 then
      some (digitsValue (unsigned text) : Int)
    else none
  else none

def parseExprAtom (token : Text) (divide : Bool) :
    Except ShapeFault ShapeTerm :=
  match token with
  | [] => .error .emptyTerm
  | 'd' :: digits =>
      match atoi digits with
      | none => .error (.notAxis token)
      | some axis => do
          ensure (0 ≤ axis) (.notAxis token)
          .ok (.axis divide axis.toNat)
  | _ =>
      match parseUint token with
      | none => .error (.notPositive token)
      | some literal => do
          ensure (literal ≠ 0) (.notPositive token)
          .ok (.literal divide literal)

def withoutSpaces (text : Text) : Text := text.filter (· ≠ ' ')

/-- The terms from `rest` on; every round consumes text. -/
def parseTerms :
    Nat → Text → Bool → Text → Except ShapeFault (List ShapeTerm)
  | 0, _, _, _ => .error .empty
  | rounds + 1, text, divide, rest => do
      let (term, rest) ←
        match Pattern.stripPrefix "ceil(".toList rest with
        | some _ =>
            -- The scan starts at the word, outside every bracket.
            match Formula.closing 0 rest with
            | none => .error (.unclosed text)
            | some (front, after) => do
                let body := front.drop 5
                ensure (withoutSpaces body ≠ []) .empty
                let inner ← parseTerms rounds body false (withoutSpaces body)
                .ok (.ceiling divide body inner, after)
        | none => do
            let term ← parseExprAtom
              (rest.takeWhile fun c => !Formula.isOperator c) divide
            .ok (term, rest.dropWhile fun c => !Formula.isOperator c)
      match rest with
      | [] => .ok [term]
      | c :: rest => do
          ensure (Formula.isOperator c = true) (.stray text c)
          ensure (rest ≠ []) (.endsOnOperator text)
          let terms ← parseTerms rounds text (c = '/') rest
          .ok (term :: terms)

def parseShapeExpr (text : Text) : Except ShapeFault ShapeExpr := do
  let rest := withoutSpaces text
  ensure (rest ≠ []) .empty
  let terms ← parseTerms (rest.length + 1) text false rest
  .ok ⟨text, terms⟩

section

variable (source : List UInt64)

def ceilingStep (text : Text) (divide : Bool) (value operand : Nat) :
    Except ShapeFault Nat :=
  if divide then do
    ensure (operand ≠ 0) (.dividesByZero text)
    .ok ((value + operand - 1) % 2 ^ 64 / operand)
  else .ok (value * operand % 2 ^ 64)

mutual

def ShapeTerm.operand (text : Text) : ShapeTerm → Except ShapeFault Nat
  | .literal _ value => .ok value
  | .axis _ axis =>
      match source[axis]? with
      | none => .error (.missingAxis text axis source.length)
      | some dimension => .ok dimension.toNat
  | .ceiling _ inner terms => evalCeiling inner 1 terms

def evalCeiling (text : Text) :
    Nat → List ShapeTerm → Except ShapeFault Nat
  | value, [] => .ok value
  | value, term :: terms => do
      let operand ← term.operand text
      let value ← ceilingStep text term.divide value operand
      evalCeiling text value terms

end

def exactStep (text : Text) (divide : Bool) (value operand : Nat) :
    Except ShapeFault Nat :=
  if divide then do
    ensure (operand ≠ 0 ∧ value % operand = 0) (.inexact text value operand)
    .ok (value / operand)
  else .ok (value * operand % 2 ^ 64)

def evalTerms (text : Text) :
    Nat → List ShapeTerm → Except ShapeFault Nat
  | value, [] => .ok value
  | value, term :: terms => do
      let operand ← term.operand source text
      let value ← exactStep text term.divide value operand
      evalTerms text value terms

/-- One emitted dimension. -/
def ShapeExpr.eval (expression : ShapeExpr) : Except ShapeFault Nat :=
  evalTerms source expression.text 1 expression.terms

def evalShape (formula : List ShapeExpr) : Except ShapeFault (List Nat) :=
  formula.mapM fun expression => expression.eval source

end

end TensorFS.Go
