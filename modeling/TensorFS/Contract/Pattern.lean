import TensorFS.Data.Json
import TensorFS.Tfm1.Types

namespace TensorFS

open Data

/-! Tensor-name patterns: literal text with integer holes. -/

inductive Piece where
  | literal (text : Text)
  | integer
  deriving DecidableEq

namespace Piece

def isInteger : Piece → Bool
  | integer => true
  | literal _ => false

/-- A brace left in a literal is a hole the parser did not understand. -/
def hasBrace : Piece → Bool
  | literal text => text.any fun c => c = '{' || c = '}'
  | integer => false

end Piece

structure Pattern where
  pieces : List Piece
  text : Text
  deriving DecidableEq

namespace Pattern

/-- The text before and after the first hole. -/
def findHole : Text → Option (Text × Text)
  | [] => none
  | c :: rest =>
      if c = '{' ∧ rest.take 2 = ['i', '}'] then
        some ([], rest.drop 2)
      else
        (findHole rest).map fun parts => (c :: parts.1, parts.2)

/-- The pieces still to come after `lastWasHole`; every round consumes a hole,
so the text's own length bounds the rounds. -/
def parsePieces : Nat → Bool → Text → Option (List Piece)
  | _, _, [] => some []
  | 0, _, _ :: _ => none
  | rounds + 1, lastWasHole, rest =>
      match findHole rest with
      | none => some [.literal rest]
      | some (before, after) =>
          if before = [] ∧ lastWasHole then none
          else if after.head?.any isAsciiDigit then none
          else
            (parsePieces rounds true after).map fun pieces =>
              (if before = [] then [] else [.literal before]) ++
                .integer :: pieces

def maxPatternBytes : Nat := 512

def parse (text : Text) : Except ContractError Pattern := do
  ensure (text ≠ [] ∧ text.utf8Len ≤ maxPatternBytes) (.pattern text)
  match parsePieces (text.length + 1) false text with
  | none => .error (.pattern text)
  | some pieces => do
      ensure (pieces.any Piece.hasBrace = false) (.pattern text)
      .ok ⟨pieces, text⟩

def holes (pattern : Pattern) : Nat := pattern.pieces.countP Piece.isInteger

def stripPrefix : Text → Text → Option Text
  | [], rest => some rest
  | _ :: _, [] => none
  | c :: front, d :: rest => if c = d then stripPrefix front rest else none

theorem stripPrefix_eq_some {front text rest : Text} :
    stripPrefix front text = some rest ↔ text = front ++ rest := by
  induction front generalizing text with
  | nil => simp [stripPrefix, eq_comm]
  | cons c front ih =>
      cases text with
      | nil => simp [stripPrefix]
      | cons d text =>
          by_cases hc : c = d
          · subst hc
            simp [stripPrefix, ih]
          · simp [stripPrefix, hc, eq_comm]

def capturesFrom : List Piece → Text → Option (List Nat)
  | [], rest => if rest = [] then some [] else none
  | .literal text :: pieces, rest => do
      let rest ← stripPrefix text rest
      capturesFrom pieces rest
  | .integer :: pieces, rest =>
      let number : Text := rest.takeWhile isAsciiDigit
      if number = [] ∨ (1 < number.length ∧ number.head? = some '0') then none
      else do
        let value ← parseU64 number
        let values ← capturesFrom pieces (rest.dropWhile isAsciiDigit)
        some (value :: values)

def captures (pattern : Pattern) (name : Text) : Option (List Nat) :=
  capturesFrom pattern.pieces name

def isMatch (pattern : Pattern) (name : Text) : Bool :=
  (pattern.captures name).isSome

def fillFrom : List Piece → List Nat → Option Text
  | [], _ => some []
  | .literal text :: pieces, values =>
      (fillFrom pieces values).map (text ++ ·)
  | .integer :: _, [] => none
  | .integer :: pieces, value :: values =>
      (fillFrom pieces values).map (decimal value ++ ·)

/-- The pattern with its holes filled in order. -/
def instantiate (pattern : Pattern) (values : List Nat) : Option Text :=
  if values.length = pattern.holes then fillFrom pattern.pieces values
  else none

end Pattern

end TensorFS
