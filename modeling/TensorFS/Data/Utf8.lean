import TensorFS.Data.Text

namespace TensorFS.Data

/-! Validating UTF-8 piecewise: what a prefix of a text can look like. -/

inductive Utf8Outcome where
  | valid
  | incomplete (validUpTo : Nat)
  | invalid (validUpTo : Nat)
  deriving DecidableEq, Repr

/-- The ranges the bytes after a lead byte must lie in. -/
def continuations (lead : UInt8) : Option (List (UInt8 × UInt8)) :=
  if lead < 0x80 then some []
  else if lead < 0xc2 then none
  else if lead < 0xe0 then some [(0x80, 0xbf)]
  else if lead = 0xe0 then some [(0xa0, 0xbf), (0x80, 0xbf)]
  else if lead = 0xed then some [(0x80, 0x9f), (0x80, 0xbf)]
  else if lead < 0xf0 then some [(0x80, 0xbf), (0x80, 0xbf)]
  else if lead = 0xf0 then some [(0x90, 0xbf), (0x80, 0xbf), (0x80, 0xbf)]
  else if lead < 0xf4 then some [(0x80, 0xbf), (0x80, 0xbf), (0x80, 0xbf)]
  else if lead = 0xf4 then some [(0x80, 0x8f), (0x80, 0xbf), (0x80, 0xbf)]
  else none

/-- Scans on from a character that started at `start`, with `pending` ranges
still owed, at index `at`. -/
def utf8Scan : Nat → List (UInt8 × UInt8) → Nat → Bytes → Utf8Outcome
  | _, [], _, [] => .valid
  | start, _ :: _, _, [] => .incomplete start
  | _, [], index, b :: rest =>
      match continuations b with
      | none => .invalid index
      | some pending => utf8Scan index pending (index + 1) rest
  | start, range :: pending, index, b :: rest =>
      if range.1 ≤ b ∧ b ≤ range.2 then
        utf8Scan start pending (index + 1) rest
      else
        .invalid start

def checkUtf8 (bytes : Bytes) : Utf8Outcome := utf8Scan 0 [] 0 bytes

end TensorFS.Data
