import TensorFS.Contract.Document

namespace TensorFS

open Data

/-! The header of a safetensors file. -/

structure DeclaredTensor where
  name : Text
  dtype : Text
  shape : List UInt64
  length : Nat
  deriving DecidableEq

def hexDigit (n : Nat) : Char :=
  if n < 10 then Char.ofNat (0x30 + n) else Char.ofNat (0x57 + n)

/-- A character inside a JSON string, as the serializer writes it. -/
def escapeChar (c : Char) : Text :=
  if c.toNat = 0x22 then "\\\"".toList
  else if c.toNat = 0x5c then "\\\\".toList
  else if c.toNat = 0x08 then "\\b".toList
  else if c.toNat = 0x09 then "\\t".toList
  else if c.toNat = 0x0a then "\\n".toList
  else if c.toNat = 0x0c then "\\f".toList
  else if c.toNat = 0x0d then "\\r".toList
  else if c.toNat < 0x20 then
    "\\u00".toList ++ [hexDigit (c.toNat / 16), hexDigit (c.toNat % 16)]
  else [c]

def jsonQuote (text : Text) : Text :=
  "\"".toList ++ text.flatMap escapeChar ++ "\"".toList

/-- One member of the header; the offsets wrap at 64 bits. -/
def declaration (cursor : Nat) (tensor : DeclaredTensor) : Text :=
  jsonQuote tensor.name ++ ":\x7b\"dtype\":".toList ++
    jsonQuote tensor.dtype ++ ",\"shape\":[".toList ++
    Contract.joinTexts ",".toList
      (tensor.shape.map fun dimension => decimal dimension.toNat) ++
    "],\"data_offsets\":[".toList ++ decimal cursor ++ ",".toList ++
    decimal ((cursor + tensor.length) % 2 ^ 64) ++ "]\x7d".toList

def declarations : Nat → List DeclaredTensor → List Text
  | _, [] => []
  | cursor, tensor :: tensors =>
      declaration cursor tensor ::
        declarations ((cursor + tensor.length) % 2 ^ 64) tensors

def headerText (tensors : List DeclaredTensor) : Text :=
  "\x7b".toList ++
    Contract.joinTexts ",".toList (declarations 0 tensors) ++ "\x7d".toList

/-- Spaces up to the next multiple of eight. -/
def padHeader (bytes : Bytes) : Bytes :=
  bytes ++ List.replicate ((8 - bytes.length % 8) % 8) 0x20

/-- The length of the header and the header, for exactly these tensors in this
order. -/
def safetensorsHeader (tensors : List DeclaredTensor) : Bytes :=
  leBytes 8 (padHeader (headerText tensors).utf8).length ++
    padHeader (headerText tensors).utf8

end TensorFS
