import TensorFS.Planner.Plan

namespace TensorFS.Tfp1

open Data

/-! The upload-staging envelope: whole objects behind a sorted index. -/

def maxPackPayload : Nat := maxObjectSize

def maxPackObjects : Nat := 1000000

def magic : Bytes := [0x54, 0x46, 0x50, 0x31]

def rowBytes : Nat := 32 + 8 + 8

inductive Tfp1Error where
  | truncated
  | badMagic
  | zeroObjects
  | objectLimit
  | countExceedsInput
  | indexOrder
  | duplicateDigest
  | zeroLengthObject
  | objectTooLarge
  | payloadTooLarge
  | offsetMismatch
  | trailingBytes
  | digestMismatch
  deriving DecidableEq, Repr

structure IndexRow where
  digest : ObjectDigest
  offset : Nat
  length : Nat
  deriving DecidableEq

/-- One whole object of a pack. -/
structure PackObject where
  digest : ObjectDigest
  bytes : Bytes
  deriving DecidableEq

structure Pack where
  rows : List IndexRow
  payload : Bytes
  deriving DecidableEq

/-- Digests are ordered as their bytes. -/
def orderKey (digest : ObjectDigest) : List Nat :=
  digest.bytes.map UInt8.toNat

/-! Parsing. -/

abbrev Tfp1Reader (α : Type) := Reader Tfp1Error α

def take (count : Nat) : Tfp1Reader Bytes := Reader.take .truncated count

def takeU64 : Tfp1Reader Nat := do
  let bytes ← take 8
  pure (leNat bytes)

def takeDigest : Tfp1Reader Digest := fun input =>
  if h : (input.take 32).length = 32 then
    .ok (⟨input.take 32, h⟩, input.drop 32)
  else
    .error .truncated

def checkDigestOrder (previous : Option IndexRow) (digest : ObjectDigest) :
    Except Tfp1Error Unit :=
  match previous with
  | none => .ok ()
  | some row =>
      if orderKey row.digest < orderKey digest then .ok ()
      else if row.digest = digest then .error .duplicateDigest
      else .error .indexOrder

def addLength (total length : Nat) : Except Tfp1Error Nat :=
  match checkedAdd total length with
  | none => .error .payloadTooLarge
  | some total => do
      Data.ensure (total ≤ maxPackPayload) .payloadTooLarge
      .ok total

/-- The index rows behind `previous`, and the payload length they declare. -/
def parseRows :
    Nat → Option IndexRow → Nat → Tfp1Reader (List IndexRow × Nat)
  | 0, _, total => pure ([], total)
  | count + 1, previous, total => do
      let digest ← takeDigest
      let offset ← takeU64
      let length ← takeU64
      Reader.ensure (length ≠ 0) .zeroLengthObject
      Reader.ensure (length ≤ maxObjectSize) .objectTooLarge
      Reader.ensure (offset = total) .offsetMismatch
      Reader.lift (checkDigestOrder previous digest)
      let total ← Reader.lift (addLength total length)
      let row := ⟨digest, offset, length⟩
      let (rows, total) ← parseRows count (some row) total
      pure (row :: rows, total)

def parseIndex : Tfp1Reader (List IndexRow × Nat) := do
  let front ← take 4
  Reader.ensure (front = magic) .badMagic
  let count ← takeU64
  Reader.ensure (count ≠ 0) .zeroObjects
  Reader.ensure (count ≤ maxPackObjects) .objectLimit
  let remaining ← Reader.remaining
  Reader.ensure (count ≤ remaining / rowBytes) .countExceedsInput
  parseRows count none 0

/-- The structure, without a hash. -/
def Pack.parse (bytes : Bytes) : Except Tfp1Error Pack := do
  let ((rows, total), payload) ← parseIndex bytes
  Data.ensure (total ≤ payload.length) .truncated
  Data.ensure (payload.length ≤ total) .trailingBytes
  .ok ⟨rows, payload⟩

/-- A row's slice of the payload; `none` where slicing panics. -/
def Pack.object (pack : Pack) (row : IndexRow) : Option PackObject :=
  if row.offset + row.length < 2 ^ 64 ∧
      row.offset + row.length ≤ pack.payload.length then
    some ⟨row.digest, (pack.payload.drop row.offset).take row.length⟩
  else none

/-- The objects in index order. -/
def Pack.objects (pack : Pack) : Option (List PackObject) :=
  pack.rows.mapM pack.object

section

variable (sha256 : Bytes → Digest)

def verifyRows (pack : Pack) :
    List IndexRow → Except (Failure Tfp1Error) Unit
  | [] => .ok ()
  | row :: rows =>
      match pack.object row with
      | none => .error .panicked
      | some object => do
          Data.ensure (sha256 object.bytes = object.digest)
            (.refused .digestMismatch)
          verifyRows pack rows

def Pack.verifyObjects (pack : Pack) : Except (Failure Tfp1Error) Unit :=
  verifyRows sha256 pack pack.rows

/-- Every structural rule and every digest. -/
def decode (bytes : Bytes) : Except (Failure Tfp1Error) Pack := do
  let pack ← refusing (Pack.parse bytes)
  pack.verifyObjects sha256
  .ok pack

/-! Building. -/

/-- The checks on the provided objects, with the running payload length. -/
def checkObjects : Nat → List PackObject → Except Tfp1Error Unit
  | _, [] => .ok ()
  | total, object :: objects => do
      Data.ensure (object.bytes ≠ []) .zeroLengthObject
      Data.ensure (object.bytes.length ≤ maxObjectSize) .objectTooLarge
      let total ← addLength total object.bytes.length
      Data.ensure (sha256 object.bytes = object.digest) .digestMismatch
      checkObjects total objects

def byDigest (objects : List PackObject) : List PackObject :=
  objects.mergeSort fun left right =>
    decide (orderKey left.digest ≤ orderKey right.digest)

/-- No neighbours of the sorted index share a digest. -/
def checkDistinct : List PackObject → Except Tfp1Error Unit
  | left :: right :: rest => do
      Data.ensure (left.digest ≠ right.digest) .duplicateDigest
      checkDistinct (right :: rest)
  | _ => .ok ()

def emitRows : Nat → List PackObject → Bytes
  | _, [] => []
  | offset, object :: objects =>
      object.digest.bytes ++ (leBytes 8 offset ++
        (leBytes 8 object.bytes.length ++
          emitRows (offset + object.bytes.length) objects))

def emit (sorted : List PackObject) : Bytes :=
  magic ++ (leBytes 8 sorted.length ++
    (emitRows 0 sorted ++ sorted.flatMap PackObject.bytes))

def encode (objects : List PackObject) : Except Tfp1Error Bytes := do
  Data.ensure (objects ≠ []) .zeroObjects
  Data.ensure (objects.length ≤ maxPackObjects) .objectLimit
  checkObjects sha256 0 objects
  let sorted := byDigest objects
  checkDistinct sorted
  .ok (emit sorted)

end

end TensorFS.Tfp1
