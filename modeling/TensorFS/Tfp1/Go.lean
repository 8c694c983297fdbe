import TensorFS.Repository.Ref

namespace TensorFS.Go

open Data

/-! The receiving verifier of the upload-staging envelope.  Slicing out of
range panics; lengths and offsets are 64-bit words whose sum wraps. -/

def tfp1MaxPackObjects : Nat := 1000000

def tfp1RowBytes : Nat := 32 + 8 + 8

structure TFP1Object where
  digest : Ref
  bytes : Bytes
  deriving DecidableEq

structure TFP1Pack where
  objects : List TFP1Object
  deriving DecidableEq

structure TFP1Error where
  reason : String
  deriving DecidableEq

def tfp1Refuse (reason : String) : Failure TFP1Error := .refused ⟨reason⟩

/-- What the loop keeps of one row. -/
structure TFP1Row where
  digest : Digest
  offset : UInt64
  length : UInt64

def littleEndian (bytes : Bytes) : UInt64 := UInt64.ofNat (leNat bytes)

/-- `bytes.Compare` of the digest before with this one. -/
def checkTFP1Order (previous : Option Digest) (digest : Digest) :
    Except (Failure TFP1Error) Unit :=
  match previous with
  | none => .ok ()
  | some previous =>
      if previous = digest then .error (tfp1Refuse "duplicate-digest")
      else if digest.bytes.map UInt8.toNat < previous.bytes.map UInt8.toNat then
        .error (tfp1Refuse "index-order")
      else .ok ()

/-- The rows, the payload length they declare, and the bytes behind them. -/
def parseTFP1Rows : Nat → Option Digest → UInt64 → Bytes →
    Except (Failure TFP1Error) (List TFP1Row × UInt64 × Bytes)
  | 0, _, total, rest => .ok ([], total, rest)
  | count + 1, previous, total, rest =>
      if hrow : tfp1RowBytes ≤ rest.length then do
        let row := rest.take tfp1RowBytes
        let digest : Digest := ⟨row.take 32, by
          simp only [row, List.length_take, tfp1RowBytes] at hrow ⊢
          omega⟩
        let offset := littleEndian ((row.drop 32).take 8)
        let length := littleEndian ((row.drop 40).take 8)
        ensure (length ≠ 0) (tfp1Refuse "zero-length-object")
        ensure (length.toNat ≤ maxChunkSize) (tfp1Refuse "object-too-large")
        ensure (offset = total) (tfp1Refuse "offset-mismatch")
        checkTFP1Order previous digest
        let next := total + length
        ensure (¬ (next < total ∨ maxChunkSize < next.toNat))
          (tfp1Refuse "payload-too-large")
        let (rows, total, rest) ←
          parseTFP1Rows count (some digest) next (rest.drop tfp1RowBytes)
        .ok (⟨digest, offset, length⟩ :: rows, total, rest)
      else .error .panicked

/-- One object of the payload. -/
def sliceTFP1 (rest : Bytes) (row : TFP1Row) :
    Except (Failure TFP1Error) TFP1Object :=
  let stop := row.offset + row.length
  if row.offset ≤ stop ∧ stop.toNat ≤ rest.length then
    .ok ⟨.ofDigest row.digest,
      (rest.drop row.offset.toNat).take (stop.toNat - row.offset.toNat)⟩
  else .error .panicked

/-- The rows and the payload, with the whole structure checked. -/
def parseTFP1Structure (data : Bytes) :
    Except (Failure TFP1Error) (List TFP1Row × Bytes) := do
  ensure (4 ≤ data.length) (tfp1Refuse "truncated")
  ensure (data.take 4 = Text.utf8 "TFP1".toList) (tfp1Refuse "bad-magic")
  let rest := data.drop 4
  ensure (8 ≤ rest.length) (tfp1Refuse "truncated")
  let count := leNat (rest.take 8)
  let rest := rest.drop 8
  ensure (count ≠ 0) (tfp1Refuse "zero-objects")
  ensure (count ≤ tfp1MaxPackObjects) (tfp1Refuse "object-limit")
  ensure (count ≤ rest.length / tfp1RowBytes)
    (tfp1Refuse "count-exceeds-input")
  let (rows, total, rest) ← parseTFP1Rows count none 0 rest
  ensure (total.toNat ≤ rest.length) (tfp1Refuse "truncated")
  ensure (rest.length ≤ total.toNat) (tfp1Refuse "trailing-bytes")
  .ok (rows, rest)

/-- The complete structure, without a hash. -/
def parseTFP1Index (data : Bytes) : Except (Failure TFP1Error) TFP1Pack := do
  let (rows, rest) ← parseTFP1Structure data
  let objects ← rows.mapM (sliceTFP1 rest)
  .ok ⟨objects⟩

section

variable (sha256 : Bytes → Digest)

def TFP1Pack.verifyObjects (pack : TFP1Pack) :
    Except (Failure TFP1Error) Unit :=
  checkAll (fun object =>
    ensure (hexEncode (sha256 object.bytes).bytes = object.digest.hex)
      (tfp1Refuse "digest-mismatch")) pack.objects

/-- One canonical envelope with every object digest verified. -/
def parseTFP1 (data : Bytes) : Except (Failure TFP1Error) TFP1Pack := do
  let pack ← parseTFP1Index data
  pack.verifyObjects sha256
  .ok pack

end

end TensorFS.Go
