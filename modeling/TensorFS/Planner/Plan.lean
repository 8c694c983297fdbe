import TensorFS.Contract.Document
import TensorFS.Tfm1.Rules

namespace TensorFS

open Data

/-- The libraries the crate links: the Unicode tables, SHA-256 and the JSON
reader. -/
structure Platform where
  unicode : Unicode
  sha256 : Bytes → Digest
  json : Bytes → Option Json

/-! Plans: one file cut into consecutive regions. -/

def maxObjectCount : Nat := 1000000

inductive RegionKind where
  | header
  | tensor
  | blob
  deriving DecidableEq, Repr

structure Region where
  offset : Nat
  length : Nat
  kind : RegionKind
  deriving DecidableEq, Repr

structure Plan where
  planner : PlannerId
  contract : Stamp
  fileSize : Nat
  regions : List Region
  deriving DecidableEq

inductive PlanError where
  | read
  | sourceChanged
  | invalidCoverage
  | objectLimit
  | resourceExhausted
  | sourceLengthMismatch (expected actual : Nat)
  deriving DecidableEq, Repr

/-- A source of bytes; a read without a result is an I/O error. -/
structure ByteSource where
  len : Nat
  len_lt : len < 2 ^ 64
  readAt : Nat → Nat → Option Bytes
  unchanged : Bool

namespace ByteSource

def readExactAt (source : ByteSource) (offset count : Nat) :
    Except PlanError Bytes :=
  match source.readAt offset count with
  | some bytes => .ok bytes
  | none => .error .read

def checkUnchanged (source : ByteSource) : Except PlanError Unit :=
  ensure (source.unchanged = true) .sourceChanged

/-- The source keeps its bytes and every read inside it returns them. -/
structure Stable (source : ByteSource) (byte : Nat → UInt8) : Prop where
  unchanged : source.unchanged = true
  reads : ∀ offset count, offset + count ≤ source.len →
    source.readAt offset count =
      some ((List.range count).map fun index => byte (offset + index))

end ByteSource

namespace Plan

def validateRegions (blob : Bool) :
    Nat → List Region → Except PlanError Nat
  | expectedOffset, [] => .ok expectedOffset
  | expectedOffset, region :: regions => do
      ensure (region.offset = expectedOffset ∧ region.length ≠ 0 ∧
        (blob = false → region.length ≤ maxObjectSize)) .invalidCoverage
      ensure (expectedOffset + region.length < 2 ^ 64) .invalidCoverage
      validateRegions blob (expectedOffset + region.length) regions

def validate (plan : Plan) : Except PlanError Unit := do
  ensure (plan.regions.length ≤ maxObjectCount) .objectLimit
  let blob := plan.planner == .blobV1
  ensure (¬ (blob ∧ 1 < plan.regions.length)) .invalidCoverage
  if plan.fileSize = 0 then
    ensure (plan.regions = []) .invalidCoverage
  else do
    let covered ← validateRegions blob 0 plan.regions
    ensure (covered = plan.fileSize) .invalidCoverage

end Plan

def blobPlan (fileSize : Nat) : Plan where
  planner := .blobV1
  contract := .none
  fileSize := fileSize
  regions := if fileSize = 0 then [] else [⟨0, fileSize, .blob⟩]

/-- The grid objects of one extent. -/
def splitObjects (kind : RegionKind) : Nat → Nat → Nat → List Region
  | 0, _, _ => []
  | count + 1, cursor, remaining =>
      ⟨cursor, min remaining maxObjectSize, kind⟩ ::
        splitObjects kind count (cursor + min remaining maxObjectSize)
          (remaining - min remaining maxObjectSize)

@[irreducible]
def objectCount (length : Nat) : Nat :=
  (length + (maxObjectSize - 1)) / maxObjectSize

def appendSplitRegion (regions : List Region) (offset length : Nat)
    (kind : RegionKind) : Except PlanError (List Region) := do
  ensure (regions.length + objectCount length ≤ maxObjectCount) .objectLimit
  .ok (regions ++ splitObjects kind (objectCount length) offset length)

def appendSeams (offset length : Nat) (kind : RegionKind) :
    List Region → Nat → List Nat → Except PlanError (List Region)
  | regions, cursor, [] =>
      appendSplitRegion regions (offset + cursor) (length - cursor) kind
  | regions, cursor, seam :: seams => do
      ensure (cursor < seam ∧ seam < length) .invalidCoverage
      let regions ← appendSplitRegion regions (offset + cursor)
        (seam - cursor) kind
      appendSeams offset length kind regions seam seams

/-- One tensor's regions: cut at the seams first, then on the grid within each
part. -/
def appendTensorRegions (regions : List Region) (offset length : Nat)
    (seams : List Nat) (kind : RegionKind) : Except PlanError (List Region) :=
  appendSeams offset length kind regions 0 seams

end TensorFS
