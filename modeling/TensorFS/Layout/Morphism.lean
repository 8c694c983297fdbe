import TensorFS.Contract.Pattern
import TensorFS.Data.Cells
import TensorFS.Data.Radix

namespace TensorFS

open Data

/-! Layout morphisms: records that factor a tensor's axes into sub-axes and
permute them.  Machine products wrap at 64 bits. -/

inductive RecordFault where
  | notLayout
  | noEvidence
  | permutesNothing
  | identityRank
  | noRank
  | permutationLength (positions subAxes : Nat)
  | axisZero
  | axisOrder (axis after : Nat)
  | axisCount (rank covered : Nat)
  | missingPosition (position : Nat)
  | sharedPosition (position : Nat)
  | unusableShape (shape : List UInt64)
  | unwritten (shape : List UInt64) (mapped sourceElements : Nat)
  | dirtyPadding (shape : List UInt64) (slot : Nat)
  | unreportedPadding (shape : List UInt64) (slots : Nat)
  | roundTrip (shape : List UInt64) (element : Nat)
  | noProbe
  deriving DecidableEq

inductive FormulaFault where
  | empty
  | unclosed (text : Text)
  | notAxis (token : Text)
  | missingAxis (text : Text) (axis rank : Nat)
  | notPositive (token : Text)
  | dividesByZero (text : Text)
  | inexact (text : Text) (value operand : Nat)
  | stray (text : Text) (character : Char)
  | endsOnOperator (text : Text)
  | zeroSized (extent : Text)
  deriving DecidableEq

inductive LayoutError where
  | record (handle : Text) (fault : RecordFault)
  | rank (handle : Text) (want got : Nat)
  | shortAxis (handle : Text) (axis product dim : Nat)
  | formula (handle : Text) (axis : Nat) (fault : FormulaFault)
  | buffer (got want : Nat)
  deriving DecidableEq

structure SubAxis where
  axis : Nat
  extent : Text
  deriving DecidableEq

structure LayoutMorphism where
  format : Text
  name : Text
  version : UInt32
  rank : Nat
  subAxes : List SubAxis
  permutation : List Nat
  provenance : List Text

/-! The shape formula: integers, `dN`, products, quotients and `ceil`. -/

namespace Formula

/-- The text up to the bracket that closes this one, and the text behind it. -/
def closing : Nat → Text → Option (Text × Text)
  | _, [] => none
  | depth, c :: rest =>
      if c = ')' ∧ depth = 1 then some ([], rest)
      else
        let depth := if c = '(' then depth + 1
          else if c = ')' then depth - 1 else depth
        (closing depth rest).map fun parts => (c :: parts.1, parts.2)

def operand (shape : List UInt64) (text token : Text) :
    Except FormulaFault Nat :=
  match token with
  | 'd' :: digits =>
      match parseU64 digits with
      | none => .error (.notAxis token)
      | some axis =>
          match shape[axis]? with
          | none => .error (.missingAxis text axis shape.length)
          | some dim => .ok dim.toNat
  | _ =>
      match parseU64 token with
      | none => .error (.notPositive token)
      | some literal => do
          ensure (literal ≠ 0) (.notPositive token)
          .ok literal

def combine (ceiling divide : Bool) (text : Text) (value operand : Nat) :
    Except FormulaFault Nat :=
  if divide then do
    ensure (operand ≠ 0) (.dividesByZero text)
    if ceiling then .ok ((value + operand - 1) / operand)
    else do
      ensure (operand ∣ value) (.inexact text value operand)
      .ok (value / operand)
  else .ok (value * operand % 2 ^ 64)

def isOperator (c : Char) : Bool := c = '*' || c = '/'

/-- The operands from `rest` on; every round consumes text, so the text's own
length bounds the rounds. -/
def chain (shape : List UInt64) :
    Nat → Bool → Text → Nat → Bool → Text → Except FormulaFault Nat
  | 0, _, _, _, _, _ => .error .empty
  | rounds + 1, ceiling, text, value, divide, rest => do
      let (operand, rest) ←
        match Pattern.stripPrefix "ceil(".toList rest with
        | some inner =>
            match closing 1 inner with
            | none => .error (.unclosed text)
            | some (body, after) => do
                ensure (body ≠ []) .empty
                let operand ← chain shape rounds true body 1 false body
                .ok (operand, after)
        | none => do
            let operand ← operand shape text
              (rest.takeWhile fun c => !isOperator c)
            .ok (operand, rest.dropWhile fun c => !isOperator c)
      let value ← combine ceiling divide text value operand
      match rest with
      | [] => .ok value
      | c :: rest => do
          ensure (isOperator c = true) (.stray text c)
          ensure (rest ≠ []) (.endsOnOperator text)
          chain shape rounds ceiling text value (c = '/') rest

def eval (text : Text) (shape : List UInt64) : Except FormulaFault Nat := do
  let text := text.filter (· ≠ ' ')
  ensure (text ≠ []) .empty
  chain shape (text.length + 1) false text 1 false text

end Formula

/-! Records. -/

def layoutMorphismFormat : Text := "tensorfs-layout-morphism-v2".toList

namespace LayoutMorphism

def handle (record : LayoutMorphism) : Text :=
  record.name ++ '@' :: decimal record.version.toNat

def isIdentity (record : LayoutMorphism) : Bool := record.subAxes = []

/-- Sub-axes are grouped by axis, outermost first, and no axis is skipped; the
result is the number of axes. -/
def checkAxes (handle : Text) :
    Option Nat → Nat → List SubAxis → Except LayoutError Nat
  | _, covered, [] => .ok covered
  | none, _, sub :: rest => do
      ensure (sub.axis = 0) (.record handle .axisZero)
      checkAxes handle (some sub.axis) 1 rest
  | some axis, covered, sub :: rest =>
      if sub.axis = axis + 1 then
        checkAxes handle (some sub.axis) (covered + 1) rest
      else do
        ensure (sub.axis = axis) (.record handle (.axisOrder sub.axis axis))
        checkAxes handle (some sub.axis) covered rest

def checkPositions (handle : Text) (count : Nat) :
    List Nat → List Nat → Except LayoutError Unit
  | _, [] => .ok ()
  | seen, position :: rest => do
      ensure (position < count) (.record handle (.missingPosition position))
      ensure (position ∉ seen) (.record handle (.sharedPosition position))
      checkPositions handle count (position :: seen) rest

def check (record : LayoutMorphism) : Except LayoutError Unit := do
  let refuse := LayoutError.record record.handle
  ensure (record.format = layoutMorphismFormat) (refuse .notLayout)
  ensure (record.provenance ≠ []) (refuse .noEvidence)
  if record.isIdentity = true then do
    ensure (record.permutation = []) (refuse .permutesNothing)
    ensure (record.rank = 0) (refuse .identityRank)
  else do
    ensure (record.rank ≠ 0) (refuse .noRank)
    ensure (record.permutation.length = record.subAxes.length)
      (refuse (.permutationLength record.permutation.length
        record.subAxes.length))
    let covered ← checkAxes record.handle none 0 record.subAxes
    ensure (covered = record.rank) (refuse (.axisCount record.rank covered))
    checkPositions record.handle record.permutation.length []
      record.permutation

/-! Plans. -/

def subAxisFactor (record : LayoutMorphism) (shape : List UInt64)
    (sub : SubAxis) : Except LayoutError (Nat × Nat) :=
  match Formula.eval sub.extent shape with
  | .error fault => .error (.formula record.handle sub.axis fault)
  | .ok extent => do
      ensure (extent ≠ 0)
        (.formula record.handle sub.axis (.zeroSized sub.extent))
      .ok (sub.axis, extent)

/-- The sub-axes as pairs of a logical axis and an extent; the identity has one
for each logical axis. -/
def factors (record : LayoutMorphism) (shape : List UInt64) :
    Except LayoutError (List (Nat × Nat)) :=
  if record.isIdentity = true then
    .ok (shape.zipIdx.map fun item => (item.2, item.1.toNat))
  else record.subAxes.mapM (record.subAxisFactor shape)

/-- The running products from the right, and the product of all. -/
def suffixProducts : List Nat → List Nat × Nat
  | [] => ([], 1)
  | extent :: rest =>
      ((suffixProducts rest).2 :: (suffixProducts rest).1,
        (suffixProducts rest).2 * extent % 2 ^ 64)

/-- Maximal runs of factors of one axis. -/
def blocks : List (Nat × Nat) → List (Nat × List Nat)
  | [] => []
  | (axis, extent) :: rest =>
      match blocks rest with
      | [] => [(axis, [extent])]
      | (next, extents) :: others =>
          if next = axis then (axis, extent :: extents) :: others
          else (axis, [extent]) :: (next, extents) :: others

/-- The multipliers inside the axes, and which axes round up. -/
def measure (handle : Text) (want : Nat) (dims : List Nat) :
    List Bool → List (Nat × List Nat) →
      Except LayoutError (List Nat × List Bool)
  | padded, [] => .ok ([], padded)
  | padded, (axis, extents) :: rest => do
      let running := (suffixProducts extents).2
      ensure (axis < dims.length) (.rank handle want dims.length)
      ensure (dims.getD axis 0 ≤ running)
        (.shortAxis handle axis running (dims.getD axis 0))
      let (within, padded) ← measure handle want dims
        (if dims.getD axis 0 < running then padded.set axis true else padded)
        rest
      .ok ((suffixProducts extents).1 ++ within, padded)

end LayoutMorphism

/-- Every number the walk needs. -/
structure LayoutPlan where
  handle : Text
  shape : List Nat
  axes : List Nat
  extents : List Nat
  within : List Nat
  permutation : List Nat
  logicalStride : List Nat
  srcStride : List Nat
  paddedAxis : List Bool
  sourceElements : Nat
  destElements : Nat
  padded : Bool
  deriving DecidableEq

namespace LayoutMorphism

def saturatingProduct (dims : List Nat) : Nat :=
  dims.foldl (fun product dim => min (product * dim) (2 ^ 64 - 1)) 1

def plan (record : LayoutMorphism) (shape : List UInt64) :
    Except LayoutError LayoutPlan := do
  ensure (¬ (record.rank ≠ 0 ∧ shape.length ≠ record.rank))
    (.rank record.handle record.rank shape.length)
  ensure (¬ (shape = [] ∨ 0 ∈ shape))
    (.record record.handle (.unusableShape shape))
  let dims := shape.map UInt64.toNat
  let logicalStride := (suffixProducts dims).1
  let factors ← record.factors shape
  let (within, paddedAxis) ← measure record.handle record.rank dims
    (List.replicate dims.length false) (blocks factors)
  .ok {
    handle := record.handle
    shape := dims
    axes := factors.map Prod.fst
    extents := factors.map Prod.snd
    within := within
    permutation :=
      if record.isIdentity = true then List.range factors.length
      else record.permutation
    logicalStride := logicalStride
    srcStride := List.zipWith
      (fun multiplier axis => multiplier * logicalStride.getD axis 0 % 2 ^ 64)
      within (factors.map Prod.fst)
    paddedAxis := paddedAxis
    sourceElements := saturatingProduct dims
    destElements := (factors.map Prod.snd).prod % 2 ^ 64
    padded := paddedAxis.any id }

end LayoutMorphism

/-! The walk. -/

/-- The odometer: a counter for each sub-axis and a coordinate on each logical
axis. -/
structure Odometer where
  counters : Nat → Nat
  coord : Nat → Nat

/-- One visit: destination element, source element or padding, run length. -/
structure LayoutRun where
  dest : Nat
  source : Option Nat
  length : Nat
  deriving DecidableEq

namespace LayoutPlan

variable (plan : LayoutPlan)

def axis (position : Nat) : Nat := plan.axes.getD position 0

def extent (position : Nat) : Nat := plan.extents.getD position 0

def multiplier (position : Nat) : Nat := plan.within.getD position 0

def storageExtents : List Nat := plan.permutation.map plan.extent

/-- The trailing storage positions that lie contiguously in the source, given
innermost first: the run they make, and the positions left for the odometer. -/
def foldRun : Nat → List Nat → Nat × List Nat
  | run, [] => (run, [])
  | run, position :: rest =>
      if plan.paddedAxis.getD (plan.axis position) false = true ∨
          plan.srcStride.getD position 0 ≠ run then
        (run, position :: rest)
      else foldRun (run * plan.extent position % 2 ^ 64) rest

def bump (position : Nat) (o : Odometer) : Odometer where
  counters := Function.update o.counters position (o.counters position + 1)
  coord := Function.update o.coord (plan.axis position)
    ((o.coord (plan.axis position) + plan.multiplier position) % 2 ^ 64)

def clear (position : Nat) (o : Odometer) : Odometer where
  counters := Function.update o.counters position 0
  coord := Function.update o.coord (plan.axis position)
    ((o.coord (plan.axis position) + (2 ^ 64 -
      o.counters position * plan.multiplier position % 2 ^ 64)) % 2 ^ 64)

/-- One step over the positions, outermost first, and whether it carried past
all of them. -/
def advance : List Nat → Odometer → Odometer × Bool
  | [], o => (o, true)
  | position :: inner, o =>
      match advance inner o with
      | (o, false) => (o, false)
      | (o, true) =>
          if (plan.bump position o).counters position < plan.extent position
          then (plan.bump position o, false)
          else (plan.clear position (plan.bump position o), true)

def locate (coord : Nat → Nat) :
    Nat → Nat → List (Nat × Nat) → Option Nat
  | _, offset, [] => some offset
  | axis, offset, (dim, stride) :: rest =>
      if dim ≤ coord axis then none
      else
        locate coord (axis + 1) ((offset + coord axis * stride) % 2 ^ 64) rest

/-- The visits from step `step` on. -/
def walkFrom (outer : List Nat) (run : Nat) :
    Nat → Nat → Odometer → List LayoutRun
  | 0, _, _ => []
  | left + 1, step, o =>
      ⟨step * run % 2 ^ 64,
        locate o.coord 0 0 (plan.shape.zip plan.logicalStride), run⟩ ::
        walkFrom outer run left (step + 1) (plan.advance outer o).1

def forEachRun : List LayoutRun :=
  let folded := plan.foldRun 1 plan.permutation.reverse
  plan.walkFrom folded.2.reverse folded.1
    (plan.destElements / max folded.1 1) 0 ⟨fun _ => 0, fun _ => 0⟩

/-- The walk one element at a time. -/
def forEach : List (Nat × Option Nat) :=
  plan.forEachRun.flatMap fun run =>
    (List.range run.length).map fun step =>
      (run.dest + step, run.source.map (· + step))

/-! Moving bytes. -/

def sized (source destination element : Nat) : Except LayoutError Unit := do
  ensure (source = plan.sourceElements * element % 2 ^ 64)
    (.buffer source (plan.sourceElements * element % 2 ^ 64))
  ensure (destination = plan.destElements * element % 2 ^ 64)
    (.buffer destination (plan.destElements * element % 2 ^ 64))

/-- Replaces a range of a buffer; a range outside it panics. -/
def overwrite (buffer : Bytes) (start : Nat) (bytes : Bytes) :
    Except (Failure LayoutError) Bytes :=
  if start + bytes.length ≤ buffer.length then
    .ok (patch buffer start bytes)
  else .error .panicked

def slice (buffer : Bytes) (start span : Nat) :
    Except (Failure LayoutError) Bytes :=
  if start + span ≤ buffer.length then .ok ((buffer.drop start).take span)
  else .error .panicked

def applyRun (source : Bytes) (element : Nat) (destination : Bytes)
    (run : LayoutRun) : Except (Failure LayoutError) Bytes :=
  let span := run.length * element % 2 ^ 64
  match run.source with
  | some index => do
      let bytes ← slice source (index * element % 2 ^ 64) span
      overwrite destination (run.dest * element % 2 ^ 64) bytes
  | none =>
      overwrite destination (run.dest * element % 2 ^ 64)
        (List.replicate span 0)

def apply (source destination : Bytes) (element : Nat) :
    Except (Failure LayoutError) Bytes := do
  refusing (plan.sized source.length destination.length element)
  plan.forEachRun.foldlM (applyRun source element) destination

def inverseRun (destination : Bytes) (element : Nat) (source : Bytes)
    (run : LayoutRun) : Except (Failure LayoutError) Bytes :=
  match run.source with
  | some index => do
      let bytes ← slice destination (run.dest * element % 2 ^ 64)
        (run.length * element % 2 ^ 64)
      overwrite source (index * element % 2 ^ 64) bytes
  | none => .ok source

def applyInverse (destination source : Bytes) (element : Nat) :
    Except (Failure LayoutError) Bytes := do
  refusing (plan.sized source.length destination.length element)
  plan.forEachRun.foldlM (inverseRun destination element) source

end LayoutPlan

/-! The auto-ratification verifier. -/

structure LayoutProbe where
  shape : List UInt64
  destElements : Nat
  padded : Bool
  deriving DecidableEq

namespace LayoutMorphism

def poison : UInt8 := 0xa5

def probeElement : Nat := 4

/-- The pattern that marks a source element. -/
def tag (index : Nat) : Bytes :=
  leBytes 4 (index % 2 ^ 32 * 2654435761 % 2 ^ 32)

/-- A vector of more bytes than `isize::MAX` panics. -/
def allocate (length : Nat) : Except (Failure LayoutError) Unit :=
  if length < 2 ^ 63 then .ok () else .error .panicked

/-- One tag an element; an element past the vector panics. -/
def fillSource (elements length : Nat) :
    Except (Failure LayoutError) Bytes := do
  allocate length
  if elements * probeElement ≤ length then
    .ok ((List.range elements).flatMap tag ++
      List.replicate (length - elements * probeElement) 0)
  else .error .panicked

def checkPadding (record : LayoutMorphism) (shape : List UInt64)
    (moved : Bytes) : List Nat → Except (Failure LayoutError) Unit
  | [] => .ok ()
  | slot :: slots => do
      let bytes ← LayoutPlan.slice moved (slot * probeElement % 2 ^ 64)
        probeElement
      refusing (ensure (bytes = List.replicate probeElement 0)
        (.record record.handle (.dirtyPadding shape slot)))
      checkPadding record shape moved slots

/-- The first position at which two buffers differ. -/
def firstDifference (left right : Bytes) : Nat :=
  ((left.zip right).findIdx? fun pair => pair.1 ≠ pair.2).getD 0

/-- What ratifying proves at one probe shape. -/
def probe (record : LayoutMorphism) (shape : List UInt64)
    (plan : LayoutPlan) : Except (Failure LayoutError) LayoutProbe := do
  let refuse := LayoutError.record record.handle
  let sourceBytes := plan.sourceElements * probeElement % 2 ^ 64
  let destBytes := plan.destElements * probeElement % 2 ^ 64
  let source ← fillSource plan.sourceElements sourceBytes
  allocate destBytes
  let moved ← plan.apply source (List.replicate destBytes poison) probeElement
  let mapped := (plan.forEach.filter fun visit => visit.2.isSome).length
  let padSlots := (plan.forEach.filter fun visit => visit.2.isNone).map
    Prod.fst
  refusing (ensure (mapped = plan.sourceElements)
    (refuse (.unwritten shape mapped plan.sourceElements)))
  checkPadding record shape moved padSlots
  refusing (ensure (¬ (plan.padded = false ∧ padSlots ≠ []))
    (refuse (.unreportedPadding shape padSlots.length)))
  let back ← plan.applyInverse moved (List.replicate sourceBytes poison)
    probeElement
  refusing (ensure (back = source)
    (refuse (.roundTrip shape (firstDifference back source / probeElement))))
  .ok ⟨shape, plan.destElements, plan.padded⟩

/-- White space as Unicode has it. -/
def isWhiteSpace (c : Char) : Bool :=
  (0x9 ≤ c.toNat && c.toNat ≤ 0xd) || c.toNat = 0x20 || c.toNat = 0x85 ||
    c.toNat = 0xa0 || c.toNat = 0x1680 ||
    (0x2000 ≤ c.toNat && c.toNat ≤ 0x200a) || c.toNat = 0x2028 ||
    c.toNat = 0x2029 || c.toNat = 0x202f || c.toNat = 0x205f ||
    c.toNat = 0x3000

def trim (text : Text) : Text :=
  ((text.dropWhile isWhiteSpace).reverse.dropWhile isWhiteSpace).reverse

/-- The product of the literal factors of each axis. -/
def alignments (alignment : List UInt64) (sub : SubAxis) : List UInt64 :=
  match parseU64 (trim sub.extent) with
  | none => alignment
  | some literal =>
      alignment.set sub.axis
        (alignment.getD sub.axis 0 * UInt64.ofNat literal)

def probeShapes (record : LayoutMorphism) : List (List UInt64) :=
  if record.isIdentity = true then
    [1, 2, 3, 4].map fun rank =>
      (List.range rank).map fun axis => UInt64.ofNat (axis + 2)
  else
    let alignment := record.subAxes.foldl alignments
      (List.replicate record.rank 1)
    let aligned := alignment.zipIdx.map fun item =>
      item.1 * UInt64.ofNat (item.2 + 2)
    let ragged := aligned.map fun dim => if 1 < dim then dim - 1 else dim
    if ragged = aligned then [aligned] else [aligned, ragged]

/-- A probe shape the record refuses is passed over. -/
def probeAt (record : LayoutMorphism) (shape : List UInt64) :
    Except (Failure LayoutError) (Option LayoutProbe) :=
  match record.plan shape with
  | .error _ => .ok none
  | .ok plan => do
      let probe ← record.probe shape plan
      .ok (some probe)

def ratify (record : LayoutMorphism) :
    Except (Failure LayoutError) (List LayoutProbe) := do
  refusing record.check
  let found ← record.probeShapes.mapM record.probeAt
  let probes := found.filterMap id
  refusing (ensure (probes ≠ []) (.record record.handle .noProbe))
  .ok probes

end LayoutMorphism

end TensorFS
