import TensorFS.Data.Utf8
import TensorFS.Planner.Plan

namespace TensorFS.Gguf

open Data

/-! The GGUF planner. -/

def magic : Bytes := [0x47, 0x47, 0x55, 0x46]

def defaultAlignment : Nat := 32

def maxMetadataCount : Nat := 1000000

def maxTensorCount : Nat := 1000000

def maxSymbolBytes : Nat := 64 * 1024 * 1024

def maxMetadataValueBytes : Nat := 64 * 1024 * 1024

def maxMetadataInspectionBytes : Nat := 64 * 1024 * 1024

def maxArrayElements : Nat := 16000000

def maxArrayDepth : Nat := 16

def maxMetadataKeyLen : Nat := 2 ^ 16 - 1

def maxTensorNameLen : Nat := 63

def generalAlignment : Bytes := Text.utf8 "general.alignment".toList

inductive ParseFailure where
  | invalid
  | read
  | resourceExhausted
  deriving DecidableEq, Repr

structure TensorInfo where
  name : Text
  dimensions : List Nat
  dimensionCount : Nat
  ggmlType : Nat
  offset : Nat
  length : Nat
  deriving DecidableEq

structure Layout where
  alignment : Nat
  directoryStart : Nat
  directoryEnd : Nat
  dataStart : Nat
  tensors : List TensorInfo

/-! The reader: a position in the source, an optional inspection limit, and the
budgets the metadata draws on. -/

structure Cursor where
  position : Nat
  limit : Option Nat
  arrayElements : Nat
  valueBytes : Nat
  symbolBytes : Nat

abbrev Parser (α : Type) := StateT Cursor (Except ParseFailure) α

section Reader

variable (source : ByteSource)

def guarded (p : Prop) [Decidable p] : Parser Unit :=
  fun cursor => if p then .ok ((), cursor) else .error .invalid

def orInvalid {α : Type} : Option α → Parser α
  | some value => pure value
  | none => fun _ => .error .invalid

def remaining : Parser Nat :=
  fun cursor => .ok (source.len - cursor.position, cursor)

def ensureNext (length : Nat) : Parser Unit := fun cursor =>
  let stop := cursor.position + length
  if stop < 2 ^ 64 ∧ stop ≤ source.len ∧
      (∀ limit ∈ cursor.limit, stop ≤ limit) then
    .ok ((), cursor)
  else
    .error .invalid

/-- Reads without a check of its own, and advances. -/
def fetch (count : Nat) : Parser Bytes := fun cursor =>
  match source.readAt cursor.position count with
  | none => .error .read
  | some bytes =>
      .ok (bytes, { cursor with position := cursor.position + count })

def read (count : Nat) : Parser Bytes := do
  ensureNext source count
  fetch source count

def readU8 : Parser Nat := do
  let bytes ← read source 1
  pure (leNat bytes)

def readU32 : Parser Nat := do
  let bytes ← read source 4
  pure (leNat bytes)

def readU64 : Parser Nat := do
  let bytes ← read source 8
  pure (leNat bytes)

def skip (length : Nat) : Parser Unit := do
  ensureNext source length
  fun cursor =>
    .ok ((), { cursor with position := cursor.position + length })

def limitNext (length : Nat) : Parser Unit := fun cursor =>
  if cursor.position + length < 2 ^ 64 then
    .ok ((), { cursor with limit := some (cursor.position + length) })
  else
    .error .invalid

def clearLimit : Parser Unit :=
  fun cursor => .ok ((), { cursor with limit := none })

def readBoundedBytes (maxLength : Nat) : Parser Bytes := do
  let length ← readU64 source
  guarded (length ≤ maxLength)
  ensureNext source length
  fetch source length

def charge (count : Nat) : Parser Unit := fun cursor =>
  if cursor.arrayElements + count < 2 ^ 64 ∧
      cursor.arrayElements + count ≤ maxArrayElements then
    .ok ((), { cursor with arrayElements := cursor.arrayElements + count })
  else
    .error .invalid

def chargeBytes (count : Nat) : Parser Unit := fun cursor =>
  if cursor.valueBytes + count < 2 ^ 64 ∧
      cursor.valueBytes + count ≤ maxMetadataValueBytes then
    .ok ((), { cursor with valueBytes := cursor.valueBytes + count })
  else
    .error .invalid

def chargeSymbolBytes (length : Nat) : Parser Unit := fun cursor =>
  if cursor.symbolBytes + length < 2 ^ 64 ∧
      cursor.symbolBytes + length ≤ maxSymbolBytes then
    .ok ((), { cursor with symbolBytes := cursor.symbolBytes + length })
  else
    .error .invalid

/-- The chunk loop of `skipUtf8String`; `pending` holds the bytes of a
character cut by the previous chunk. -/
def skipUtf8Chunks : Nat → Bytes → Nat → Parser Unit
  | 0, pending, _ => guarded (pending = [])
  | rounds + 1, pending, left =>
      if left = 0 then guarded (pending = [])
      else do
        let chunk ← fetch source (min left 8192)
        let used := pending ++ chunk
        match checkUtf8 used with
        | .valid => skipUtf8Chunks rounds [] (left - min left 8192)
        | .incomplete valid => do
            guarded (used.length - valid ≤ 3)
            skipUtf8Chunks rounds (used.drop valid) (left - min left 8192)
        | .invalid _ => guarded False

def skipUtf8String : Parser Unit := do
  let length ← readU64 source
  chargeBytes length
  ensureNext source length
  skipUtf8Chunks source (length / 8192 + 1) [] length

def checkBoolChunks : Nat → Nat → Parser Unit
  | 0, _ => pure ()
  | rounds + 1, left =>
      if left = 0 then pure ()
      else do
        let chunk ← fetch source (min left 8192)
        guarded (chunk.all (· ≤ 1) = true)
        checkBoolChunks rounds (left - min left 8192)

def checkBoolBytes (count : Nat) : Parser Unit := do
  ensureNext source count
  checkBoolChunks source (count / 8192 + 1) count

end Reader

/-! Metadata. -/

/-- The encoded size of the scalar metadata types. -/
def fixedSize (valueType : Nat) : Option Nat :=
  if valueType ∈ [0, 1] then some 1
  else if valueType ∈ [2, 3] then some 2
  else if valueType ∈ [4, 5, 6] then some 4
  else if valueType ∈ [10, 11, 12] then some 8
  else none

def typeBool : Nat := 7

def typeString : Nat := 8

def typeArray : Nat := 9

def typeUint32 : Nat := 4

def typeFloat64 : Nat := 12

def repeated (action : Parser Unit) : Nat → Parser Unit
  | 0 => pure ()
  | count + 1 => do
      action
      repeated action count

/-- One metadata value; `nesting` is the array depth still allowed. -/
def parseMetadataValue (source : ByteSource) :
    Nat → Nat → Parser Unit
  | nesting, valueType =>
      match fixedSize valueType with
      | some size => do
          chargeBytes size
          skip source size
      | none =>
          if valueType = typeBool then do
            chargeBytes 1
            let value ← readU8 source
            guarded (value ≤ 1)
          else if valueType = typeString then skipUtf8String source
          else if valueType = typeArray then
            match nesting with
            | 0 => guarded False
            | nesting + 1 => do
                let elementType ← readU32 source
                guarded (elementType ≤ typeFloat64)
                let count ← readU64 source
                charge count
                match fixedSize elementType with
                | some size => do
                    let bytes ← orInvalid (checkedMul count size)
                    chargeBytes bytes
                    skip source bytes
                | none =>
                    if elementType = typeBool then do
                      chargeBytes count
                      checkBoolBytes source count
                    else
                      repeated (parseMetadataValue source nesting elementType)
                        count
          else guarded False

def isLowerAscii (b : UInt8) : Bool := 0x61 ≤ b && b ≤ 0x7a

def isUpperAscii (b : UInt8) : Bool := 0x41 ≤ b && b ≤ 0x5a

def isDigitAscii (b : UInt8) : Bool := 0x30 ≤ b && b ≤ 0x39

def noDoubleUnderscore : Bytes → Bool
  | a :: b :: rest => !(a == 0x5f && b == 0x5f) && noDoubleUnderscore (b :: rest)
  | _ => true

def isLowerSnakeCase (segment : Bytes) : Bool :=
  segment.head?.any isLowerAscii &&
    (segment.getLast?.any fun b =>
      isLowerAscii b || isUpperAscii b || isDigitAscii b) &&
    noDoubleUnderscore segment &&
    segment.all fun b => isLowerAscii b || isDigitAscii b || b == 0x5f

def keyOk (key : Bytes) : Bool :=
  key ≠ [] && (key.splitOn 0x2e).all isLowerSnakeCase

def nameOk (name : Bytes) : Bool :=
  !name.contains 0 && (Text.fromUtf8 name).isSome

/-- The metadata entries; the result is the alignment they declare. -/
def parseMetadata (source : ByteSource) :
    Nat → List Bytes → Nat → Parser Nat
  | 0, _, alignment => pure alignment
  | count + 1, keys, alignment => do
      let key ← readBoundedBytes source maxMetadataKeyLen
      guarded (keyOk key = true)
      chargeSymbolBytes key.length
      guarded (key ∉ keys)
      let valueType ← readU32 source
      if key = generalAlignment then do
        guarded (valueType = typeUint32)
        chargeBytes 4
        let alignment ← readU32 source
        parseMetadata source count (key :: keys) alignment
      else do
        parseMetadataValue source maxArrayDepth valueType
        parseMetadata source count (key :: keys) alignment

/-! The tensor directory. -/

/-- Elements and bytes of one encoded block. -/
def ggmlLayout : Nat → Option (Nat × Nat)
  | 0 => some (1, 4)
  | 1 => some (1, 2)
  | 2 => some (32, 18)
  | 3 => some (32, 20)
  | 6 => some (32, 22)
  | 7 => some (32, 24)
  | 8 => some (32, 34)
  | 9 => some (32, 40)
  | 10 => some (256, 84)
  | 11 => some (256, 110)
  | 12 => some (256, 144)
  | 13 => some (256, 176)
  | 14 => some (256, 210)
  | 15 => some (256, 292)
  | 16 => some (256, 66)
  | 17 => some (256, 74)
  | 18 => some (256, 98)
  | 19 => some (256, 50)
  | 20 => some (32, 18)
  | 21 => some (256, 110)
  | 22 => some (256, 82)
  | 23 => some (256, 136)
  | 24 => some (1, 1)
  | 25 => some (1, 2)
  | 26 => some (1, 4)
  | 27 => some (1, 8)
  | 28 => some (1, 8)
  | 29 => some (256, 56)
  | 30 => some (1, 2)
  | 34 => some (256, 54)
  | 35 => some (256, 66)
  | 39 => some (32, 17)
  | 40 => some (64, 36)
  | 41 => some (128, 18)
  | 42 => some (64, 18)
  | _ => none

def isPowerOfTwo (n : Nat) : Bool := 2 ^ Nat.log2 n == n

/-- Rounds up to a power-of-two alignment; masking the low bits of the sum is
subtracting its remainder. -/
def alignUp (value alignment : Nat) : Option Nat := do
  let sum ← checkedAdd value (alignment - 1)
  some (sum - sum % alignment)

def tensorLength (dimensions : List Nat) (blockElements blockBytes : Nat) :
    Option Nat := do
  let first := dimensions.headD 1
  if first % blockElements = 0 then do
    let elementCount ← checkedProduct 1 dimensions
    if elementCount < 2 ^ 63 - 1 then
      let row ← checkedMul (first / blockElements) blockBytes
      checkedProduct row dimensions.tail
    else none
  else none

def readDimensions (source : ByteSource) : Nat → Parser (List Nat)
  | 0 => pure []
  | count + 1 => do
      let dimension ← readU64 source
      guarded (dimension ≤ 2 ^ 63 - 1)
      let rest ← readDimensions source count
      pure (dimension :: rest)

def parseTensor (source : ByteSource) (names : List Bytes)
    (expectedOffset : Nat) : Parser (Bytes × TensorInfo) := do
  let nameBytes ← readBoundedBytes source maxTensorNameLen
  guarded (nameOk nameBytes = true)
  chargeSymbolBytes nameBytes.length
  guarded (nameBytes ∉ names)
  let name ← orInvalid (Text.fromUtf8 nameBytes)
  let dimensionCount ← readU32 source
  guarded (dimensionCount ≤ 4)
  let declared ← readDimensions source dimensionCount
  let dimensions := declared ++ List.replicate (4 - dimensionCount) 1
  let ggmlType ← readU32 source
  let block ← orInvalid (ggmlLayout ggmlType)
  let length ← orInvalid (tensorLength dimensions block.1 block.2)
  let offset ← readU64 source
  guarded (offset = expectedOffset)
  pure (nameBytes,
    ⟨name, dimensions, dimensionCount, ggmlType, offset, length⟩)

/-- The directory entries and the end of the data they describe. -/
def parseTensors (source : ByteSource) (alignment : Nat) :
    Nat → List Bytes → Nat → Parser (List TensorInfo × Nat)
  | 0, _, expectedOffset => pure ([], expectedOffset)
  | count + 1, names, expectedOffset => do
      let (name, tensor) ← parseTensor source names expectedOffset
      let padded ← orInvalid (alignUp tensor.length alignment)
      let next ← orInvalid (checkedAdd expectedOffset padded)
      let (tensors, stop) ←
        parseTensors source alignment count (name :: names) next
      pure (tensor :: tensors, stop)

def validateCounts (metadataCount tensorCount left : Nat) : Parser Unit := do
  guarded (metadataCount ≤ maxMetadataCount ∧ tensorCount ≤ maxTensorCount)
  let metadata ← orInvalid (checkedMul metadataCount 13)
  let directory ← orInvalid (checkedMul tensorCount 24)
  let minimum ← orInvalid (checkedAdd metadata directory)
  guarded (minimum ≤ left)

def position : Parser Nat := fun cursor => .ok (cursor.position, cursor)

/-- Magic, version and the two counts, tensors first. -/
def parseHeader (source : ByteSource) : Parser (Nat × Nat) := do
  let found ← read source 4
  guarded (found = magic)
  let version ← readU32 source
  guarded (version = 2 ∨ version = 3)
  let tensorCount ← readU64 source
  let metadataCount ← readU64 source
  let left ← remaining source
  validateCounts metadataCount tensorCount left
  pure (tensorCount, metadataCount)

def parseAlignment (source : ByteSource) (metadataCount : Nat) :
    Parser Nat := do
  limitNext maxMetadataInspectionBytes
  let alignment ← parseMetadata source metadataCount [] defaultAlignment
  clearLimit
  guarded (8 ≤ alignment ∧ isPowerOfTwo alignment = true)
  pure alignment

def parseDirectory (source : ByteSource) (tensorCount alignment : Nat) :
    Parser Layout := do
  let directoryStart ← position
  let (tensors, dataLength) ← parseTensors source alignment tensorCount [] 0
  let directoryEnd ← position
  let dataStart ← orInvalid
    (if tensors = [] then some directoryEnd
      else alignUp directoryEnd alignment)
  let expectedFileSize ← orInvalid (checkedAdd dataStart dataLength)
  guarded (expectedFileSize = source.len)
  pure ⟨alignment, directoryStart, directoryEnd, dataStart, tensors⟩

def parseLayout (source : ByteSource) : Parser Layout := do
  let (tensorCount, metadataCount) ← parseHeader source
  let alignment ← parseAlignment source metadataCount
  parseDirectory source tensorCount alignment

def parse (source : ByteSource) : Except ParseFailure Layout := do
  let found ← parseLayout source ⟨0, none, 0, 0, 0⟩
  .ok found.1

/-! Regions. -/

/-- Logical row-major order, outermost axis first. -/
def logicalShape (tensor : TensorInfo) : List UInt64 :=
  ((tensor.dimensions.take tensor.dimensionCount).reverse).map UInt64.ofNat

def ofPlanError {α : Type} : Except PlanError α → Except (Failure ParseFailure) α
  | .ok value => .ok value
  | .error .objectLimit => .error (.refused .invalid)
  | .error .resourceExhausted => .error (.refused .resourceExhausted)
  | .error _ => .error (.refused .invalid)

def appendDomain (regions : List Region) (offset length : Nat)
    (kind : RegionKind) : Except (Failure ParseFailure) (List Region) :=
  ofPlanError (appendSplitRegion regions offset length kind)

def appendSeamedDomain (regions : List Region) (offset length : Nat)
    (seams : List Nat) : Except (Failure ParseFailure) (List Region) :=
  ofPlanError (appendTensorRegions regions offset length seams .tensor)

def orRefused {α : Type} : Option α → Except (Failure ParseFailure) α
  | some value => .ok value
  | none => .error (.refused .invalid)

def appendTensors (contract : Option Contract) (alignment dataStart : Nat) :
    List Region → List TensorInfo → (limit : Nat := Fusion.maxRunCapacity) →
      Except (Failure ParseFailure) (List Region)
  | regions, [], _ => .ok regions
  | regions, tensor :: tensors, limit => do
      let tensorStart ← orRefused (checkedAdd dataStart tensor.offset)
      let seams ← Contract.seams contract tensor.name (logicalShape tensor)
        tensor.length limit
      let regions ← appendSeamedDomain regions tensorStart tensor.length seams
      let paddedLength ← orRefused (alignUp tensor.length alignment)
      let regions ← appendDomain regions (tensorStart + tensor.length)
        (paddedLength - tensor.length) .header
      appendTensors contract alignment dataStart regions tensors limit

def planLayout (P : Platform) (fileSize : Nat) (contract : Option Contract)
    (layout : Layout) (limit : Nat := Fusion.maxRunCapacity) :
    Except (Failure ParseFailure) Plan := do
  let regions ← appendDomain [] 0 layout.directoryStart .header
  let regions ← appendDomain regions layout.directoryStart
    (layout.directoryEnd - layout.directoryStart) .header
  let regions ← appendDomain regions layout.directoryEnd
    (layout.dataStart - layout.directoryEnd) .header
  let regions ← appendTensors contract layout.alignment layout.dataStart
    regions layout.tensors limit
  .ok {
    planner := .ggufV1
    contract := match contract with
      | none => .none
      | some contract => contract.stamp P.sha256
    fileSize := fileSize
    regions := regions }

def lift {α : Type} : Except (Failure ParseFailure) α →
    Except (Failure PlanError) (Option α)
  | .ok value => .ok (some value)
  | .error (.refused .invalid) => .ok none
  | .error (.refused .read) => .error (.refused .read)
  | .error (.refused .resourceExhausted) =>
      .error (.refused .resourceExhausted)
  | .error .panicked => .error .panicked

def tryPlan (P : Platform) (source : ByteSource)
    (contract : Option Contract) (limit : Nat := Fusion.maxRunCapacity) :
    Except (Failure PlanError) (Option Plan) :=
  lift do
    let layout ← refusing (parse source)
    planLayout P source.len contract layout limit

end TensorFS.Gguf
