import TensorFS.Planner.Plan

namespace TensorFS.Safetensors

open Data

/-! The safetensors planner. -/

def prefixSize : Nat := 8

def maxHeaderSize : Nat := 100000000

structure TensorDescriptor where
  dtype : Text
  shape : List UInt64
  dataOffsets : UInt64 × UInt64

/-- The derived reading: an object with exactly the three fields, or the three
values in declaration order. -/
def TensorDescriptor.ofJson : Json → Option TensorDescriptor
  | .object members => do
      if members.length = 3 then
        build (← Json.field members "dtype") (← Json.field members "shape")
          (← Json.field members "data_offsets")
      else none
  | .array [dtype, shape, offsets] => build dtype shape offsets
  | _ => none
where
  build (dtype shape offsets : Json) : Option TensorDescriptor := do
    let dtype ← dtype.asString
    let shape ← shape.asU64s
    match ← offsets.asU64s with
    | [start, stop] => some ⟨dtype, shape, (start, stop)⟩
    | _ => none

/-- String metadata, or null; repeated keys are refused. -/
def metadataOk : Json → Bool
  | .null => true
  | .object members =>
      decide (members.map Prod.fst).Nodup &&
        members.all fun member => member.2.asString.isSome
  | _ => false

def headerTensors : List Text → Nat → List (Text × Json) →
    Option (List (Text × TensorDescriptor))
  | _, _, [] => some []
  | names, count, (name, value) :: rest =>
      if name ∈ names then none
      else if name = "__metadata__".toList then
        if metadataOk value then headerTensors (name :: names) count rest
        else none
      else if name = [] ∨ maxObjectCount ≤ count then none
      else do
        let descriptor ← TensorDescriptor.ofJson value
        let tensors ← headerTensors (name :: names) (count + 1) rest
        some ((name, descriptor) :: tensors)

def headerOfJson : Json → Option (List (Text × TensorDescriptor))
  | .object members => headerTensors [] 0 members
  | _ => none

structure TensorEntry where
  name : Text
  dtype : Text
  shape : List UInt64
  start : Nat
  stop : Nat
  deriving DecidableEq

def TensorEntry.length (tensor : TensorEntry) : Nat :=
  tensor.stop - tensor.start

structure Layout where
  headerEnd : Nat
  tensors : List TensorEntry

def dtypeBits (dtype : Text) : Option Nat :=
  if dtype = "F4".toList then some 4
  else if dtype ∈ ["F6_E2M3", "F6_E3M2"].map String.toList then some 6
  else if dtype ∈ ["BOOL", "U8", "I8", "F8_E5M2", "F8_E4M3", "F8_E8M0",
      "F8_E5M2FNUZ", "F8_E4M3FNUZ"].map String.toList then some 8
  else if dtype ∈ ["I16", "U16", "F16", "BF16"].map String.toList then some 16
  else if dtype ∈ ["I32", "U32", "F32"].map String.toList then some 32
  else if dtype ∈ ["I64", "U64", "F64", "C64"].map String.toList then some 64
  else none

def tensorByteSize (tensor : TensorDescriptor) : Option Nat := do
  let bitsPerElement ← dtypeBits tensor.dtype
  let elements ← checkedProduct 1 (tensor.shape.map UInt64.toNat)
  let bits ← checkedMul elements bitsPerElement
  if bits % 8 = 0 then some (bits / 8) else none

def tensorEntry (name : Text) (tensor : TensorDescriptor) :
    Option TensorEntry :=
  let start := tensor.dataOffsets.1.toNat
  let stop := tensor.dataOffsets.2.toNat
  if start ≤ stop ∧ tensorByteSize tensor = some (stop - start) then
    some ⟨name, tensor.dtype, tensor.shape, start, stop⟩
  else
    none

def byExtent (left right : TensorEntry) : Prop :=
  left.start < right.start ∨
    (left.start = right.start ∧ left.stop ≤ right.stop)

instance : DecidableRel byExtent := fun _ _ => inferInstanceAs (Decidable (_ ∨ _))

/-- The tensors cover the data section exactly once from `cursor`. -/
def contiguous (dataSize : Nat) : Nat → List TensorEntry → Bool
  | cursor, [] => cursor == dataSize
  | cursor, tensor :: tensors =>
      tensor.start == cursor && tensor.stop ≤ dataSize &&
        contiguous dataSize tensor.stop tensors

def layoutOfHeader (fileSize headerEnd : Nat)
    (header : List (Text × TensorDescriptor)) : Option Layout := do
  let tensors ← header.mapM fun item => tensorEntry item.1 item.2
  let sorted := tensors.insertionSort byExtent
  if contiguous (fileSize - headerEnd) 0 sorted then
    some ⟨headerEnd, sorted⟩
  else
    none

def readLayout (P : Platform) (source : ByteSource) :
    Except PlanError (Option Layout) :=
  if source.len < prefixSize + 2 then .ok none
  else do
    let front ← source.readExactAt 0 prefixSize
    let headerSize := leNat front
    if headerSize < 2 ∨ maxHeaderSize < headerSize then .ok none
    else if source.len < prefixSize + headerSize then .ok none
    else do
      let headerBytes ← source.readExactAt prefixSize headerSize
      if headerBytes.head? ≠ some 0x7b then .ok none
      else
        .ok do
          let json ← P.json headerBytes
          let header ← headerOfJson json
          layoutOfHeader source.len (prefixSize + headerSize) header

/-- An object-limit refusal means the file is no tensor container. -/
def orNone {α : Type} : Except PlanError α →
    Except (Failure PlanError) (Option α)
  | .ok value => .ok (some value)
  | .error .objectLimit => .ok none
  | .error refusal => .error (.refused refusal)

def appendTensors (contract : Option Contract) (headerEnd : Nat) :
    List Region → List TensorEntry → (limit : Nat := Fusion.maxRunCapacity) →
      Except (Failure PlanError) (Option (List Region))
  | regions, [], _ => .ok (some regions)
  | regions, tensor :: tensors, limit =>
      if tensor.length = 0 then
        appendTensors contract headerEnd regions tensors limit
      else do
        let seams ←
          Contract.seams contract tensor.name tensor.shape tensor.length limit
        match ← orNone (appendTensorRegions regions
            (headerEnd + tensor.start) tensor.length seams .tensor) with
        | none => .ok none
        | some regions =>
            appendTensors contract headerEnd regions tensors limit

def planLayout (P : Platform) (fileSize : Nat) (contract : Option Contract)
    (layout : Layout) (limit : Nat := Fusion.maxRunCapacity) :
    Except (Failure PlanError) (Option Plan) := do
  match ← orNone (appendSplitRegion [] 0 layout.headerEnd .header) with
  | none => .ok none
  | some regions =>
      match ← appendTensors contract layout.headerEnd regions
          layout.tensors limit with
      | none => .ok none
      | some regions => .ok (some {
          planner := .safetensorsV1
          contract := match contract with
            | none => .none
            | some contract => contract.stamp P.sha256
          fileSize := fileSize
          regions := regions })

def tryPlan (P : Platform) (source : ByteSource)
    (contract : Option Contract) (limit : Nat := Fusion.maxRunCapacity) :
    Except (Failure PlanError) (Option Plan) := do
  match ← refusing (readLayout P source) with
  | none => .ok none
  | some layout => planLayout P source.len contract layout limit

end TensorFS.Safetensors
