import TensorFS.Adapter.Permute
import TensorFS.Compose.Header
import TensorFS.Compose.Records
import TensorFS.Planner.Inventory

namespace TensorFS

open Data

variable {P : Platform}

/-! Deriving a container in another layout contract from a committed one's own
bytes. -/

/-- The runs, one behind the other, in a buffer of the given size. -/
def readRuns (source : ByteSource) (size : Nat) :
    Nat → List SourceRun → Except (Failure ComposeError) Bytes
  | _, [] => .ok []
  | written, run :: runs =>
      if size < written + run.length then .error .panicked
      else do
        let bytes ← planning (refusing
          (source.readExactAt run.offset run.length))
        let rest ← readRuns source size (written + run.length) runs
        .ok (bytes ++ rest)

/-- The product of the dimensions; it wraps at 64 bits. -/
def DerivedTensor.elements (tensor : DerivedTensor) : Nat :=
  (tensor.shape.map UInt64.toNat).prod % 2 ^ 64

def DerivedTensor.elementSize (tensor : DerivedTensor) : Nat :=
  tensor.length / max tensor.elements 1

/-- The materialized bytes of a re-arranged tensor. -/
def rearrange (source : ByteSource) (tensor : DerivedTensor) :
    Except (Failure ComposeError) Bytes := do
  let bytes ← readRuns source tensor.length 0 tensor.runs
  refusing (ensure (tensor.elementSize ≠ 0)
    (.notDerivable (.elementSize tensor.name)))
  match tensor.transform.apply bytes tensor.elementSize tensor.shape with
  | none => .error (.refused (.notDerivable (.permute tensor.name)))
  | some none => .error .panicked
  | some (some moved) => .ok moved

def inheritRuns (records : List FileRecord) :
    List SourceRun → Except (Failure ComposeError) (List FileRecord)
  | [] => .ok []
  | run :: runs =>
      match inherit records run.offset run.length with
      | none => .error (.refused (.notObjectAligned run.role))
      | some taken => do
          let rest ← inheritRuns records runs
          .ok (taken ++ rest)

/-- The records of one derived tensor: inherited, or read once, moved once and
admitted once. -/
def deriveTensor (records : List FileRecord) (store : ObjectStore P)
    (tensor : DerivedTensor) :
    Except (Failure ComposeError) (ObjectStore P × List FileRecord) :=
  if tensor.transform.isIdentity = true then do
    let taken ← inheritRuns records tensor.runs
    .ok (store, taken)
  else do
    let moved ← rearrange (recordsSource store records) tensor
    .ok (admitBytes store moved)

def deriveTensors (records : List FileRecord) :
    ObjectStore P → List DerivedTensor →
      Except (Failure ComposeError) (ObjectStore P × List FileRecord)
  | store, [] => .ok (store, [])
  | store, tensor :: tensors => do
      let first ← deriveTensor records store tensor
      let rest ← deriveTensors records first.1 tensors
      .ok (rest.1, first.2 ++ rest.2)

def DerivedTensor.declared (tensor : DerivedTensor) : DeclaredTensor :=
  ⟨tensor.name, tensor.dtype, tensor.shape, tensor.length⟩

def orUnreadable (found : Option TensorInventory) :
    Except ComposeError TensorInventory :=
  match found with
  | some found => .ok found
  | none => .error (.unreadable "safetensors".toList)

/-- The layout decision, inside a derivation. -/
def deciding : Except (Failure AdapterError) Decision →
    Except (Failure ComposeError) Adapter
  | .ok decision =>
      match decision with
      | .runPreserving adapter => .ok adapter
      | .rearranged adapter _ => .ok adapter
      | .conversion reason =>
          .error (.refused (.notDerivable (.conversion reason)))
  | .error (.refused error) => .error (.refused (.notDerivable (.adapter error)))
  | .error .panicked => .error .panicked

/-- What `derive` builds: the decision of the source contract and the target
one over the file's inventory. -/
def derivePlan (P : Platform) (source : ByteSource)
    (sourceContract targetContract : Contract) :
    Except (Failure ComposeError) Adapter := do
  let found ← planning (refusing (inventory P source))
  let inventory ← refusing (orUnreadable found)
  deciding (Adapter.decide sourceContract inventory targetContract)

def derive (store : ObjectStore P) (body : FileBody)
    (sourceContract targetContract : Contract) :
    Except (Failure ComposeError) (ObjectStore P × FileBody) :=
  match body with
  | .blob .. => .error (.refused .notATensorContainer)
  | .tensor _ _ _ records => do
      let adapter ← derivePlan P (recordsSource store records) sourceContract
        targetContract
      let header := admitBytes store
        (safetensorsHeader (adapter.tensors.map DerivedTensor.declared))
      let derived ← deriveTensors records header.1 adapter.tensors
      let composed := header.2 ++ derived.2
      .ok (derived.1,
        .tensor .safetensorsV1 (targetContract.stamp P.sha256)
          (recordSum composed) composed)

end TensorFS
