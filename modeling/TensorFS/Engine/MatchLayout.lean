import TensorFS.Engine.Document

namespace TensorFS.Go

open Data

/-! Matching one candidate's headers against one computed layout. -/

/-- One entry of a computed expected header. -/
structure LayoutTensor where
  dtypes : List Text
  shape : List UInt64
  optional : Bool
  deriving DecidableEq

structure LayoutComponent where
  name : Text
  tensors : OrdMap Text LayoutTensor

/-- A rule's computed header; `transformed` counts the tensors it acted on. -/
structure Layout where
  id : LayoutID
  components : List LayoutComponent
  transformed : Nat

/-- A header's row; a length of zero was not supplied. -/
structure InventoryTensor where
  name : Text
  dtype : Text
  shape : List UInt64
  length : UInt64
  deriving DecidableEq

/-- One tensor-carrying member; a header declares a name once. -/
structure ArtifactFile where
  path : Text
  tensors : List InventoryTensor
  names_nodup : (tensors.map InventoryTensor.name).Nodup

def ArtifactFile.names (file : ArtifactFile) : List Text :=
  file.tensors.map InventoryTensor.name

inductive RefusalReason where
  | shape
  | dtype
  | unclaimed
  | missing
  | duplicate
  | noStamp
  | unrelated
  | noLane
  | noBridge
  deriving DecidableEq, Repr

structure Refusal where
  reason : RefusalReason
  lane : Option LayoutID := none
  member : Text := []
  component : Text := []
  tensor : Text := []
  declared : Text := []
  observed : Text := []
  matched : Nat := 0
  note : Text := []
  deriving DecidableEq

def joinStrings (separator : Text) : List Text → Text
  | [] => []
  | [text] => text
  | text :: rest => text ++ separator ++ joinStrings separator rest

def shapeString (shape : List UInt64) : Text :=
  '[' :: joinStrings ", ".toList
    (shape.map fun dimension => decimal dimension.toNat) ++ [']']

namespace LayoutTensor

def render (tensor : LayoutTensor) : Text :=
  shapeString tensor.shape ++ ' ' :: joinStrings ['|'] tensor.dtypes ++
    if tensor.optional then " (optional)".toList else []

def accepts (tensor : LayoutTensor) (dtype : Text) : Bool :=
  tensor.dtypes.contains dtype

end LayoutTensor

/-- The loop over a member's tensors; `matched` entries have lined up. -/
def acceptTensors (component : LayoutComponent) (path : Text) :
    Nat → List InventoryTensor → Except Refusal Unit
  | _, [] => .ok ()
  | matched, tensor :: tensors =>
      match component.tensors.get? tensor.name with
      | none =>
          .error { reason := .unclaimed, member := path,
                   component := component.name, tensor := tensor.name,
                   observed := shapeString tensor.shape ++ ' ' :: tensor.dtype,
                   matched := matched }
      | some declared =>
          if declared.shape ≠ tensor.shape then
            .error { reason := .shape, member := path,
                     component := component.name, tensor := tensor.name,
                     declared := shapeString declared.shape,
                     observed := shapeString tensor.shape,
                     matched := matched }
          else if declared.accepts tensor.dtype = false then
            .error { reason := .dtype, member := path,
                     component := component.name, tensor := tensor.name,
                     declared := joinStrings ['|'] declared.dtypes,
                     observed := tensor.dtype, matched := matched }
          else
            acceptTensors component path (matched + 1) tensors

def componentAccepts (component : LayoutComponent) (file : ArtifactFile) :
    Except Refusal Unit :=
  acceptTensors component file.path 0 file.tensors

def accepted (component : LayoutComponent) (file : ArtifactFile) : Bool :=
  match componentAccepts component file with
  | .ok _ => true
  | .error _ => false

/-- How many of a member's keys the component declares at all. -/
def overlap (component : LayoutComponent) (file : ArtifactFile) : Nat :=
  file.tensors.countP fun tensor =>
    (component.tensors.get? tensor.name).isSome

/-- The refusal of the component that came closest, the first on a tie. -/
def closestRefusal (file : ArtifactFile) :
    Option (Refusal × Nat) → List LayoutComponent → Option (Refusal × Nat)
  | best, [] => best
  | best, component :: components =>
      match componentAccepts component file with
      | .ok _ => closestRefusal file best components
      | .error refusal =>
          let shared := overlap component file
          if best.all fun found => found.2 < shared then
            closestRefusal file (some (refusal, shared)) components
          else
            closestRefusal file best components

def bestRefusal (layout : Layout) (file : ArtifactFile) : Refusal :=
  match closestRefusal file none layout.components with
  | some (refusal, _) => { refusal with lane := some layout.id }
  | none =>
      { reason := .unclaimed, lane := some layout.id, member := file.path }

/-- The candidate component indexes of a member, in component order. -/
def pendingOf (layout : Layout) (file : ArtifactFile) : List Nat :=
  (List.range layout.components.length).filter fun index =>
    (layout.components[index]?).any fun component => accepted component file

def checkPending (layout : Layout) : List ArtifactFile → Except Refusal Unit
  | [] => .ok ()
  | file :: files =>
      if pendingOf layout file = [] then .error (bestRefusal layout file)
      else checkPending layout files

/-- What has been assigned so far: the keys each component carries, how many
entries lined up, and the component name of each member's path. -/
structure Progress where
  covered : Nat → List Text
  matched : Nat
  assignment : OrdMap Text Text

def Progress.start : Progress := ⟨fun _ => [], 0, .empty⟩

def componentName (layout : Layout) (index : Nat) : Text :=
  ((layout.components[index]?).map LayoutComponent.name).getD []

/-- Covers a member's tensors one by one, refusing a key already there. -/
def coverTensors (layout : Layout) (path : Text) (index : Nat) :
    Progress → List InventoryTensor → Except Refusal Progress
  | progress, [] => .ok progress
  | progress, tensor :: tensors =>
      if tensor.name ∈ progress.covered index then
        .error { reason := .duplicate, lane := some layout.id, member := path,
                 component := componentName layout index,
                 tensor := tensor.name }
      else
        coverTensors layout path index
          { progress with
              covered := Function.update progress.covered index
                (tensor.name :: progress.covered index),
              matched := progress.matched + 1 } tensors

def assign (layout : Layout) (progress : Progress) (file : ArtifactFile)
    (index : Nat) : Except Refusal Progress := do
  let progress ← coverTensors layout file.path index progress file.tensors
  .ok { progress with
          assignment := progress.assignment.insert file.path
            (componentName layout index) }

/-- The last directory of a member's path. -/
def directoryHint (memberPath : Text) : Text :=
  match rsplitOnce '/' memberPath with
  | none => []
  | some (rest, _) =>
      match rsplitOnce '/' rest with
      | none => rest
      | some (_, last) => last

/-- The keys a component still lacks of the member, plus one for the directory
name. -/
def score (layout : Layout) (covered : Nat → List Text) (file : ArtifactFile)
    (index : Nat) : Nat :=
  (file.tensors.countP fun tensor => tensor.name ∉ covered index) +
    if directoryHint file.path = componentName layout index then 1 else 0

/-- The highest score, the earliest candidate on a tie. -/
def bestCandidate (layout : Layout) (covered : Nat → List Text)
    (file : ArtifactFile) : Option (Nat × Nat) → List Nat → Option (Nat × Nat)
  | best, [] => best
  | best, index :: indexes =>
      let found := score layout covered file index
      if best.all fun previous => previous.2 < found then
        bestCandidate layout covered file (some (index, found)) indexes
      else
        bestCandidate layout covered file best indexes

/-- The component the engine sends a member to. -/
def pick (layout : Layout) (covered : Nat → List Text)
    (file : ArtifactFile) : Nat :=
  ((bestCandidate layout covered file none (pendingOf layout file)).map
    Prod.fst).getD 0

def unambiguous (layout : Layout) (file : ArtifactFile) : Bool :=
  (pendingOf layout file).length = 1

def assignSettled (layout : Layout) :
    Progress → List ArtifactFile → Except Refusal Progress
  | progress, [] => .ok progress
  | progress, file :: files => do
      let progress ← assign layout progress file
        ((pendingOf layout file).headD 0)
      assignSettled layout progress files

def assignAmbiguous (layout : Layout) :
    Progress → List ArtifactFile → Except Refusal Progress
  | progress, [] => .ok progress
  | progress, file :: files => do
      let progress ← assign layout progress file
        (pick layout progress.covered file)
      assignAmbiguous layout progress files

def missingKey (layout : Layout) (progress : Progress) (index : Nat)
    (component : LayoutComponent) : List (Text × LayoutTensor) →
    Except Refusal Unit
  | [] => .ok ()
  | (key, declared) :: entries =>
      if key ∈ progress.covered index ∨ declared.optional = true then
        missingKey layout progress index component entries
      else
        .error { reason := .missing, lane := some layout.id,
                 component := component.name, tensor := key,
                 declared := declared.render, matched := progress.matched }

def checkComplete (layout : Layout) (progress : Progress) :
    Nat → List LayoutComponent → Except Refusal Unit
  | _, [] => .ok ()
  | index, component :: components => do
      missingKey layout progress index component component.tensors.entries
      checkComplete layout progress (index + 1) components

structure Match where
  assignment : OrdMap Text Text
  matched : Nat

def byPath (files : List ArtifactFile) : List ArtifactFile :=
  files.mergeSort fun left right => decide (left.path ≤ right.path)

/-- Unambiguous members are assigned first, each pass in path order. -/
def matchLayout (files : List ArtifactFile) (layout : Layout) :
    Except Refusal Match := do
  let ordered := byPath files
  checkPending layout ordered
  let progress ← assignSettled layout .start
    (ordered.filter (unambiguous layout))
  let progress ← assignAmbiguous layout progress
    (ordered.filter fun file => !unambiguous layout file)
  checkComplete layout progress 0 layout.components
  .ok ⟨progress.assignment, progress.matched⟩

end TensorFS.Go
