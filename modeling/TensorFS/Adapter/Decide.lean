import TensorFS.Planner.Plan

namespace TensorFS

open Data

/-! Header inventories: what a layout decision may look at. -/

structure InventoryTensor where
  name : Text
  dtype : Text
  shape : List UInt64
  offset : Nat
  length : Nat
  deriving DecidableEq

/-- The tensors of one container; each lies inside its file. -/
structure TensorInventory where
  format : TensorFormat
  tensors : List InventoryTensor
  inside : ∀ tensor ∈ tensors, tensor.offset + tensor.length < 2 ^ 64

/-- One contiguous byte run of the source file, under the role it carries. -/
structure SourceRun where
  role : Text
  tensor : Text
  dtype : Text
  permute : Option Permute
  offset : Nat
  length : Nat
  rows : Nat
  rowShape : List UInt64
  deriving DecidableEq

/-- What must happen to the concatenated runs to produce a tensor. -/
inductive Transform where
  | identity
  | forward (permute : Permute)
  | inverse (permute : Permute)
  deriving DecidableEq

def Transform.isIdentity : Transform → Bool
  | .identity => true
  | _ => false

structure DerivedTensor where
  name : Text
  dtype : Text
  shape : List UInt64
  runs : List SourceRun
  transform : Transform
  deriving DecidableEq

/-- The summed run lengths wrap at 64 bits. -/
def DerivedTensor.length (tensor : DerivedTensor) : Nat :=
  (tensor.runs.map SourceRun.length).sum % 2 ^ 64

structure Adapter where
  tensors : List DerivedTensor
  deriving DecidableEq

/-- Why a layout is no view of another. -/
inductive Reason where
  | partialRows (role : Text)
  | sharedRole (role : Text)
  | missingRequired (role : Text)
  | missingRole (role : Text)
  | noRuns
  | cast (name first other : Text)
  | rowShapes (name : Text)
  | mixedPermutes (name : Text)
  | permutedTwice (name : Text)
  | describesNothing
  | orphan (role : Text)
  deriving DecidableEq

inductive AdapterError where
  | sourceMismatch
  | notDerivable (reason : Reason)
  deriving DecidableEq

inductive Decision where
  | runPreserving (adapter : Adapter)
  | rearranged (adapter : Adapter) (rearranged : List Text)
  | conversion (reason : Reason)
  deriving DecidableEq

namespace Decision

def adapter : Decision → Option Adapter
  | runPreserving adapter => some adapter
  | rearranged adapter _ => some adapter
  | conversion _ => none

end Decision

namespace Adapter

/-! The byte runs of a file under the roles the source contract gives them. -/

/-- The bytes of one step along the outermost axis, as a truncated
quotient. -/
def rowBytes (tensor : InventoryTensor) : Nat :=
  tensor.length / max ((tensor.shape.head?.map UInt64.toNat).getD 1) 1

def sourceRun (tensor : InventoryTensor) (role : Text) (offset length : Nat) :
    Except AdapterError SourceRun :=
  if rowBytes tensor = 0 ∨ ¬ rowBytes tensor ∣ length then
    .error (.notDerivable (.partialRows role))
  else
    .ok {
      role := role
      tensor := tensor.name
      dtype := tensor.dtype
      permute := none
      offset := offset
      length := length
      rows := length / rowBytes tensor
      rowShape := tensor.shape.tail }

def orMismatch {α : Type} : Option α → Except AdapterError α
  | some value => .ok value
  | none => .error .sourceMismatch

/-- One tensor's parts behind the runs so far; the offset wraps at 64 bits. -/
def partRuns (tensor : InventoryTensor) (base : Text)
    (permute : Option Permute) :
    OrdMap Text SourceRun → Nat → List FusionRun →
      Except AdapterError (OrdMap Text SourceRun)
  | runs, _, [] => .ok runs
  | runs, offset, part :: parts => do
      let role := base ++ part.role
      let run ← sourceRun tensor role offset part.length
      ensure (runs.get? role = none) (.notDerivable (.sharedRole role))
      partRuns tensor base permute
        (runs.insert role { run with permute := permute })
        ((offset + part.length) % 2 ^ 64) parts

/-- A tensor without a declaration contributes nothing. -/
def tensorRuns (contract : Contract) (runs : OrdMap Text SourceRun)
    (tensor : InventoryTensor) :
    Except (Failure AdapterError) (OrdMap Text SourceRun) :=
  match contract.entryFor tensor.name with
  | none => .ok runs
  | some entry => do
      let captures ← refusing (orMismatch (entry.pattern.captures tensor.name))
      let base ← refusing (orMismatch (entry.role.instantiate captures))
      let declared ← contract.runsOf tensor.name tensor.shape tensor.length
      refusing (partRuns tensor base entry.permute runs tensor.offset
        (declared.getD [FusionRun.whole tensor.length]))

def roleRuns (contract : Contract) (inventory : TensorInventory) :
    Except (Failure AdapterError) (OrdMap Text SourceRun) :=
  inventory.tensors.foldlM (tensorRuns contract) .empty

/-! The decision. -/

/-- The ordered run-role suffixes one target declaration needs. -/
def entrySuffixes (entry : TensorPattern) : List Text :=
  match entry.fusion with
  | none => [[]]
  | some fusion => fusion.cycle.map fun slot => fusion.runRole slot.1 slot.2

def stripSuffix (suffix text : Text) : Option Text :=
  (Pattern.stripPrefix suffix.reverse text.reverse).map List.reverse

/-- The hole values a declaration covers, read out of the roles the source
carries. -/
def entryCaptures (available : OrdMap Text SourceRun) (entry : TensorPattern) :
    List (List Nat) :=
  let found := available.entries.flatMap fun item =>
    (entrySuffixes entry).filterMap fun suffix => do
      let base ← stripSuffix suffix item.1
      entry.role.captures base
  let set := found.foldl (fun set values => set.insert values ())
    (OrdMap.empty : OrdMap (List Nat) Unit)
  set.entries.map Prod.fst

/-- What ends the decision early: a verdict, or a refusal. -/
inductive Halt where
  | conversion (reason : Reason)
  | failed (error : AdapterError)
  deriving DecidableEq

def gatherRuns (available : OrdMap Text SourceRun) (base : Text) :
    List Text → Except Halt (List SourceRun)
  | [] => .ok []
  | suffix :: suffixes =>
      match available.get? (base ++ suffix) with
      | none => .error (.conversion (.missingRole (base ++ suffix)))
      | some run => do
          let runs ← gatherRuns available base suffixes
          .ok (run :: runs)

def checkRuns (name : Text) (first : SourceRun) :
    List SourceRun → Except Halt Unit
  | [] => .ok ()
  | run :: runs => do
      ensure (run.dtype = first.dtype)
        (.conversion (.cast name first.dtype run.dtype))
      ensure (run.rowShape = first.rowShape) (.conversion (.rowShapes name))
      ensure (run.permute = first.permute)
        (.failed (.notDerivable (.mixedPermutes name)))
      checkRuns name first runs

/-- A permute is declared relative to the role's canonical order. -/
def transformBetween (name : Text) :
    Option Permute → Option Permute → Except Halt Transform
  | none, none => .ok .identity
  | none, some target => .ok (.forward target)
  | some source, none => .ok (.inverse source)
  | some source, some target =>
      if source = target then .ok .identity
      else .error (.failed (.notDerivable (.permutedTwice name)))

def derivedTensor (name : Text) (runs : List SourceRun)
    (targetPermute : Option Permute) : Except Halt DerivedTensor :=
  match runs with
  | [] => .error (.conversion .noRuns)
  | first :: rest => do
      checkRuns name first (first :: rest)
      let transform ← transformBetween name first.permute targetPermute
      .ok {
        name := name
        dtype := first.dtype
        shape :=
          UInt64.ofNat ((first :: rest).map SourceRun.rows).sum ::
            first.rowShape
        runs := first :: rest
        transform := transform }

def orFailed {α : Type} : Option α → Except Halt α
  | some value => .ok value
  | none => .error (.failed .sourceMismatch)

/-- One tensor of a declaration, at one choice of its hole values. -/
def instanceTensor (available : OrdMap Text SourceRun) (entry : TensorPattern)
    (values : List Nat) : Except Halt DerivedTensor := do
  let name ← orFailed (entry.pattern.instantiate values)
  let base ← orFailed (entry.role.instantiate values)
  let runs ← gatherRuns available base (entrySuffixes entry)
  derivedTensor name runs entry.permute

def entryTensors (available : OrdMap Text SourceRun) (entry : TensorPattern) :
    Except Halt (List DerivedTensor) := do
  let captures := entryCaptures available entry
  ensure (¬ (captures = [] ∧ entry.required = true))
    (.conversion (.missingRequired entry.role.text))
  captures.mapM (instanceTensor available entry)

/-- The roles the derived tensors claim. -/
def claimed (tensors : List DerivedTensor) : List Text :=
  tensors.flatMap fun tensor => tensor.runs.map SourceRun.role

def rearrangedNames (tensors : List DerivedTensor) : List Text :=
  (tensors.filter fun tensor => !tensor.transform.isIdentity).map
    DerivedTensor.name

def adaptTo (available : OrdMap Text SourceRun) (target : Contract) :
    Except Halt Decision := do
  let found ← target.tensors.mapM (entryTensors available)
  let tensors := found.flatten
  ensure (tensors ≠ []) (.conversion .describesNothing)
  match (available.entries.map Prod.fst).find? (· ∉ claimed tensors) with
  | some orphan => .error (.conversion (.orphan orphan))
  | none =>
      if rearrangedNames tensors = [] then .ok (.runPreserving ⟨tensors⟩)
      else .ok (.rearranged ⟨tensors⟩ (rearrangedNames tensors))

/-- "View or convert?" for one file and one target layout. -/
def decide (source : Contract) (inventory : TensorInventory)
    (target : Contract) : Except (Failure AdapterError) Decision := do
  let available ← roleRuns source inventory
  match adaptTo available target with
  | .ok decision => .ok decision
  | .error (.conversion reason) => .ok (.conversion reason)
  | .error (.failed error) => .error (.refused error)

end Adapter

end TensorFS
