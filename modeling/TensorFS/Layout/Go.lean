import TensorFS.Engine.MatchLayout
import TensorFS.Engine.ShapeExpr

namespace TensorFS.Go

open Data

/-! The engine's layout morphisms: records that parse their extents when they
are validated, and plan them for one shape.  Machine products wrap at 64
bits. -/

inductive LayoutFault where
  | permutesNothing
  | identityRank (rank : Int)
  | noRank (subAxes : Nat)
  | permutationLength (positions subAxes : Nat)
  | axisOrder (axis after : Int)
  | formula (axis : Int) (fault : ShapeFault)
  | axisCount (rank : Int) (covered : Nat)
  | missingPosition (position : Int)
  | sharedPosition (position : Int)
  | changesNothing
  | rank (want : Int) (got : Nat)
  | zeroSized (axis : Int) (extent : Text)
  | missingAxis (axis : Int) (rank : Nat)
  | shortAxis (axis : Int) (product dim : Nat)
  | outOfRange (index : Int)
  deriving DecidableEq

structure LayoutRefusal where
  handle : Handle
  fault : LayoutFault
  deriving DecidableEq

structure SubAxis where
  axis : Int
  extent : Text
  deriving DecidableEq

/-- A candidate is a wish nothing has ratified. -/
structure LayoutMorphism where
  handle : Handle
  layoutClass : Text
  rank : Int
  subAxes : List SubAxis
  extents : List ShapeExpr
  perm : List Int
  candidate : Bool

namespace LayoutMorphism

def identity (record : LayoutMorphism) : Bool := record.subAxes.length = 0

/-- Sub-axes are grouped by axis, in ascending order; the result is the number
of axes and the parsed extents.  The first factor may also repeat the axis
before the first. -/
def validateAxes (handle : Handle) :
    Int → Nat → List SubAxis → Except LayoutRefusal (Nat × List ShapeExpr)
  | _, covered, [] => .ok (covered, [])
  | axis, covered, sub :: rest => do
      ensure (sub.axis = axis ∨ sub.axis = axis + 1)
        ⟨handle, .axisOrder sub.axis axis⟩
      match parseShapeExpr sub.extent with
      | .error fault => .error ⟨handle, .formula sub.axis fault⟩
      | .ok expression => do
          let (covered, expressions) ← validateAxes handle sub.axis
            (if sub.axis = axis then covered else covered + 1) rest
          .ok (covered, expression :: expressions)

def validatePerm (handle : Handle) (count : Nat) :
    List Int → List Int → Except LayoutRefusal Unit
  | _, [] => .ok ()
  | seen, position :: rest => do
      ensure (0 ≤ position ∧ position < count) ⟨handle, .missingPosition position⟩
      ensure (position ∉ seen) ⟨handle, .sharedPosition position⟩
      validatePerm handle count (position :: seen) rest

/-- The identity at every shape: nothing permutes and no extent rounds up. -/
def changesNothing (record : LayoutMorphism) : Bool :=
  record.perm = (List.range record.perm.length).map Int.ofNat ∧
    ∀ sub ∈ record.subAxes, ¬ "ceil(".toList <:+: sub.extent

def validate (record : LayoutMorphism) :
    Except LayoutRefusal LayoutMorphism := do
  let refuse := LayoutRefusal.mk record.handle
  if record.subAxes.length = 0 then do
    ensure (record.perm.length = 0) (refuse .permutesNothing)
    ensure (record.rank = 0) (refuse (.identityRank record.rank))
    .ok record
  else do
    ensure (1 ≤ record.rank) (refuse (.noRank record.subAxes.length))
    ensure (record.perm.length = record.subAxes.length)
      (refuse (.permutationLength record.perm.length record.subAxes.length))
    let (covered, extents) ← validateAxes record.handle (-1) 0 record.subAxes
    ensure (covered = record.rank) (refuse (.axisCount record.rank covered))
    validatePerm record.handle record.perm.length [] record.perm
    ensure (record.changesNothing = false) (refuse .changesNothing)
    .ok { record with extents := extents }

end LayoutMorphism

/-! The document. -/

structure RawLayoutMorphism where
  format : Option Text
  name : Option Text
  version : Option UInt32
  layoutClass : Text
  rank : Int
  subAxes : List SubAxis
  permutation : List Int
  candidate : Bool
  provenance : List Text
  digest : Text

inductive ArrangementFault where
  | format
  | identity
  | handle (fault : HandleFault)
  | layoutClass (handle : Handle) (found : Text)
  | noEvidence (handle : Handle)
  | record (refusal : LayoutRefusal)
  | digest (handle : Handle) (carried hashed : Text)
  deriving DecidableEq

namespace LayoutMorphism

def canonical (record : LayoutMorphism) : Text :=
  layoutMorphismFormat ++ "\nname=".toList ++ record.handle.name ++
    "\nversion=".toList ++ decimal record.handle.version.toNat ++
    "\nclass=".toList ++ record.layoutClass ++ "\nrank=".toList ++
    renderInt record.rank ++ "\ncandidate=".toList ++
    renderBool record.candidate ++ ['\n'] ++
    (record.subAxes.flatMap fun sub =>
      "sub axis=".toList ++ renderInt sub.axis ++ " extent=".toList ++
        sub.extent ++ ['\n']) ++
    "perm=".toList ++ joinStrings [','] (record.perm.map renderInt) ++ ['\n']

def digest (record : LayoutMorphism) : Text := digestOf record.canonical

end LayoutMorphism

def parseLayoutMorphism (raw : RawLayoutMorphism) :
    Except ArrangementFault LayoutMorphism := do
  ensure (raw.format = some layoutMorphismFormat) .format
  match raw.name, raw.version with
  | some name, some version =>
      match namedHandle name version with
      | .error fault => .error (.handle fault)
      | .ok handle => do
          ensure (raw.layoutClass = "inductor".toList ∨
              raw.layoutClass = "endpoint-declared".toList)
            (.layoutClass handle raw.layoutClass)
          ensure (raw.provenance.length ≠ 0) (.noEvidence handle)
          let record : LayoutMorphism := ⟨handle, raw.layoutClass, raw.rank,
            raw.subAxes, [], raw.permutation, raw.candidate⟩
          match record.validate with
          | .error refusal => .error (.record refusal)
          | .ok record => do
              ensure (raw.digest = [] ∨ raw.digest = record.digest)
                (.digest handle raw.digest record.digest)
              .ok record
  | _, _ => .error .identity

/-! Plans.  Validation leaves one expression for each sub-axis. -/

structure LayoutPlan where
  source : List Nat
  extents : List Nat
  storage : List Nat
  elements : Nat
  padded : Bool
  deriving DecidableEq

/-- The walk over the sub-axes: the axis open now, the product of its factors,
and the plan so far. -/
structure PlanState where
  axis : Int
  product : Nat
  extents : List Nat
  elements : Nat
  padded : Bool

namespace LayoutMorphism

section

variable (handle : Handle) (shape : List UInt64)

/-- The dimension of an axis that the product of its factors reaches. -/
def closeAxis (axis : Int) (product : Nat) : Except LayoutRefusal Nat := do
  ensure (axis < shape.length) ⟨handle, .missingAxis axis shape.length⟩
  ensure (0 ≤ axis) ⟨handle, .outOfRange axis⟩
  let dim := (shape.map UInt64.toNat).getD axis.toNat 0
  ensure (dim ≤ product) ⟨handle, .shortAxis axis product dim⟩
  .ok dim

def close (state : PlanState) : Except LayoutRefusal PlanState := do
  let dim ← closeAxis handle shape state.axis state.product
  .ok { state with padded := state.padded || decide (dim < state.product) }

def openAxis (axis : Int) (state : PlanState) :
    Except LayoutRefusal PlanState :=
  if axis ≠ state.axis then do
    let state ← close handle shape state
    .ok { state with axis := axis, product := 1 }
  else .ok state

def planSubAxes : List (SubAxis × ShapeExpr) → PlanState →
    Except LayoutRefusal PlanState
  | [], state => .ok state
  | (sub, expression) :: rest, state => do
      let state ← openAxis handle shape sub.axis state
      match expression.eval shape with
      | .error fault => .error ⟨handle, .formula sub.axis fault⟩
      | .ok extent => do
          ensure (extent ≠ 0) ⟨handle, .zeroSized sub.axis sub.extent⟩
          planSubAxes rest { state with
            product := state.product * extent % 2 ^ 64
            extents := state.extents ++ [extent]
            elements := state.elements * extent % 2 ^ 64 }

end

def storageOf (handle : Handle) (extents : List Nat) :
    List Int → Except LayoutRefusal (List Nat)
  | [] => .ok []
  | position :: rest => do
      ensure (0 ≤ position ∧ position < extents.length) ⟨handle, .outOfRange position⟩
      let storage ← storageOf handle extents rest
      .ok (extents.getD position.toNat 0 :: storage)

def stored (record : LayoutMorphism) (dims : List Nat) (state : PlanState) :
    Except LayoutRefusal LayoutPlan := do
  let storage ← storageOf record.handle state.extents record.perm
  .ok ⟨dims, state.extents, storage, state.elements, state.padded⟩

def plan (record : LayoutMorphism) (shape : List UInt64) :
    Except LayoutRefusal LayoutPlan := do
  ensure (¬ (record.rank ≠ 0 ∧ (shape.length : Int) ≠ record.rank))
    ⟨record.handle, .rank record.rank shape.length⟩
  let dims := shape.map UInt64.toNat
  match record.subAxes with
  | [] => .ok {
      source := dims
      extents := dims
      storage := dims
      elements := dims.foldl (fun product dim => product * dim % 2 ^ 64) 1
      padded := false }
  | first :: _ => do
      let state ← planSubAxes record.handle shape
        (record.subAxes.zip record.extents) ⟨first.axis, 1, [], 1, false⟩
      let state ← close record.handle shape state
      record.stored dims state

end LayoutMorphism

end TensorFS.Go
