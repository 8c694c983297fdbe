import TensorFS.Data.Breadth
import TensorFS.Engine.Stamp

namespace TensorFS.Go

open Data

/-! Admission: a candidate's stamp against the lanes an endpoint declares, and
the derivation that takes the one to the other. -/

inductive StepKind where
  | rekey
  | seam
  | relayout
  | cast
  | quantize
  | dequantize
  | requantize
  deriving DecidableEq

/-- One leg of a derivation, priced by its storage tier. -/
structure DerivationStep where
  kind : StepKind
  tier : Int
  morphism : Handle
  source : Handle
  target : Handle
  detail : Text
  deriving DecidableEq

inductive Decision where
  | admitted (stamp lane : LayoutID)
  | derivable (stamp lane : LayoutID) (steps : List DerivationStep)
  | refuse (stamp lane : Option LayoutID) (refusal : Refusal)
  deriving DecidableEq

def cost (steps : List DerivationStep) : Int :=
  (steps.map DerivationStep.tier).sum

/-- `sort.Slice` by name, which is not stable: of morphisms with one name, any
may come first. -/
structure NameSort where
  sort : List Morphism → List Morphism
  perm : ∀ morphisms, (sort morphisms).Perm morphisms
  ordered : ∀ morphisms, (sort morphisms).Pairwise fun left right =>
    left.handle.name ≤ right.handle.name

def Morphism.step (morphism : Morphism) : DerivationStep where
  kind := if 0 < morphism.seams.length then .seam else .rekey
  tier := morphism.tier
  morphism := morphism.handle
  source := morphism.source
  target := morphism.target
  detail := morphism.description

namespace Catalog

variable (catalog : Catalog) (byName : NameSort)

/-! The legs. -/

def leaving (handle : Handle) : List Morphism :=
  (catalog.outgoing.get? handle).getD []

def stepsFrom (handle : Handle) : List DerivationStep :=
  (byName.sort (catalog.leaving handle)).map Morphism.step

/-- A round for the first topology, and one for each that a morphism comes
to. -/
def rounds : Nat :=
  (catalog.outgoing.entries.flatMap Prod.snd).length + 1

/-- A breadth-first search over the morphisms. -/
def repack (source target : Handle) : Option (List DerivationStep) :=
  if source = target then some []
  else
    Reach.search (catalog.stepsFrom byName) DerivationStep.target target
      catalog.rounds [source] [⟨source, []⟩]

/-- No step where the rules are the same, and none at all from a rule that
states no way back. -/
def requant (source target : Handle) : Option (Option DerivationStep) :=
  if source = target then some none
  else
    match catalog.rules.get? source, catalog.rules.get? target with
    | some stored, some wanted =>
        let step kind detail : Option (Option DerivationStep) :=
          some (some ⟨kind, tierQuant, .zero, source, target, detail⟩)
        if stored.transforms = false ∧ wanted.transforms = false then
          step .cast (stored.declaredDtype ++ " -> ".toList ++
            wanted.declaredDtype)
        else if stored.transforms = false then step .quantize wanted.inverse
        else if stored.inverse = [] then none
        else if wanted.transforms = false then step .dequantize stored.inverse
        else step .requantize (stored.inverse ++ " then ".toList ++
          wanted.inverse)
    | _, _ => none

/-- One side's record, unless there is none or it is a wish. -/
def ratified (handle : Handle) : Except Text LayoutMorphism :=
  match catalog.arrangements.get? handle with
  | none =>
      .error ("the corpus carries no ".toList ++ handle.render ++
        " record".toList)
  | some record =>
      if record.candidate = true then
        .error (handle.render ++ (" is an UNRATIFIED candidate — a wish a " ++
          "compiler emitted, which nothing has ratified. Machines derive " ++
          "along ratified morphisms; they do not invent them").toList)
      else .ok record

def orDefault (handle : Handle) : Handle :=
  if handle = .zero then defaultLayout else handle

/-- The arrangement leg, or why there is none. -/
def relayout (stored declared : Handle) :
    Except Text (Option DerivationStep) :=
  let source := orDefault stored
  let target := orDefault declared
  if source = target then .ok none
  else do
    let left ← catalog.ratified source
    let right ← catalog.ratified target
    ensure (¬ (left.rank ≠ 0 ∧ right.rank ≠ 0 ∧ left.rank ≠ right.rank))
      (source.render ++ " arranges rank-".toList ++ renderInt left.rank ++
        " tensors and ".toList ++ target.render ++ " arranges rank-".toList ++
        renderInt right.rank ++
        " ones, so no tensor is described by both".toList)
    .ok (some ⟨.relayout, tierInterleaved, .zero, source, target,
      bridge source target⟩)

/-- The topology first, then the element type, then the arrangement. -/
def derive (stamp lane : LayoutID) : Option (List DerivationStep) :=
  match catalog.repack byName stamp.topology lane.topology with
  | none => none
  | some steps =>
      match catalog.requant stamp.quant lane.quant with
      | none => none
      | some quant =>
          match catalog.relayout stamp.bytes lane.bytes with
          | .error _ => none
          | .ok layout => some (steps ++ quant.toList ++ layout.toList)

/-! The decision. -/

/-- The first of the lanes with the lowest cost. -/
def bestLane (stamp : LayoutID) :
    Option (LayoutID × List DerivationStep) → List LayoutID →
      Option (LayoutID × List DerivationStep)
  | best, [] => best
  | best, lane :: lanes =>
      match catalog.derive byName stamp lane with
      | none => bestLane stamp best lanes
      | some steps =>
          if best.all fun found => cost steps < cost found.2 then
            bestLane stamp (some (lane, steps)) lanes
          else bestLane stamp best lanes

/-- The first lane that only the arrangement keeps apart. -/
def bridgeRefusal (stamp : LayoutID) : List LayoutID → Option Refusal
  | [] => none
  | lane :: lanes =>
      if (catalog.repack byName stamp.topology lane.topology).isNone ∨
          (catalog.requant stamp.quant lane.quant).isNone then
        bridgeRefusal stamp lanes
      else
        match catalog.relayout stamp.bytes lane.bytes with
        | .ok _ => bridgeRefusal stamp lanes
        | .error why =>
            some { reason := .noBridge, lane := some lane, note := why,
                   observed := stamp.normalized.bytes.render,
                   declared := lane.normalized.bytes.render }

/-- The refusal of the lane that came closest, the first on a tie. -/
def closestLane (files : List ArtifactFile) :
    Option Refusal → List LayoutID → Option Refusal
  | best, [] => best
  | best, lane :: lanes =>
      match catalog.layout lane with
      | .error _ => closestLane files best lanes
      | .ok layout =>
          match matchLayout files layout with
          | .ok _ => closestLane files best lanes
          | .error refusal =>
              if best.all fun found => found.matched < refusal.matched then
                closestLane files (some refusal) lanes
              else closestLane files best lanes

def closestLaneRefusal (files : List ArtifactFile) (lanes : List LayoutID)
    (fallback : Refusal) : Refusal :=
  (catalog.closestLane files none lanes).getD fallback

/-- The refusal of a stamp that reaches no lane. -/
def unreached (files : List ArtifactFile) (stamp : LayoutID)
    (lanes : List LayoutID) : Decision :=
  match catalog.bridgeRefusal byName stamp lanes with
  | some refusal => .refuse (some stamp) refusal.lane refusal
  | none =>
      let refusal := catalog.closestLaneRefusal files lanes
        { reason := .unrelated, lane := lanes.head?, note := stamp.render }
      .refuse (some stamp) refusal.lane { refusal with note := stamp.render }

def admitFiles (files : List ArtifactFile) (lanes : List LayoutID) : Decision :=
  if lanes = [] then .refuse none none { reason := .noLane }
  else
    match catalog.stamp files with
    | .error refusal =>
        .refuse none none (catalog.closestLaneRefusal files lanes refusal)
    | .ok stamp =>
        match lanes.find? stamp.equal with
        | some lane => .admitted stamp lane
        | none =>
            match catalog.bestLane byName stamp none lanes with
            | some (lane, steps) => .derivable stamp lane steps
            | none => catalog.unreached byName files stamp lanes

end Catalog

end TensorFS.Go
