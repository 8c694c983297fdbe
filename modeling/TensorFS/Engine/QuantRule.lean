import TensorFS.Engine.ShapeExpr
import TensorFS.Engine.Topology

namespace TensorFS.Go

open Data

/-! Quant rules: a function from topologies to expected headers. -/

structure Eligibility where
  sourceDtypes : List Text
  rank : Int
  rankAtLeast : Int
  keySuffix : Text
  dimAlign : List UInt64
  requireRepeatedBlockSegment : Bool
  skipModuleSubstrings : List Text
  skipModuleExact : List Text
  deriving DecidableEq

/-- One tensor a rule produces from an eligible one. -/
structure Emission where
  key : Text
  dtype : Text
  shape : List Text
  optional : Bool
  formula : List ShapeExpr

structure QuantRule where
  handle : Handle
  declaredDtype : Text
  capabilityFloorSM : Int
  baseDtype : Text
  referenceTolerant : Bool
  conventions : OrdMap Text Text
  scopeRoles : List ComponentRole
  lossy : Bool
  inverse : Text
  eligible : Option Eligibility
  emissions : List Emission

namespace QuantRule

def transforms (rule : QuantRule) : Bool :=
  rule.eligible.isSome && rule.emissions.length ≠ 0

end QuantRule

def quantRuleFormat : Text := "tensorfs-quant-rule-v2".toList

/-! The canonical rendering. -/

def Eligibility.canonical (predicate : Eligibility) : Text :=
  "eligible dtypes=".toList ++ joinStrings [','] predicate.sourceDtypes ++
    " rank=".toList ++ renderInt predicate.rank ++ " rank>=".toList ++
    renderInt predicate.rankAtLeast ++ " suffix=".toList ++
    predicate.keySuffix ++ " align=[".toList ++
    joinStrings [' '] (predicate.dimAlign.map fun alignment =>
      decimal alignment.toNat) ++ "] block=".toList ++
    renderBool predicate.requireRepeatedBlockSegment ++
    "\nskip substrings=".toList ++
    joinStrings [','] predicate.skipModuleSubstrings ++ " exact=".toList ++
    joinStrings [','] predicate.skipModuleExact ++ ['\n']

def Emission.canonical (emission : Emission) : Text :=
  "emit key=".toList ++ emission.key ++ " dtype=".toList ++ emission.dtype ++
    " shape=".toList ++ joinStrings [','] emission.shape ++
    " optional=".toList ++ renderBool emission.optional ++ ['\n']

namespace QuantRule

def canonical (rule : QuantRule) : Text :=
  quantRuleFormat ++ "\nname=".toList ++ rule.handle.name ++
    "\nversion=".toList ++ decimal rule.handle.version.toNat ++
    "\ndeclared_dtype=".toList ++ rule.declaredDtype ++
    "\nfloor_sm=".toList ++ renderInt rule.capabilityFloorSM ++
    "\nbase=".toList ++ rule.baseDtype ++ "\ntolerant=".toList ++
    renderBool rule.referenceTolerant ++ "\nlossy=".toList ++
    renderBool rule.lossy ++ ['\n'] ++
    (rule.conventions.entries.flatMap fun entry =>
      "convention ".toList ++ entry.1 ++ '=' :: entry.2 ++ ['\n']) ++
    (rule.scopeRoles.flatMap fun role =>
      "scope=".toList ++ role ++ ['\n']) ++
    (rule.eligible.map Eligibility.canonical).getD [] ++
    rule.emissions.flatMap Emission.canonical ++
    "inverse=".toList ++ rule.inverse ++ ['\n']

def digest (rule : QuantRule) : Text := digestOf rule.canonical

end QuantRule

/-! The document. -/

structure RawEmission where
  key : Text
  dtype : Text
  shape : List Text
  optional : Bool

structure RawQuantRule where
  format : Option Text
  name : Option Text
  version : Option UInt32
  declaredDtype : Text
  capabilityFloorSM : Int
  baseDtype : Text
  referenceTolerant : Bool
  conventions : OrdMap Text Text
  scopeRoles : List Text
  lossy : Bool
  inverse : Text
  eligible : Option Eligibility
  emissions : List RawEmission
  digest : Text

inductive RuleFault where
  | format
  | identity
  | handle (fault : HandleFault)
  | declaredDtype (handle : Handle)
  | baseDtype (handle : Handle)
  | halfRule (handle : Handle)
  | conventions (handle : Handle)
  | incompleteEmission (handle : Handle)
  | unsourcedEmission (handle : Handle) (key : Text)
  | shape (fault : ShapeFault)
  | digest (handle : Handle) (carried hashed : Text)
  deriving DecidableEq

def parseFormula : List Text → Except RuleFault (List ShapeExpr)
  | [] => .ok []
  | term :: terms =>
      match parseShapeExpr term with
      | .error fault => .error (.shape fault)
      | .ok expression => do
          let expressions ← parseFormula terms
          .ok (expression :: expressions)

def parseEmissions (handle : Handle) :
    List RawEmission → Except RuleFault (List Emission)
  | [] => .ok []
  | raw :: raws => do
      ensure (raw.key ≠ [] ∧ raw.dtype ≠ [] ∧ raw.shape.length ≠ 0)
        (.incompleteEmission handle)
      ensure ("\x7bmodule\x7d".toList <:+: raw.key ∨
          "\x7bkey\x7d".toList <:+: raw.key)
        (.unsourcedEmission handle raw.key)
      let formula ← parseFormula raw.shape
      let emissions ← parseEmissions handle raws
      .ok (⟨raw.key, raw.dtype, raw.shape, raw.optional, formula⟩ ::
        emissions)

def parseQuantRule (raw : RawQuantRule) : Except RuleFault QuantRule := do
  ensure (raw.format = some quantRuleFormat) .format
  match raw.name, raw.version with
  | some name, some version =>
      match namedHandle name version with
      | .error fault => .error (.handle fault)
      | .ok handle => do
          ensure (raw.declaredDtype ≠ []) (.declaredDtype handle)
          ensure (raw.baseDtype ≠ []) (.baseDtype handle)
          ensure (raw.eligible = none ↔ raw.emissions.length = 0)
            (.halfRule handle)
          ensure (¬ (raw.eligible ≠ none ∧
            raw.conventions.entries.length = 0)) (.conventions handle)
          let emissions ← parseEmissions handle raw.emissions
          let rule : QuantRule := ⟨handle, raw.declaredDtype,
            raw.capabilityFloorSM, raw.baseDtype, raw.referenceTolerant,
            raw.conventions, raw.scopeRoles, raw.lossy, raw.inverse,
            raw.eligible, emissions⟩
          ensure (raw.digest = [] ∨ raw.digest = rule.digest)
            (.digest handle raw.digest rule.digest)
          .ok rule
  | _, _ => .error .identity

/-- A rule document that carries no digest of its own. -/
theorem parseQuantRule_of {raw : RawQuantRule} {name : Text}
    {version : UInt32} {handle : Handle} {emissions : List Emission}
    (hformat : raw.format = some quantRuleFormat)
    (hname : raw.name = some name) (hversion : raw.version = some version)
    (hhandle : namedHandle name version = .ok handle)
    (hdeclared : raw.declaredDtype ≠ []) (hbase : raw.baseDtype ≠ [])
    (hhalf : raw.eligible = none ↔ raw.emissions.length = 0)
    (hconventions : ¬ (raw.eligible ≠ none ∧
      raw.conventions.entries.length = 0))
    (hemissions : parseEmissions handle raw.emissions = .ok emissions)
    (hdigest : raw.digest = []) :
    parseQuantRule raw = .ok ⟨handle, raw.declaredDtype,
      raw.capabilityFloorSM, raw.baseDtype, raw.referenceTolerant,
      raw.conventions, raw.scopeRoles, raw.lossy, raw.inverse, raw.eligible,
      emissions⟩ := by
  simp only [parseQuantRule, hname, hversion, hhandle, except_bind_eq_ok,
    ensure_eq_ok]
  exact ⟨(), hformat, (), hdeclared, (), hbase, (), hhalf, (), hconventions,
    emissions, hemissions, (), .inl hdigest, rfl⟩

/-! Text. -/

/-- `strings.TrimSuffix`. -/
def trimSuffix (suffix text : Text) : Text :=
  if suffix <:+ text then text.take (text.length - suffix.length) else text

/-- `strings.NewReplacer` over the two templates of an emission's key; every
round consumes text. -/
def fillTemplate (module key : Text) : Nat → Text → Text
  | 0, _ => []
  | rounds + 1, text =>
      match Pattern.stripPrefix "\x7bmodule\x7d".toList text with
      | some rest => module ++ fillTemplate module key rounds rest
      | none =>
          match Pattern.stripPrefix "\x7bkey\x7d".toList text with
          | some rest => key ++ fillTemplate module key rounds rest
          | none =>
              match text with
              | [] => []
              | c :: rest => c :: fillTemplate module key rounds rest

def Emission.emitted (emission : Emission) (module key : Text) : Text :=
  fillTemplate module key (emission.key.length + 1) emission.key

/-! The predicate. -/

/-- Some segment, neither the first nor the last, is all digits. -/
def hasRepeatedBlockSegment (key : Text) : Bool :=
  ((key.splitOn '.').tail.dropLast).any fun segment =>
    segment ≠ [] && segment.all isAsciiDigit

def aligned : List UInt64 → List UInt64 → Bool
  | [], _ => true
  | alignment :: alignments, shape =>
      (alignment = 0 || (shape.head?).any fun dimension =>
        dimension % alignment = 0) &&
      aligned alignments shape.tail

/-- What the reference checkpoint carried for a key. -/
def referenceDtype (topology : Topology) (component : TopologyComponent)
    (key : Text) : Text :=
  (component.islands.get? key).getD topology.dtype

/-- Compute types, index tables and masks are not quantized. -/
def isQuantElement (dtype : Text) : Bool :=
  dtype ∉ ["F64".toList, "F32".toList, "F16".toList, "BF16".toList,
    "I64".toList, "I32".toList, "I16".toList, "BOOL".toList]

namespace QuantRule

variable (rule : QuantRule)

def scopes (role : ComponentRole) : Bool :=
  rule.scopeRoles.length = 0 || rule.scopeRoles.contains role

def admits (predicate : Eligibility) (dtype key : Text)
    (shape : List UInt64) : Bool :=
  (predicate.sourceDtypes.length = 0 ||
    predicate.sourceDtypes.contains dtype) &&
  (predicate.rank = 0 || shape.length = predicate.rank) &&
  (predicate.rankAtLeast = 0 || predicate.rankAtLeast ≤ shape.length) &&
  (predicate.keySuffix = [] || predicate.keySuffix.isSuffixOf key) &&
  aligned predicate.dimAlign shape &&
  (!predicate.requireRepeatedBlockSegment || hasRepeatedBlockSegment key) &&
  !(predicate.skipModuleSubstrings.any fun needle =>
    decide (needle <:+: trimSuffix predicate.keySuffix key)) &&
  !predicate.skipModuleExact.contains (trimSuffix predicate.keySuffix key)

/-- Whether one entry of a topology is transformed. -/
def isEligible (topology : Topology) (component : TopologyComponent)
    (key : Text) (shape : List UInt64) : Bool :=
  match rule.eligible with
  | none => false
  | some predicate =>
      rule.scopes component.role &&
        admits predicate (referenceDtype topology component key) key shape

/-- What an untransformed tensor may carry; a tolerant rule takes an island of
a compute type as the reference had it. -/
def passthroughDtypes (topology : Topology) (component : TopologyComponent)
    (key : Text) : List Text :=
  let reference := referenceDtype topology component key
  if rule.baseDtype = "@reference".toList then [reference]
  else if rule.referenceTolerant = true ∧ reference ≠ rule.baseDtype ∧
      isQuantElement reference = false ∧
      component.islands.get? key ≠ none then
    [rule.baseDtype, reference]
  else [rule.baseDtype]

/-- The module of a key: the key less the eligible suffix. -/
def moduleOf (key : Text) : Text :=
  trimSuffix ((rule.eligible.map Eligibility.keySuffix).getD []) key

end QuantRule

/-! The computation. -/

inductive ApplyFault where
  | formula (topology rule : Handle) (key : Text) (shape : List UInt64)
      (fault : ShapeFault)
  | emittedTwice (topology rule : Handle) (key : Text)
  deriving DecidableEq

namespace QuantRule

variable (rule : QuantRule)

/-- The emissions of one eligible key, in the rule's order. -/
def emitAll (topology : Topology) (key : Text) (shape : List UInt64) :
    OrdMap Text LayoutTensor → List Emission →
      Except ApplyFault (OrdMap Text LayoutTensor)
  | tensors, [] => .ok tensors
  | tensors, emission :: emissions =>
      let emitted := emission.emitted (rule.moduleOf key) key
      match evalShape shape emission.formula with
      | .error fault =>
          .error (.formula topology.handle rule.handle key shape fault)
      | .ok emittedShape => do
          ensure (tensors.get? emitted = none)
            (.emittedTwice topology.handle rule.handle emitted)
          emitAll topology key shape
            (tensors.insert emitted ⟨[emission.dtype],
              emittedShape.map UInt64.ofNat, emission.optional⟩) emissions

/-- The keys of a component in order, and how many the rule acted on. -/
def applyKeys (topology : Topology) (component : TopologyComponent) :
    OrdMap Text LayoutTensor → Nat → List (Text × List UInt64) →
      Except ApplyFault (OrdMap Text LayoutTensor × Nat)
  | tensors, transformed, [] => .ok (tensors, transformed)
  | tensors, transformed, (key, shape) :: rest =>
      if rule.isEligible topology component key shape = true then do
        let tensors ← rule.emitAll topology key shape tensors rule.emissions
        applyKeys topology component tensors (transformed + 1) rest
      else
        applyKeys topology component
          (tensors.insert key
            ⟨rule.passthroughDtypes topology component key, shape, false⟩)
          transformed rest

def applyComponents (topology : Topology) :
    List TopologyComponent → Except ApplyFault (List LayoutComponent × Nat)
  | [] => .ok ([], 0)
  | component :: components => do
      let (tensors, transformed) ← rule.applyKeys topology component .empty 0
        component.tensors.entries
      let (computed, others) ← applyComponents topology components
      .ok (⟨component.name, tensors⟩ :: computed, transformed + others)

/-- The expected header of a checkpoint that carries this stamp. -/
def apply (topology : Topology) : Except ApplyFault Layout := do
  let (components, transformed) ← rule.applyComponents topology
    topology.components
  .ok ⟨⟨topology.handle, rule.handle, defaultLayout⟩, components, transformed⟩

end QuantRule

end TensorFS.Go
