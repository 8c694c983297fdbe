import TensorFS.Engine.QuantRule

namespace TensorFS.Go

open Data

/-! Morphisms: rekey tables and fusion seams, from one topology to another.
Shares and rows are 64-bit words, and their sums and products wrap. -/

/-- One row of a rekey table: a key pattern, or else a prefix. -/
structure Rekey where
  fromPrefix : Text
  toPrefix : Text
  fromKey : Text
  toKey : Text
  deriving DecidableEq

structure SeamPart where
  role : Text
  share : UInt64
  key : Text
  deriving DecidableEq

/-- One fusion fact: the fused key and the parts it concatenates. -/
structure Seam where
  target : Text
  parts : List SeamPart
  groups : UInt64
  component : Text
  provenance : Text
  deriving DecidableEq

/-- An inverted morphism reads every seam as a split. -/
structure Morphism where
  handle : Handle
  description : Text
  source : Handle
  target : Handle
  tier : Int
  invertible : Bool
  rekeys : List Rekey
  seams : List Seam
  provenance : List Text
  inverted : Bool
  deriving DecidableEq

def tierRekey : Int := 1
def tierContiguous : Int := 2
def tierInterleaved : Int := 3
def tierQuant : Int := 4

/-! Holes. -/

def hole : Text := "\x7bi\x7d".toList

/-- The text before the first hole, and the text behind it. -/
def cutHole : Text → Option (Text × Text)
  | [] => none
  | c :: rest =>
      match Pattern.stripPrefix hole (c :: rest) with
      | some after => some ([], after)
      | none => (cutHole rest).map fun parts => (c :: parts.1, parts.2)

/-- The hole values of a name; every round consumes a hole. -/
def matchFrom : Nat → Text → Text → Option (List Text)
  | 0, _, _ => none
  | rounds + 1, text, rest =>
      match cutHole text with
      | none => if rest = text then some [] else none
      | some (literal, after) =>
          match Pattern.stripPrefix literal rest with
          | none => none
          | some rest =>
              let digits := rest.takeWhile isAsciiDigit
              if digits = [] ∨ (1 < digits.length ∧ digits.head? = some '0')
              then none
              else (matchFrom rounds after
                (rest.dropWhile isAsciiDigit)).map (digits :: ·)

def matchHoles (pattern name : Text) : Option (List Text) :=
  matchFrom (pattern.length + 1) pattern name

/-- `strings.Replace` of the first hole. -/
def replaceHole (text value : Text) : Text :=
  match cutHole text with
  | none => text
  | some (before, after) => before ++ value ++ after

def renderHoles (pattern : Text) (holes : List Text) : Text :=
  holes.foldl replaceHole pattern

namespace Rekey

def apply (row : Rekey) (key : Text) : Option Text :=
  if row.fromKey ≠ [] then
    (matchHoles row.fromKey key).map (renderHoles row.toKey)
  else if row.fromPrefix ≠ [] then
    (Pattern.stripPrefix row.fromPrefix key).map (row.toPrefix ++ ·)
  else none

def inverse (row : Rekey) : Rekey :=
  ⟨row.toPrefix, row.fromPrefix, row.toKey, row.fromKey⟩

end Rekey

/-! The document. -/

def morphismFormat : Text := "tensorfs-morphism-v2".toList

namespace Morphism

def canonical (morphism : Morphism) : Text :=
  morphismFormat ++ "\nname=".toList ++ morphism.handle.name ++
    "\nversion=".toList ++ decimal morphism.handle.version.toNat ++
    "\nfrom=".toList ++ morphism.source.render ++ "\nto=".toList ++
    morphism.target.render ++ "\ntier=".toList ++ renderInt morphism.tier ++
    "\ninvertible=".toList ++ renderBool morphism.invertible ++ ['\n'] ++
    (morphism.rekeys.flatMap fun row =>
      "rekey prefix ".toList ++ row.fromPrefix ++ "->".toList ++
        row.toPrefix ++ " key ".toList ++ row.fromKey ++ "->".toList ++
        row.toKey ++ ['\n']) ++
    morphism.seams.flatMap fun seam =>
      "seam target=".toList ++ seam.target ++ " component=".toList ++
        seam.component ++ " groups=".toList ++ decimal seam.groups.toNat ++
        ['\n'] ++
      seam.parts.flatMap fun part =>
        "part role=".toList ++ part.role ++ " share=".toList ++
          decimal part.share.toNat ++ " key=".toList ++ part.key ++ ['\n']

def digest (morphism : Morphism) : Text := digestOf morphism.canonical

end Morphism

structure RawMorphism where
  format : Option Text
  name : Option Text
  version : Option UInt32
  description : Text
  source : Text
  target : Text
  tier : Int
  invertible : Bool
  rekeys : List Rekey
  seams : List Seam
  provenance : List Text
  digest : Text

/-- A panic of the runtime. -/
inductive Panic where
  | divideByZero
  | indexOutOfRange
  deriving DecidableEq

inductive MorphismFault where
  | format
  | identity
  | handle (fault : HandleFault)
  | toItself (handle source : Handle)
  | changesNothing (handle : Handle)
  | noEvidence (handle : Handle)
  | fewParts (handle : Handle) (target : Text)
  | seamEvidence (handle : Handle) (target : Text)
  | incompletePart (handle : Handle) (target : Text)
  | repeatedRole (handle : Handle) (target role : Text)
  | zeroGroups (handle : Handle) (target : Text)
  | tier (handle : Handle) (tier : Int)
  | rekeyTier (handle : Handle)
  | digest (handle : Handle) (carried hashed : Text)
  | otherSource (handle source given : Handle)
  | survives (handle : Handle) (key : Text)
  | partCount (handle : Handle) (target : Text) (found parts : Nat)
  | ranks (handle : Handle) (target : Text) (fused part : Nat)
  | axes (handle : Handle) (target : Text)
  | rows (handle : Handle) (key : Text) (rows groups units : UInt64)
  | scalar (handle : Handle) (key : Text)
  | panics (panic : Panic)
  deriving DecidableEq

def checkParts (handle : Handle) (target : Text) :
    List Text → List SeamPart → Except MorphismFault Unit
  | _, [] => .ok ()
  | roles, part :: parts => do
      ensure (part.share ≠ 0 ∧ part.key ≠ [] ∧ part.role ≠ [])
        (.incompletePart handle target)
      ensure (part.role ∉ roles) (.repeatedRole handle target part.role)
      checkParts handle target (part.role :: roles) parts

def checkSeams (handle : Handle) : List Seam → Except MorphismFault Unit
  | [] => .ok ()
  | seam :: seams => do
      ensure (2 ≤ seam.parts.length) (.fewParts handle seam.target)
      ensure (seam.provenance ≠ []) (.seamEvidence handle seam.target)
      checkParts handle seam.target [] seam.parts
      ensure (seam.groups ≠ 0) (.zeroGroups handle seam.target)
      checkSeams handle seams

def parsedHandle (found : Except HandleFault Handle) :
    Except MorphismFault Handle :=
  match found with
  | .ok handle => .ok handle
  | .error fault => .error (.handle fault)

def parseMorphism (raw : RawMorphism) : Except MorphismFault Morphism := do
  ensure (raw.format = some morphismFormat) .format
  match raw.name, raw.version with
  | some name, some version => do
      let handle ← parsedHandle (namedHandle name version)
      let source ← parsedHandle (parseHandle raw.source)
      let target ← parsedHandle (parseHandle raw.target)
      ensure (source ≠ target) (.toItself handle source)
      ensure (¬ (raw.rekeys.length = 0 ∧ raw.seams.length = 0))
        (.changesNothing handle)
      ensure (raw.provenance.length ≠ 0) (.noEvidence handle)
      checkSeams handle raw.seams
      ensure (tierRekey ≤ raw.tier ∧ raw.tier ≤ tierInterleaved)
        (.tier handle raw.tier)
      ensure (¬ (raw.seams.length = 0 ∧ raw.tier ≠ tierRekey))
        (.rekeyTier handle)
      let morphism : Morphism := ⟨handle, raw.description, source, target,
        raw.tier, raw.invertible, raw.rekeys, raw.seams, raw.provenance,
        false⟩
      ensure (raw.digest = [] ∨ raw.digest = morphism.digest)
        (.digest handle raw.digest morphism.digest)
      .ok morphism
  | _, _ => .error .identity

/-- A morphism document that carries no digest of its own. -/
theorem parseMorphism_of {raw : RawMorphism} {name : Text} {version : UInt32}
    {handle source target : Handle}
    (hformat : raw.format = some morphismFormat)
    (hname : raw.name = some name) (hversion : raw.version = some version)
    (hhandle : namedHandle name version = .ok handle)
    (hsource : parseHandle raw.source = .ok source)
    (htarget : parseHandle raw.target = .ok target) (hne : source ≠ target)
    (hsome : ¬ (raw.rekeys.length = 0 ∧ raw.seams.length = 0))
    (hprovenance : raw.provenance.length ≠ 0)
    (hseams : checkSeams handle raw.seams = .ok ())
    (htier : tierRekey ≤ raw.tier ∧ raw.tier ≤ tierInterleaved)
    (hrekey : ¬ (raw.seams.length = 0 ∧ raw.tier ≠ tierRekey))
    (hdigest : raw.digest = []) :
    parseMorphism raw = .ok ⟨handle, raw.description, source, target, raw.tier,
      raw.invertible, raw.rekeys, raw.seams, raw.provenance, false⟩ := by
  simp only [parseMorphism, hname, hversion, hhandle, hsource, htarget,
    parsedHandle, except_bind_eq_ok, ensure_eq_ok]
  exact ⟨(), hformat, handle, rfl, source, rfl, target, rfl, (), hne, (), hsome,
    (), hprovenance, (), hseams, (), htier, (), hrekey, (), .inl hdigest, rfl⟩

/-! Seams. -/

/-- What the seams of a component use up and what they bring. -/
structure SeamResult where
  consumed : List Text
  produced : OrdMap Text (List UInt64)

def SeamResult.empty : SeamResult := ⟨[], .empty⟩

def seamUnits (seam : Seam) : UInt64 :=
  (seam.parts.map SeamPart.share).sum

/-- The keys a part takes, appended to the instance of the fused key each one
renders. -/
def gatherPart (target : Text) (part : SeamPart) :
    OrdMap Text (List Text) → List Text → OrdMap Text (List Text)
  | instances, [] => instances
  | instances, key :: keys =>
      match matchHoles part.key key with
      | none => gatherPart target part instances keys
      | some holes =>
          let fused := renderHoles target holes
          gatherPart target part
            (instances.insert fused ((instances.get? fused).getD [] ++ [key]))
            keys

def gather (seam : Seam) (keys : List Text) : OrdMap Text (List Text) :=
  seam.parts.foldl
    (fun instances part => gatherPart seam.target part instances keys) .empty

section

variable (handle : Handle) (component : TopologyComponent)

def shapeOf (key : Text) : List UInt64 :=
  (component.tensors.get? key).getD []

/-- The rows add up and every other axis agrees. -/
def addRows (target : Text) :
    List UInt64 → List Text → Except MorphismFault (List UInt64)
  | fused, [] => .ok fused
  | fused, key :: keys => do
      let shape := shapeOf component key
      ensure (shape.length = fused.length)
        (.ranks handle target fused.length shape.length)
      ensure (shape.tail = fused.tail) (.axes handle target)
      match fused, shape with
      | rows :: rest, more :: _ =>
          addRows target ((rows + more) :: rest) keys
      | _, _ => .error (.panics .indexOutOfRange)

/-- Whether the rows are so many groups of the shares; the divisor may be
zero. -/
def checkRows (seam : Seam) (key : Text) (rows : UInt64) :
    Except MorphismFault Unit := do
  ensure (seamUnits seam * seam.groups ≠ 0) (.panics .divideByZero)
  ensure (rows % (seamUnits seam * seam.groups) = 0)
    (.rows handle key rows seam.groups (seamUnits seam))

def fuseInstance (seam : Seam) (result : SeamResult) (target : Text)
    (keys : List Text) : Except MorphismFault SeamResult := do
  ensure (keys.length = seam.parts.length)
    (.partCount handle target keys.length seam.parts.length)
  let fused ← addRows handle component target
    (shapeOf component (keys.headD [])) keys.tail
  match fused with
  | [] => .error (.panics .indexOutOfRange)
  | rows :: _ => do
      checkRows handle seam target rows
      .ok ⟨keys ++ result.consumed, result.produced.insert target fused⟩

def fuseAll (seam : Seam) :
    SeamResult → List (Text × List Text) → Except MorphismFault SeamResult
  | result, [] => .ok result
  | result, (target, keys) :: rest => do
      let result ← fuseInstance handle component seam result target keys
      fuseAll seam result rest

/-- Concatenates the parts into the fused keys. -/
def fuse (seam : Seam) (result : SeamResult) :
    Except MorphismFault SeamResult :=
  fuseAll handle component seam result (gather seam component.keys).entries

/-- The pieces of one fused key, by share. -/
def splitParts (holes : List Text) (unit : UInt64) (rest : List UInt64) :
    OrdMap Text (List UInt64) → List SeamPart → OrdMap Text (List UInt64)
  | produced, [] => produced
  | produced, part :: parts =>
      splitParts holes unit rest
        (produced.insert (renderHoles part.key holes)
          ((unit * part.share) :: rest)) parts

/-- Cuts the fused keys into their parts. -/
def splitAll (seam : Seam) :
    SeamResult → List Text → Except MorphismFault SeamResult
  | result, [] => .ok result
  | result, key :: keys =>
      match matchHoles seam.target key with
      | none => splitAll seam result keys
      | some holes =>
          match shapeOf component key with
          | [] => .error (.scalar handle key)
          | rows :: rest => do
              checkRows handle seam key rows
              splitAll seam
                ⟨key :: result.consumed, splitParts holes
                  (rows / seamUnits seam) rest result.produced seam.parts⟩
                keys

end

/-! Applying a morphism. -/

namespace Morphism

variable (morphism : Morphism)

def rekeyFrom (key : Text) : List Rekey → Text
  | [] => key
  | row :: rows =>
      match row.apply key with
      | some mapped => mapped
      | none => rekeyFrom key rows

def rekey (key : Text) : Text := rekeyFrom key morphism.rekeys

def runFrom (component : TopologyComponent) :
    SeamResult → List Seam → Except MorphismFault SeamResult
  | result, [] => .ok result
  | result, seam :: seams =>
      if seam.component ≠ [] ∧ seam.component ≠ component.name then
        runFrom component result seams
      else do
        let result ←
          if morphism.inverted = true then
            splitAll morphism.handle component seam result component.keys
          else fuse morphism.handle component seam result
        runFrom component result seams

def runSeams (component : TopologyComponent) :
    Except MorphismFault SeamResult :=
  runFrom morphism component .empty morphism.seams

/-- The keys no seam consumed, renamed; a later key takes the place of an
earlier one of the same new name. -/
def rekeyed {β : Type} (consumed : List Text) (entries : List (Text × β)) :
    OrdMap Text β :=
  entries.foldl (fun mapped entry =>
    if entry.1 ∈ consumed then mapped
    else mapped.insert (morphism.rekey entry.1) entry.2) .empty

/-- What the seams bring, none of it a renamed key. -/
def addProduced (mapped : OrdMap Text (List UInt64)) :
    OrdMap Text (List UInt64) → List (Text × List UInt64) →
      Except MorphismFault (OrdMap Text (List UInt64))
  | tensors, [] => .ok tensors
  | tensors, (key, shape) :: rest => do
      ensure (mapped.get? key = none) (.survives morphism.handle key)
      addProduced mapped (tensors.insert key shape) rest

def applyComponent (component : TopologyComponent) :
    Except MorphismFault TopologyComponent := do
  let seamed ← morphism.runSeams component
  let mapped := morphism.rekeyed seamed.consumed component.tensors.entries
  let islands := morphism.rekeyed seamed.consumed
    (component.keys.filterMap fun key =>
      (component.islands.get? key).map fun island => (key, island))
  let tensors ← morphism.addProduced mapped mapped seamed.produced.entries
  .ok ⟨component.name, component.role, islands, tensors⟩

def applyComponents :
    List TopologyComponent → Except MorphismFault (List TopologyComponent)
  | [] => .ok []
  | component :: components => do
      let mapped ← morphism.applyComponent component
      let others ← applyComponents components
      .ok (mapped :: others)

def apply (topology : Topology) : Except MorphismFault Topology := do
  ensure (topology.handle = morphism.source)
    (.otherSource morphism.handle morphism.source topology.handle)
  let components ← morphism.applyComponents topology.components
  .ok ⟨morphism.target, topology.dtype, components⟩

/-- The morphism run backwards. -/
def inverse : Morphism where
  handle := ⟨morphism.handle.name ++ "-inverse".toList,
    morphism.handle.version⟩
  description := "the inverse of ".toList ++ morphism.handle.render
  source := morphism.target
  target := morphism.source
  tier := morphism.tier
  invertible := true
  rekeys := morphism.rekeys.map Rekey.inverse
  seams := morphism.seams
  provenance := morphism.provenance
  inverted := !morphism.inverted

end Morphism

end TensorFS.Go
