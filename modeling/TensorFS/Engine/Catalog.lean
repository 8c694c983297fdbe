import TensorFS.Engine.Morphism
import TensorFS.Layout.Go

namespace TensorFS.Go

open Data

/-! The catalog: the parsed corpus and what the engine looks up in it. -/

structure Catalog where
  topologies : OrdMap Handle Topology
  rules : OrdMap Handle QuantRule
  morphisms : OrdMap Handle Morphism
  arrangements : OrdMap Handle LayoutMorphism
  outgoing : OrdMap Handle (List Morphism)
  order : List LayoutID

inductive CatalogFault where
  | undecodable (file : Text)
  | topology (file : Text) (fault : TopologyFault)
  | rule (file : Text) (fault : RuleFault)
  | morphism (file : Text) (fault : MorphismFault)
  | arrangement (file : Text) (fault : ArrangementFault)
  | twice (handle : Handle)
  | display (fault : LayoutIDFault)
  | empty
  | noDefault
  | rearrangingDefault
  | unknownSource (handle source : Handle)
  | applies (handle : Handle) (fault : MorphismFault)
  | unknownTarget (handle target : Handle)
  | otherTopology (handle target : Handle)
  | notInvertible (handle : Handle)
  | unknownTopology (handle : Handle)
  | unknownQuant (handle : Handle)
  | layout (fault : ApplyFault)
  deriving DecidableEq

/-- A file's document, when its text decodes. -/
abbrev Directory (α : Type) := OrdMap Text (Option α)

structure Corpus where
  topologies : Directory RawTopology
  rules : Directory RawQuantRule
  morphisms : Directory RawMorphism
  layouts : Directory RawLayoutMorphism
  displayNames : List Text

/-! Loading. -/

section

variable {α β ε : Type} (parse : α → Except ε β) (handle : β → Handle)
  (fault : Text → ε → CatalogFault)

/-- One directory in file order; a handle is declared once. -/
def readDirectory :
    OrdMap Handle β → List (Text × Option α) →
      Except CatalogFault (OrdMap Handle β)
  | records, [] => .ok records
  | _, (file, none) :: _ => .error (.undecodable file)
  | records, (file, some raw) :: rest =>
      match parse raw with
      | .error found => .error (fault file found)
      | .ok record => do
          ensure (records.get? (handle record) = none) (.twice (handle record))
          readDirectory (records.insert (handle record) record) rest

end

/-- The morphisms in file order. -/
def parsedMorphisms : List (Text × Option RawMorphism) → List Morphism
  | [] => []
  | (_, none) :: rest => parsedMorphisms rest
  | (_, some raw) :: rest =>
      match parseMorphism raw with
      | .error _ => parsedMorphisms rest
      | .ok morphism => morphism :: parsedMorphisms rest

def addOutgoing (outgoing : OrdMap Handle (List Morphism))
    (morphism : Morphism) : OrdMap Handle (List Morphism) :=
  outgoing.insert morphism.source
    ((outgoing.get? morphism.source).getD [] ++ [morphism])

def checkNames : List Text → Except CatalogFault Unit
  | [] => .ok ()
  | spelling :: rest =>
      match LayoutID.parse spelling with
      | .error fault => .error (.display fault)
      | .ok _ => checkNames rest

/-- The same names in order, and under each the same keys and shapes. -/
def sameTopology (computed declared : Topology) : Bool :=
  computed.components.map (fun component =>
      (component.name, component.tensors.entries)) =
    declared.components.map fun component =>
      (component.name, component.tensors.entries)

namespace Catalog

variable (catalog : Catalog)

/-- A morphism computes the catalog's own record of its target, and inverted it
computes its source. -/
def validateMorphism (handle : Handle) (morphism : Morphism)
    (outgoing : OrdMap Handle (List Morphism)) :
    Except CatalogFault (OrdMap Handle (List Morphism)) :=
  match catalog.topologies.get? morphism.source with
  | none => .error (.unknownSource handle morphism.source)
  | some source =>
      match morphism.apply source with
      | .error fault => .error (.applies handle fault)
      | .ok computed =>
          match catalog.topologies.get? morphism.target with
          | none => .error (.unknownTarget handle morphism.target)
          | some target => do
              ensure (sameTopology computed target = true)
                (.otherTopology handle morphism.target)
              if morphism.invertible = true then
                match morphism.inverse.apply target with
                | .error fault => .error (.applies handle fault)
                | .ok back => do
                    ensure (sameTopology back source = true)
                      (.notInvertible handle)
                    .ok (addOutgoing outgoing morphism.inverse)
              else .ok outgoing

def validateAll :
    OrdMap Handle (List Morphism) → List (Handle × Morphism) →
      Except CatalogFault (OrdMap Handle (List Morphism))
  | outgoing, [] => .ok outgoing
  | outgoing, (handle, morphism) :: rest => do
      let outgoing ← catalog.validateMorphism handle morphism outgoing
      validateAll outgoing rest

/-- The pairs in canonical order. -/
def index : List LayoutID :=
  catalog.topologies.entries.flatMap fun topology =>
    catalog.rules.entries.map fun rule =>
      ⟨topology.1, rule.1, defaultLayout⟩

end Catalog

def checkDefault (arrangements : OrdMap Handle LayoutMorphism) :
    Except CatalogFault Unit :=
  match arrangements.get? defaultLayout with
  | none => .error .noDefault
  | some record => ensure (record.identity = true) .rearrangingDefault

def loadCatalog (corpus : Corpus) : Except CatalogFault Catalog := do
  let topologies ← readDirectory parseTopology Topology.handle .topology
    .empty corpus.topologies.entries
  let rules ← readDirectory parseQuantRule QuantRule.handle .rule .empty
    corpus.rules.entries
  let morphisms ← readDirectory parseMorphism Morphism.handle .morphism .empty
    corpus.morphisms.entries
  let outgoing := (parsedMorphisms corpus.morphisms.entries).foldl addOutgoing
    .empty
  let arrangements ← readDirectory parseLayoutMorphism LayoutMorphism.handle
    .arrangement .empty corpus.layouts.entries
  checkNames corpus.displayNames
  ensure (topologies.entries.length ≠ 0 ∧ rules.entries.length ≠ 0) .empty
  checkDefault arrangements
  let catalog : Catalog :=
    ⟨topologies, rules, morphisms, arrangements, outgoing, []⟩
  let outgoing ← catalog.validateAll outgoing morphisms.entries
  .ok { catalog with outgoing := outgoing, order := catalog.index }

/-! Looking up. -/

/-- The expected header of a pair; the memo only keeps what this computes. -/
def Catalog.layout (catalog : Catalog) (id : LayoutID) :
    Except CatalogFault Layout :=
  match catalog.topologies.get? id.pair.topology with
  | none => .error (.unknownTopology id.pair.topology)
  | some topology =>
      match catalog.rules.get? id.pair.quant with
      | none => .error (.unknownQuant id.pair.quant)
      | some rule =>
          match rule.apply topology with
          | .error fault => .error (.layout fault)
          | .ok layout => .ok layout

end TensorFS.Go
