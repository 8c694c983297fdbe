import TensorFS.Engine.MatchLayout

namespace TensorFS.Go

open Data

/-! Topology records: the finite map of one packaging, by component. -/

/-- What a component is; a document may carry a role the table below does not
name. -/
abbrev ComponentRole := Text

def roleDenoiser : ComponentRole := "denoiser".toList
def roleVAE : ComponentRole := "vae".toList
def roleTextEncoder : ComponentRole := "text_encoder".toList
def roleImageEncoder : ComponentRole := "image_encoder".toList
def roleBackbone : ComponentRole := "backbone".toList
def roleOther : ComponentRole := "other".toList

/-- Islands are the keys whose dtype differs from the topology's. -/
structure TopologyComponent where
  name : Text
  role : ComponentRole
  islands : OrdMap Text Text
  tensors : OrdMap Text (List UInt64)

def TopologyComponent.keys (component : TopologyComponent) : List Text :=
  component.tensors.entries.map Prod.fst

structure Topology where
  handle : Handle
  dtype : Text
  components : List TopologyComponent

def topologyFormat : Text := "tensorfs-topology-v2".toList

def shapeCanonical (shape : List UInt64) : Text :=
  '[' :: joinStrings [','] (shape.map fun dimension =>
    decimal dimension.toNat) ++ [']']

namespace Topology

def canonicalComponent (component : TopologyComponent) : Text :=
  "component name=".toList ++ component.name ++ " role=".toList ++
    component.role ++ ['\n'] ++
  (component.tensors.entries.flatMap fun entry =>
    "tensor ".toList ++ entry.1 ++ '=' :: shapeCanonical entry.2 ++ ['\n']) ++
  component.islands.entries.flatMap fun entry =>
    "island ".toList ++ entry.1 ++ '=' :: entry.2 ++ ['\n']

def canonical (topology : Topology) : Text :=
  topologyFormat ++ "\nname=".toList ++ topology.handle.name ++
    "\nversion=".toList ++ decimal topology.handle.version.toNat ++
    "\ndtype=".toList ++ topology.dtype ++ ['\n'] ++
    topology.components.flatMap canonicalComponent

def digest (topology : Topology) : Text := digestOf topology.canonical

end Topology

/-! The document. -/

structure RawTopologyPart where
  name : Text
  role : Text
  islands : OrdMap Text Text
  tensors : OrdMap Text (List UInt64)

structure RawTopology where
  format : Option Text
  name : Option Text
  version : Option UInt32
  dtype : Text
  components : List RawTopologyPart
  digest : Text

inductive TopologyFault where
  | format
  | identity
  | handle (fault : HandleFault)
  | noComponents (handle : Handle)
  | noDtype (handle : Handle)
  | unnamed (handle : Handle)
  | emptyComponent (handle : Handle) (name : Text)
  | emptyKey (handle : Handle)
  | zeroDimension (handle : Handle) (key : Text)
  | island (handle : Handle) (key : Text)
  | digest (handle : Handle) (carried hashed : Text)
  | twoComponents (handle : Handle) (name : Text)
  deriving DecidableEq

def checkTensors (handle : Handle) :
    List (Text × List UInt64) → Except TopologyFault Unit
  | [] => .ok ()
  | (key, shape) :: rest => do
      ensure (key ≠ []) (.emptyKey handle)
      ensure (0 ∉ shape) (.zeroDimension handle key)
      checkTensors handle rest

def checkIslands (handle : Handle) (tensors : OrdMap Text (List UInt64)) :
    List (Text × Text) → Except TopologyFault Unit
  | [] => .ok ()
  | (key, _) :: rest => do
      ensure (tensors.get? key ≠ none) (.island handle key)
      checkIslands handle tensors rest

/-- The components in document order.  The index of their names is filled only
after the loop, so its check for a name declared twice finds nothing. -/
def parseParts (handle : Handle) (count : Nat) :
    List RawTopologyPart → Except TopologyFault (List TopologyComponent)
  | [] => .ok []
  | part :: parts => do
      ensure (¬ (part.name = [] ∧ 1 < count)) (.unnamed handle)
      ensure (part.tensors.entries.length ≠ 0)
        (.emptyComponent handle part.name)
      checkTensors handle part.tensors.entries
      checkIslands handle part.tensors part.islands.entries
      let components ← parseParts handle count parts
      .ok (⟨part.name, part.role, part.islands, part.tensors⟩ :: components)

def byName (components : List TopologyComponent) : List TopologyComponent :=
  components.mergeSort fun left right => decide (left.name ≤ right.name)

def parseTopology (raw : RawTopology) : Except TopologyFault Topology := do
  ensure (raw.format = some topologyFormat) .format
  match raw.name, raw.version with
  | some name, some version =>
      match namedHandle name version with
      | .error fault => .error (.handle fault)
      | .ok handle => do
          ensure (raw.components.length ≠ 0) (.noComponents handle)
          ensure (raw.dtype ≠ []) (.noDtype handle)
          let components ← parseParts handle raw.components.length
            raw.components
          let topology : Topology := ⟨handle, raw.dtype, byName components⟩
          ensure (raw.digest = [] ∨ raw.digest = topology.digest)
            (.digest handle raw.digest topology.digest)
          .ok topology
  | _, _ => .error .identity

/-- A topology document that carries no digest of its own. -/
theorem parseTopology_of {raw : RawTopology} {name : Text} {version : UInt32}
    {handle : Handle} {components : List TopologyComponent}
    (hformat : raw.format = some topologyFormat)
    (hname : raw.name = some name) (hversion : raw.version = some version)
    (hhandle : namedHandle name version = .ok handle)
    (hsome : raw.components.length ≠ 0) (hdtype : raw.dtype ≠ [])
    (hparts : parseParts handle raw.components.length raw.components =
      .ok components) (hdigest : raw.digest = []) :
    parseTopology raw = .ok ⟨handle, raw.dtype, byName components⟩ := by
  simp only [parseTopology, hname, hversion, hhandle, except_bind_eq_ok,
    ensure_eq_ok]
  exact ⟨(), hformat, (), hsome, (), hdtype, components, hparts, (),
    .inl hdigest, rfl⟩

end TensorFS.Go
