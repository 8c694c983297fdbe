import TensorFS.Engine.QuantRule

namespace TensorFS.Go

open Data

/-! Reading a topology off the headers of a reference checkpoint. -/

/-! Slash-separated paths. -/

/-- One segment under `path.Clean`; what is kept so far is in reverse. -/
def cleanSegment (rooted : Bool) (kept : List Text) (segment : Text) :
    List Text :=
  if segment = [] ∨ segment = ['.'] then kept
  else if segment = ['.', '.'] then
    match kept with
    | [] => if rooted then [] else [segment]
    | last :: rest =>
        if last = ['.', '.'] then segment :: last :: rest else rest
  else segment :: kept

def cleanPath (path : Text) : Text :=
  let rooted := path.head? = some '/'
  let joined := joinStrings ['/']
    ((path.splitOn '/').foldl (cleanSegment rooted) []).reverse
  if rooted then '/' :: joined else if joined = [] then ['.'] else joined

/-- `path.Dir`. -/
def pathDir (path : Text) : Text :=
  match rsplitOnce '/' path with
  | none => cleanPath []
  | some (front, _) => cleanPath (front ++ ['/'])

def lastSegment (path : Text) : Text :=
  match rsplitOnce '/' path with
  | none => path
  | some (_, last) => last

/-- `path.Base`: slashes at the end do not count. -/
def pathBase (path : Text) : Text :=
  if path = [] then ['.']
  else
    let last := lastSegment (path.reverse.dropWhile (· = '/')).reverse
    if last = [] then ['/'] else last

/-- `path.Ext`: from the last dot of the last segment. -/
def pathExt (path : Text) : Text :=
  match rsplitOnce '.' (lastSegment path) with
  | none => []
  | some (_, extension) => '.' :: extension

/-- A member's file name without its extension. -/
def memberStem (memberPath : Text) : Text :=
  let base := pathBase memberPath
  trimSuffix (pathExt base) base

/-- Every run of digits becomes one mark. -/
def collapseDigits : Bool → Text → Text
  | _, [] => []
  | digits, c :: rest =>
      if isAsciiDigit c = true then
        if digits then collapseDigits true rest
        else '#' :: collapseDigits true rest
      else c :: collapseDigits false rest

/-- What a member is a shard of. -/
def shardFamily (memberPath : Text) : Text :=
  collapseDigits false (memberStem memberPath)

/-- A member's directory; none is the empty one. -/
def directoryOf (memberPath : Text) : Text :=
  if pathDir memberPath = ['.'] then [] else pathDir memberPath

/-! Roles. -/

/-- `unicode.ToLower` as far as a comparison with lower-case ASCII sees it: two
letters outside ASCII have an ASCII lower case. -/
def lowerRune (c : Char) : Char :=
  if c = Char.ofNat 0x130 then 'i'
  else if c = Char.ofNat 0x212A then 'k'
  else c.toLower

/-- A numbered sibling is what its base is. -/
def withoutNumber (base : Text) : Text :=
  match rsplitOnce '_' base with
  | none => base
  | some (front, digits) =>
      if front ≠ [] ∧ digits ≠ [] ∧ digits.all isAsciiDigit = true then front
      else base

def roleOfDirectory (directory : Text) : ComponentRole :=
  let base := withoutNumber ((pathBase directory).map lowerRune)
  if base ∈ ["unet".toList, "transformer".toList, "denoiser".toList,
      "diffusion_models".toList, "dit".toList] then roleDenoiser
  else if base = "vae".toList ∨ "vae_".toList <+: base then roleVAE
  else if "text_encoder".toList <+: base ∨ base = "text_encoders".toList then
    roleTextEncoder
  else if "image_encoder".toList <+: base ∨ base = "vision_tower".toList then
    roleImageEncoder
  else if base = ['.'] ∨ base = [] then roleBackbone
  else roleOther

/-! The dominant element type. -/

structure Tally where
  bytes : OrdMap Text UInt64
  keys : OrdMap Text UInt64
  total : UInt64

def Tally.add (tally : Tally) (tensor : InventoryTensor) : Tally where
  bytes := tally.bytes.insert tensor.dtype
    ((tally.bytes.get? tensor.dtype).getD 0 + tensor.length)
  keys := tally.keys.insert tensor.dtype
    ((tally.keys.get? tensor.dtype).getD 0 + 1)
  total := tally.total + tensor.length

/-- The greatest weight, the first of them in the order of their names. -/
def heaviest : Option (Text × UInt64) → List (Text × UInt64) → Text
  | best, [] => (best.map Prod.fst).getD []
  | best, (dtype, weight) :: rest =>
      if best.all fun found => decide (found.2 < weight) then
        heaviest (some (dtype, weight)) rest
      else heaviest best rest

/-- Bytes decide, keys where no length was supplied. -/
def dominantDtype (files : List ArtifactFile) (inScope : Text → Bool) : Text :=
  let inside := files.filter fun file => inScope (directoryOf file.path)
  let tally := (inside.flatMap ArtifactFile.tensors).foldl Tally.add
    ⟨.empty, .empty, 0⟩
  heaviest none (if tally.total = 0 then tally.keys else tally.bytes).entries

/-! Partitioning. -/

/-- The members by directory, each directory's in the order given. -/
def groupByDirectory : OrdMap Text (List ArtifactFile) →
    List ArtifactFile → OrdMap Text (List ArtifactFile)
  | grouped, [] => grouped
  | grouped, file :: files =>
      let directory := directoryOf file.path
      groupByDirectory (grouped.insert directory
        ((grouped.get? directory).getD [] ++ [file])) files

/-- A member behind the others of its family, families in first-seen order. -/
def addToFamily (member : ArtifactFile) :
    List (Text × List ArtifactFile) → List (Text × List ArtifactFile)
  | [] => [(shardFamily member.path, [member])]
  | (family, members) :: rest =>
      if family = shardFamily member.path then
        (family, members ++ [member]) :: rest
      else (family, members) :: addToFamily member rest

def overlaps (covered : List Text) (member : ArtifactFile) : Bool :=
  member.tensors.any fun tensor => covered.contains tensor.name

/-- The first part of the family the member adds only new keys to, or a part
of its own; beside each part what it covers. -/
def placeMember (member : ArtifactFile) :
    List (List Text × List ArtifactFile) →
      List (List Text × List ArtifactFile)
  | [] => [(member.names, [member])]
  | (covered, part) :: rest =>
      if overlaps covered member = true then
        (covered, part) :: placeMember member rest
      else (covered ++ member.names, part ++ [member]) :: rest

def familyParts (members : List ArtifactFile) : List (List ArtifactFile) :=
  (members.foldl (fun parts member => placeMember member parts) []).map
    Prod.snd

/-- One directory's members, split into components. -/
def partitionMembers (members : List ArtifactFile) :
    List (List ArtifactFile) :=
  ((byPath members).foldl (fun families member =>
    addToFamily member families) []).flatMap fun family =>
      familyParts family.2

/-! The components. -/

namespace Topology

def componentName (directory : Text) : Text :=
  if directory = [] then [] else pathBase directory

end Topology

/-- The members one component is read off. -/
structure Part where
  name : Text
  role : ComponentRole
  members : List ArtifactFile

/-- A directory with several parts names each after its first member. -/
def partName (directory : Text) (count : Nat) (members : List ArtifactFile) :
    Text :=
  if 1 < count then memberStem ((members.head?.map ArtifactFile.path).getD [])
  else Topology.componentName directory

def directoryParts (directory : Text) (members : List ArtifactFile) :
    List Part :=
  let parts := partitionMembers members
  parts.map fun part =>
    ⟨partName directory parts.length part, roleOfDirectory directory, part⟩

def partsOf (files : List ArtifactFile) : List Part :=
  (groupByDirectory .empty files).entries.flatMap fun entry =>
    directoryParts entry.1 entry.2

def readTensors (dtype : Text) :
    OrdMap Text (List UInt64) × OrdMap Text Text → List InventoryTensor →
      OrdMap Text (List UInt64) × OrdMap Text Text
  | maps, [] => maps
  | maps, tensor :: tensors =>
      readTensors dtype (maps.1.insert tensor.name tensor.shape,
        if tensor.dtype ≠ dtype then maps.2.insert tensor.name tensor.dtype
        else maps.2) tensors

def Part.component (dtype : Text) (part : Part) : TopologyComponent :=
  let maps := readTensors dtype (.empty, .empty)
    (part.members.flatMap ArtifactFile.tensors)
  ⟨part.name, part.role, maps.2, maps.1⟩

/-- The denoiser's element type, or the whole tree's where none is. -/
def referenceTreeDtype (files : List ArtifactFile) : Text :=
  let denoiser := dominantDtype files fun directory =>
    roleOfDirectory directory = roleDenoiser
  if denoiser = [] then dominantDtype files fun _ => true else denoiser

def indexNames (handle : Handle) :
    List Text → List TopologyComponent → Except TopologyFault Unit
  | _, [] => .ok ()
  | seen, component :: components => do
      ensure (component.name ∉ seen) (.twoComponents handle component.name)
      indexNames handle (component.name :: seen) components

def topologyFromHeaders (name : Text) (version : UInt32)
    (files : List ArtifactFile) : Except TopologyFault Topology :=
  match namedHandle name version with
  | .error fault => .error (.handle fault)
  | .ok handle => do
      let dtype := referenceTreeDtype files
      let components := byName ((partsOf files).map (Part.component dtype))
      indexNames handle [] components
      .ok ⟨handle, dtype, components⟩

end TensorFS.Go
