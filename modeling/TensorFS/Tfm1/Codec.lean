import TensorFS.Tfm1.Rules

namespace TensorFS

open Data

/-! The canonical writer and the strict decoder. -/

def magic : Bytes := [0x54, 0x46, 0x4d, 0x31]

def kindDirectory : UInt8 := 1
def kindFile : UInt8 := 2
def kindSymlink : UInt8 := 3
def kindHardlink : UInt8 := 4
def recordData : UInt8 := 1
def recordHole : UInt8 := 2
def stampDigestMarker : UInt8 := 0xff
def plannerSafetensors : UInt8 := 1
def plannerGguf : UInt8 := 2
def plannerBlob : UInt8 := 4

/-- Minimum encoded sizes used to bound declared counts. -/
def minEntryBytes : Nat := 4 + 1 + 1
def minRecordBytes : Nat := 1 + 8

def formatTag : TensorFormat → UInt8
  | .safetensorsV1 => plannerSafetensors
  | .ggufV1 => plannerGguf

def plannerTag : FileBody → UInt8
  | .tensor format _ _ _ => formatTag format
  | .blob .. => plannerBlob

def emitStamp : Stamp → Bytes
  | .digest digest => stampDigestMarker :: digest.bytes
  | .none => 0 :: leBytes 4 0
  | .named handle =>
      UInt8.ofNat handle.name.utf8Len ::
        (handle.name.utf8 ++ leBytes 4 handle.version.toNat)

def emitRecord : FileRecord → Bytes
  | .data digest length =>
      recordData :: (digest.bytes ++ leBytes 8 length.toNat)
  | .hole length => recordHole :: leBytes 8 length.toNat

def emitBody (body : FileBody) : Bytes :=
  plannerTag body ::
    match body with
    | .tensor _ contract logicalSize records =>
        leBytes 8 logicalSize.toNat ++ (emitStamp contract ++
          (leBytes 8 records.length ++ records.flatMap emitRecord))
    | .blob logicalSize digest =>
        leBytes 8 logicalSize.toNat ++ digest.bytes

def emitEntry : Entry → Bytes
  | .directory => [kindDirectory]
  | .file executable body =>
      kindFile :: (if executable then 1 else 0) :: emitBody body
  | .symlink target =>
      kindSymlink :: (leBytes 4 target.utf8Len ++ target.utf8)
  | .hardlink ordinal => kindHardlink :: leBytes 8 ordinal

def emitEntries : List (Text × Entry) → Bytes
  | [] => []
  | (path, entry) :: rest =>
      leBytes 4 path.utf8Len ++
        (path.utf8 ++ (emitEntry entry ++ emitEntries rest))

def emitParent : Option SnapshotId → Bytes
  | none => [0]
  | some parent => 1 :: parent.bytes

def emit (parent : Option SnapshotId) (entries : List (Text × Entry)) :
    Bytes :=
  magic ++ (emitParent parent ++
    (leBytes 8 entries.length ++ emitEntries entries))

def Snapshot.toBytes (snapshot : Snapshot) : Bytes :=
  emit snapshot.parent snapshot.entries

/-! The decoder reads the same grammar back and refuses every deviation. -/

abbrev Tfm1Reader (α : Type) := Reader Tfm1Error α

def take (count : Nat) : Tfm1Reader Bytes := Reader.take .truncated count

def takeU8 : Tfm1Reader UInt8 := do
  let bytes ← take 1
  pure (bytes.headD 0)

def takeU32 : Tfm1Reader Nat := do
  let bytes ← take 4
  pure (leNat bytes)

def takeU64 : Tfm1Reader Nat := do
  let bytes ← take 8
  pure (leNat bytes)

def takeDigest : Tfm1Reader Digest := fun input =>
  if h : 32 ≤ input.length then
    .ok (⟨input.take 32, by simp [h]⟩, input.drop 32)
  else
    .error .truncated

def takeText (count : Nat) (refusal : Tfm1Error) : Tfm1Reader Text := do
  let bytes ← take count
  match Text.fromUtf8 bytes with
  | some text => pure text
  | none => Reader.fail refusal

def decodeStamp : Tfm1Reader Stamp := do
  let length ← takeU8
  if length = stampDigestMarker then
    let digest ← takeDigest
    pure (.digest digest)
  else
    Reader.ensure (length.toNat ≤ maxContractNameBytes) .contractName
    let name ← takeText length.toNat .contractName
    let version ← takeU32
    if name = [] then
      Reader.ensure (version = 0) .contractVersion
      pure .none
    else
      Reader.ensure (version ≠ 0) .contractVersion
      match Handle.new name (UInt32.ofNat version) with
      | .ok handle => pure (.named handle)
      | .error _ => Reader.fail .contractName

def decodeRecord : Tfm1Reader FileRecord := do
  let tag ← takeU8
  if tag = recordData then
    let digest ← takeDigest
    let length ← takeU64
    pure (.data digest (UInt64.ofNat length))
  else if tag = recordHole then
    let length ← takeU64
    pure (.hole (UInt64.ofNat length))
  else
    Reader.fail .unknownRecordTag

def decodeRecords : Nat → Tfm1Reader (List FileRecord)
  | 0 => pure []
  | count + 1 => do
      let record ← decodeRecord
      let records ← decodeRecords count
      pure (record :: records)

def decodeTensorBody (format : TensorFormat) : Tfm1Reader FileBody := do
  let logicalSize ← takeU64
  let contract ← decodeStamp
  let recordCount ← takeU64
  Reader.ensure (recordCount ≤ maxFileRecords) .recordLimit
  let remaining ← Reader.remaining
  Reader.ensure (recordCount ≤ remaining / minRecordBytes) .countExceedsInput
  let records ← decodeRecords recordCount
  Reader.lift (validateRecords records (UInt64.ofNat logicalSize))
  pure (.tensor format contract (UInt64.ofNat logicalSize) records)

def decodeBlobBody : Tfm1Reader FileBody := do
  let logicalSize ← takeU64
  let digest ← takeDigest
  Reader.ensure (logicalSize = 0 → digest = emptyBlobDigest) .emptyBlobDigest
  pure (.blob (UInt64.ofNat logicalSize) digest)

def decodeBody : Tfm1Reader FileBody := do
  let planner ← takeU8
  if planner = plannerSafetensors then
    decodeTensorBody .safetensorsV1
  else if planner = plannerGguf then
    decodeTensorBody .ggufV1
  else if planner = plannerBlob then
    decodeBlobBody
  else
    Reader.fail .unknownPlanner

def decodeExecutable : Tfm1Reader Bool := do
  let flag ← takeU8
  if flag = 0 then
    pure false
  else if flag = 1 then
    pure true
  else
    Reader.fail .executableFlag

def decodeEntry (assignedOrdinals : Nat) : Tfm1Reader Entry := do
  let kind ← takeU8
  if kind = kindDirectory then
    pure .directory
  else if kind = kindFile then
    let executable ← decodeExecutable
    let body ← decodeBody
    pure (.file executable body)
  else if kind = kindSymlink then
    let targetLength ← takeU32
    Reader.ensure (targetLength ≤ maxSymlinkTargetBytes) .symlinkTarget
    let target ← takeText targetLength .symlinkTarget
    Reader.lift (validateSymlinkTarget target)
    pure (.symlink target)
  else if kind = kindHardlink then
    let ordinal ← takeU64
    Reader.ensure (ordinal < assignedOrdinals) .hardlinkOrdinal
    pure (.hardlink ordinal)
  else
    Reader.fail .unknownEntryKind

def decodePath (U : Unicode) : Tfm1Reader Text := do
  let pathLength ← takeU32
  Reader.ensure (pathLength ≠ 0 ∧ pathLength ≤ maxPathBytes) .pathLength
  let path ← takeText pathLength .pathUtf8
  Reader.lift (validatePath U path)
  pure path

def checkOrder (previous : Option Text) (path : Text) :
    Except Tfm1Error Unit :=
  match previous with
  | none => .ok ()
  | some previous =>
      if previous < path then .ok ()
      else if previous = path then .error .duplicatePath
      else .error .entryOrder

def decodeEntries (U : Unicode) :
    Nat → Option Text → Nat → Tfm1Reader (List (Text × Entry))
  | 0, _, _ => pure []
  | count + 1, previous, assignedOrdinals => do
      let path ← decodePath U
      Reader.lift (checkOrder previous path)
      let entry ← decodeEntry assignedOrdinals
      let assigned :=
        if entry.isFile then assignedOrdinals + 1 else assignedOrdinals
      let rest ← decodeEntries U count (some path) assigned
      pure ((path, entry) :: rest)

def decodeParent : Tfm1Reader (Option SnapshotId) := do
  let flag ← takeU8
  if flag = 0 then
    pure none
  else if flag = 1 then
    let parent ← takeDigest
    pure (some parent)
  else
    Reader.fail .parentFlag

def decodeManifest (U : Unicode) : Tfm1Reader Snapshot := do
  let front ← take 4
  Reader.ensure (front = magic) .badMagic
  let parent ← decodeParent
  let entryCount ← takeU64
  let remaining ← Reader.remaining
  Reader.ensure (entryCount ≤ remaining / minEntryBytes) .countExceedsInput
  let entries ← decodeEntries U entryCount none 0
  let trailing ← Reader.remaining
  Reader.ensure (trailing = 0) .trailingBytes
  Reader.lift (validateTree U Entry.isDirectory entries)
  pure ⟨parent, entries⟩

def decode (U : Unicode) (bytes : Bytes) : Except Tfm1Error Snapshot :=
  (decodeManifest U bytes).map Prod.fst

end TensorFS
