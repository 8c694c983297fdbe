import TensorFS.Data.Text

namespace TensorFS

open Data

/-! The value types of the TFM1 manifest. -/

/-- Thirty-two raw bytes: an object digest, a snapshot id or a contract
digest. -/
structure Digest where
  bytes : Bytes
  size : bytes.length = 32
  deriving DecidableEq

abbrev ObjectDigest := Digest

abbrev SnapshotId := Digest

def maxContractNameBytes : Nat := 64

def isHandleChar (c : Char) : Bool := c.isLower || c.isDigit

/-- `<producer>.<format>`: both parts start with a lowercase letter or a digit,
the producer may carry hyphens and the format dots, hyphens and underscores. -/
def isContractName (name : Text) : Bool :=
  !name.isEmpty && name.utf8Len ≤ maxContractNameBytes &&
    match name.span (· ≠ '.') with
    | (_, []) => false
    | (producer, _ :: format) =>
        (producer.head?.any isHandleChar &&
          producer.all fun c => isHandleChar c || c = '-') &&
        (format.head?.any isHandleChar &&
          format.tail.all fun c =>
            isHandleChar c || c = '.' || c = '-' || c = '_')

structure Handle where
  name : Text
  version : UInt32
  name_ok : isContractName name = true
  version_ne_zero : version ≠ 0
  deriving DecidableEq

theorem Handle.version_one : (1 : UInt32) ≠ 0 := by
  decide

inductive ContractError where
  | json (detail : Text)
  | format
  | name (name : Text)
  | version
  | identity
  | digestStamp (text : Text)
  | dtype (dtype : Text)
  | noTensors
  | pattern (text : Text)
  | duplicate (text : Text)
  | roleHoles (role : Text)
  | fusion (pattern : Text)
  | permute (pattern : Text)
  | set (name : Text)
  deriving DecidableEq

def Handle.new (name : Text) (version : UInt32) :
    Except ContractError Handle :=
  if hname : isContractName name = true then
    if hversion : version = 0 then
      .error .version
    else
      .ok ⟨name, version, hname, hversion⟩
  else
    .error (.name name)

/-- Which layout contract directed one file's chunking. -/
inductive Stamp where
  | none
  | named (handle : Handle)
  | digest (digest : Digest)
  deriving DecidableEq

namespace Stamp

def isNone : Stamp → Bool
  | .none => true
  | _ => false

end Stamp

inductive PlannerId where
  | safetensorsV1
  | ggufV1
  | blobV1
  deriving DecidableEq, Repr

inductive TensorFormat where
  | safetensorsV1
  | ggufV1
  deriving DecidableEq, Repr

def PlannerId.tensorFormat : PlannerId → Option TensorFormat
  | .safetensorsV1 => some .safetensorsV1
  | .ggufV1 => some .ggufV1
  | .blobV1 => none

def TensorFormat.plannerId : TensorFormat → PlannerId
  | .safetensorsV1 => .safetensorsV1
  | .ggufV1 => .ggufV1

@[simp] theorem TensorFormat.tensorFormat_plannerId (format : TensorFormat) :
    format.plannerId.tensorFormat = some format := by
  cases format <;> rfl

inductive FileRecord where
  | data (digest : ObjectDigest) (length : UInt64)
  | hole (length : UInt64)
  deriving DecidableEq

namespace FileRecord

def length : FileRecord → UInt64
  | .data _ length => length
  | .hole length => length

def size (record : FileRecord) : Nat := record.length.toNat

def isHole : FileRecord → Bool
  | .data .. => false
  | .hole _ => true

def digest? : FileRecord → Option ObjectDigest
  | .data digest _ => some digest
  | .hole _ => none

theorem size_lt (record : FileRecord) : record.size < 2 ^ 64 :=
  record.length.toNat_lt

end FileRecord

/-- The number of bytes a record run spells. -/
def totalSize (records : List FileRecord) : Nat :=
  (records.map FileRecord.size).sum

@[simp] theorem totalSize_nil : totalSize [] = 0 := rfl

@[simp] theorem totalSize_cons (record : FileRecord)
    (records : List FileRecord) :
    totalSize (record :: records) = record.size + totalSize records := rfl

@[simp] theorem totalSize_append (left right : List FileRecord) :
    totalSize (left ++ right) = totalSize left + totalSize right := by
  simp [totalSize]

/-- The digests of the data records, in order. -/
def dataDigests (records : List FileRecord) : List ObjectDigest :=
  records.filterMap FileRecord.digest?

inductive FileBody where
  | tensor (format : TensorFormat) (contract : Stamp) (logicalSize : UInt64)
      (records : List FileRecord)
  | blob (logicalSize : UInt64) (digest : ObjectDigest)
  deriving DecidableEq

namespace FileBody

def logicalSize : FileBody → UInt64
  | .tensor _ _ logicalSize _ => logicalSize
  | .blob logicalSize _ => logicalSize

def plannerId : FileBody → PlannerId
  | .tensor format _ _ _ => format.plannerId
  | .blob .. => .blobV1

/-- The body as an ordered record run; an empty blob has no record. -/
def records : FileBody → List FileRecord
  | .tensor _ _ _ records => records
  | .blob logicalSize digest =>
      if logicalSize = 0 then [] else [.data digest logicalSize]

end FileBody

inductive Entry where
  | directory
  | file (executable : Bool) (body : FileBody)
  | symlink (target : Text)
  | hardlink (ordinal : Nat)
  deriving DecidableEq

/-- An entry of the committed head, with file content still in record form. -/
inductive TreeEntry where
  | directory
  | file (executable : Bool) (planner : PlannerId) (contract : Stamp)
      (records : List FileRecord)
  | symlink (target : Text)
  | hardlink (ordinal : Nat)
  deriving DecidableEq

def Entry.isDirectory : Entry → Bool
  | .directory => true
  | _ => false

def Entry.isFile : Entry → Bool
  | .file .. => true
  | _ => false

def TreeEntry.isDirectory : TreeEntry → Bool
  | .directory => true
  | _ => false

def TreeEntry.isFile : TreeEntry → Bool
  | .file .. => true
  | _ => false

structure HeadTree where
  entries : List (Text × TreeEntry)
  deriving DecidableEq

structure Snapshot where
  parent : Option SnapshotId
  entries : List (Text × Entry)
  deriving DecidableEq

/-- The path of the file with this ordinal, counting files in entry order. -/
def Snapshot.ordinalPath (snapshot : Snapshot) (ordinal : Nat) : Option Text :=
  ((snapshot.entries.filter fun pair => pair.2.isFile)[ordinal]?).map Prod.fst

inductive Tfm1Error where
  | truncated
  | badMagic
  | parentFlag
  | countExceedsInput
  | trailingBytes
  | entryOrder
  | duplicatePath
  | pathUtf8
  | pathLength
  | pathNotNfc
  | pathAbsolute
  | pathEmptySegment
  | pathDotSegment
  | pathForbiddenCharacter
  | pathTrailingDotSpace
  | pathWindowsReserved
  | caseFoldCollision
  | missingParentDirectory
  | unknownEntryKind
  | executableFlag
  | unknownPlanner
  | contractName
  | contractVersion
  | unknownRecordTag
  | zeroLengthRecord
  | adjacentHoles
  | dataTooLarge
  | recordLimit
  | lengthSumMismatch
  | emptyBlobDigest
  | blobRecords
  | symlinkTarget
  | hardlinkOrdinal
  | hardlinkTarget
  deriving DecidableEq, Repr

/-- SHA-256 of the empty byte string. -/
def emptyBlobDigest : ObjectDigest :=
  ⟨[0xe3, 0xb0, 0xc4, 0x42, 0x98, 0xfc, 0x1c, 0x14,
    0x9a, 0xfb, 0xf4, 0xc8, 0x99, 0x6f, 0xb9, 0x24,
    0x27, 0xae, 0x41, 0xe4, 0x64, 0x9b, 0x93, 0x4c,
    0xa4, 0x95, 0x99, 0x1b, 0x78, 0x52, 0xb8, 0x55], rfl⟩

end TensorFS
