import TensorFS.Data.OrdMap
import TensorFS.Tfm1.Rules

namespace TensorFS

open Data

/-! The sole TFM1 writer: declarations in, one canonical tree out. -/

inductive Pending where
  | directory
  | file (executable : Bool) (planner : PlannerId) (contract : Stamp)
      (records : List FileRecord)
  | symlink (target : Text)
  | hardlinkTo (targetPath : Text)
  deriving DecidableEq

def Pending.isFile : Pending → Bool
  | .file .. => true
  | _ => false

@[simp]
theorem Pending.isFile_file (executable : Bool) (planner : PlannerId)
    (contract : Stamp) (records : List FileRecord) :
    (Pending.file executable planner contract records).isFile = true := rfl

@[simp]
theorem Pending.isFile_directory : Pending.directory.isFile = false := rfl

@[simp]
theorem Pending.isFile_symlink (target : Text) :
    (Pending.symlink target).isFile = false := rfl

@[simp]
theorem Pending.isFile_hardlinkTo (target : Text) :
    (Pending.hardlinkTo target).isFile = false := rfl

structure SnapshotBuilder where
  parent : Option SnapshotId
  pending : List (Text × Pending)

namespace SnapshotBuilder

def new (parent : Option SnapshotId) : SnapshotBuilder := ⟨parent, []⟩

def push (builder : SnapshotBuilder) (path : Text) (pending : Pending) :
    SnapshotBuilder :=
  { builder with pending := builder.pending ++ [(path, pending)] }

def directory (builder : SnapshotBuilder) (path : Text) : SnapshotBuilder :=
  builder.push path .directory

def fileUnder (builder : SnapshotBuilder) (path : Text) (executable : Bool)
    (planner : PlannerId) (contract : Stamp) (records : List FileRecord) :
    SnapshotBuilder :=
  builder.push path (.file executable planner contract records)

def file (builder : SnapshotBuilder) (path : Text) (executable : Bool)
    (planner : PlannerId) (records : List FileRecord) : SnapshotBuilder :=
  builder.fileUnder path executable planner .none records

def symlink (builder : SnapshotBuilder) (path target : Text) :
    SnapshotBuilder :=
  builder.push path (.symlink target)

def hardlink (builder : SnapshotBuilder) (path targetPath : Text) :
    SnapshotBuilder :=
  builder.push path (.hardlinkTo targetPath)

end SnapshotBuilder

def checkPending (U : Unicode) (path : Text) (pending : Pending) :
    Except Tfm1Error Unit := do
  validatePath U path
  match pending with
  | .symlink target => validateSymlinkTarget target
  | _ => .ok ()

def collectPending (U : Unicode) :
    OrdMap Text Pending → List (Text × Pending) →
      Except Tfm1Error (OrdMap Text Pending)
  | entries, [] => .ok entries
  | entries, (path, pending) :: rest => do
      checkPending U path pending
      ensure (entries.get? path = none) .duplicatePath
      collectPending U (entries.insert path pending) rest

/-- Every hardlink group, keyed by the path declared with the file body. -/
def hardlinkGroups (entries : OrdMap Text Pending) :
    OrdMap Text (List Text) → List (Text × Pending) →
      Except Tfm1Error (OrdMap Text (List Text))
  | groups, [] => .ok groups
  | groups, (path, .hardlinkTo target) :: rest =>
      match entries.get? target with
      | some (.file ..) =>
          hardlinkGroups entries
            (groups.insert target ((groups.get? target).getD [] ++ [path]))
            rest
      | _ => .error .hardlinkTarget
  | groups, (_, .directory) :: rest => hardlinkGroups entries groups rest
  | groups, (_, .file ..) :: rest => hardlinkGroups entries groups rest
  | groups, (_, .symlink _) :: rest => hardlinkGroups entries groups rest

def insertLinks (carrier : Text) (entries : OrdMap Text Pending)
    (links : List Text) : OrdMap Text Pending :=
  links.foldl (fun entries link => entries.insert link (.hardlinkTo carrier))
    entries

/-- Moves one group's body onto the group's first sorted path. -/
def rerootGroup (entries : OrdMap Text Pending) (filePath : Text)
    (links : List Text) : OrdMap Text Pending :=
  let carrier := links.foldl min filePath
  if carrier = filePath then entries
  else
    match entries.get? filePath with
    | none => entries
    | some body =>
        let moved := (entries.erase filePath).insert filePath
          (.hardlinkTo carrier)
        (insertLinks carrier moved links).insert carrier body

def reroot (entries : OrdMap Text Pending)
    (groups : List (Text × List Text)) : OrdMap Text Pending :=
  groups.foldl (fun entries group => rerootGroup entries group.1 group.2)
    entries

def declaredLength : Nat → List FileRecord → Except Tfm1Error Nat
  | sum, [] => .ok sum
  | sum, record :: records => do
      ensure (record.length ≠ 0) .zeroLengthRecord
      ensure (sum + record.size < 2 ^ 64) .lengthSumMismatch
      declaredLength (sum + record.size) records

def resolveEntry (ordinals : OrdMap Text Nat) (path : Text) :
    Pending → Except Tfm1Error (TreeEntry × OrdMap Text Nat)
  | .directory => .ok (.directory, ordinals)
  | .file executable planner contract records => do
      let logicalSize ← declaredLength 0 records
      validateRecordRun records (UInt64.ofNat logicalSize)
      .ok (.file executable planner contract records,
        ordinals.insert path ordinals.entries.length)
  | .symlink target => .ok (.symlink target, ordinals)
  | .hardlinkTo targetPath =>
      match ordinals.get? targetPath with
      | some ordinal => .ok (.hardlink ordinal, ordinals)
      | none => .error .hardlinkOrdinal

def resolveEntries : OrdMap Text Nat → List (Text × Pending) →
    Except Tfm1Error (List (Text × TreeEntry))
  | _, [] => .ok []
  | ordinals, (path, pending) :: rest => do
      let (entry, ordinals) ← resolveEntry ordinals path pending
      let tail ← resolveEntries ordinals rest
      .ok ((path, entry) :: tail)

def canonicalBody (planner : PlannerId) (contract : Stamp)
    (records : List FileRecord) : Except Tfm1Error FileBody :=
  match planner.tensorFormat with
  | some format => do
      let logicalSize := UInt64.ofNat (totalSize records)
      validateRecords records logicalSize
      .ok (.tensor format contract logicalSize records)
  | none =>
      match records with
      | [] => .ok (.blob 0 emptyBlobDigest)
      | [.data digest length] => .ok (.blob length digest)
      | _ => .error .blobRecords

def canonicalEntry : TreeEntry → Except Tfm1Error Entry
  | .directory => .ok .directory
  | .file executable planner contract records => do
      let body ← canonicalBody planner contract records
      .ok (.file executable body)
  | .symlink target => .ok (.symlink target)
  | .hardlink ordinal => .ok (.hardlink ordinal)

def canonicalEntries : List (Text × TreeEntry) →
    Except Tfm1Error (List (Text × Entry))
  | [] => .ok []
  | (path, entry) :: rest => do
      let entry ← canonicalEntry entry
      let tail ← canonicalEntries rest
      .ok ((path, entry) :: tail)

namespace SnapshotBuilder

def resolve (U : Unicode) (builder : SnapshotBuilder) :
    Except Tfm1Error (List (Text × TreeEntry)) := do
  let entries ← collectPending U .empty builder.pending
  let groups ← hardlinkGroups entries .empty entries.entries
  let resolved ← resolveEntries .empty (reroot entries groups.entries).entries
  validateTree U TreeEntry.isDirectory resolved
  .ok resolved

def finishTree (U : Unicode) (builder : SnapshotBuilder) :
    Except Tfm1Error HeadTree := do
  let entries ← builder.resolve U
  .ok ⟨entries⟩

def finish (U : Unicode) (builder : SnapshotBuilder) :
    Except Tfm1Error Snapshot := do
  let resolved ← builder.resolve U
  let entries ← canonicalEntries resolved
  .ok ⟨builder.parent, entries⟩

end SnapshotBuilder

end TensorFS
