import TensorFS.Data.Table
import TensorFS.Store.RecordsSource

namespace TensorFS

open Data

/-! The metadata database: its tables, and the statements the workspace layer
runs on them with the keys and foreign keys of the schema. -/

inductive Kind where
  | directory
  | file
  | symlink
  deriving DecidableEq, Repr

inductive Inode where
  | directory
  | file (executable : Bool) (planner : PlannerId) (contract : Stamp)
  | symlink (target : Text)
  deriving DecidableEq

def Inode.kind : Inode → Kind
  | .directory => .directory
  | .file .. => .file
  | .symlink _ => .symlink

structure WorkspaceRow where
  id : Nat
  name : Text
  headGeneration : Nat
  rootInode : Nat
  deriving DecidableEq

structure InodeRow where
  id : Nat
  workspaceId : Nat
  inode : Inode
  deriving DecidableEq

structure Dirent where
  parent : Nat
  name : Text
  child : Nat
  deriving DecidableEq

def Dirent.key (dirent : Dirent) : Nat × Text := (dirent.parent, dirent.name)

inductive LeaseKind where
  | unlinked
  | pendingSync
  deriving DecidableEq, Repr

structure LeaseRow where
  id : Nat
  kind : LeaseKind
  holder : Text
  workspaceId : Option Nat
  inode : Option Nat
  deriving DecidableEq

/-- `objectMaps` keeps each inode's records in ordinal order. -/
structure Db where
  workspaces : List WorkspaceRow
  inodes : List InodeRow
  dirents : List Dirent
  objectMaps : List (Nat × FileRecord)
  snapshots : List (SnapshotId × Nat)
  leases : List LeaseRow
  leaseObjects : List (Nat × ObjectDigest)
  epoch : Nat
  quarantine : List (ObjectDigest × Nat)
  deriving DecidableEq

inductive WorkspaceError where
  | db
  | store
  | tfm1 (error : Tfm1Error)
  | unknownWorkspace (name : Text)
  | workspaceExists (name : Text)
  | missing (path : Text)
  | pathExists (path : Text)
  | notADirectory (path : Text)
  | notAFile (path : Text)
  | notEmpty (path : Text)
  | caseFoldCollision (path : Text)
  | midRecordTruncate (path : Text) (length : UInt64)
  | missingObject (digest : ObjectDigest)
  | unknownSnapshot (id : SnapshotId)
  | snapshotCorrupt
  | unknownLease (id : Nat)
  | renameIntoSelf (path : Text)
  | plan (error : PlanError)
  | sealContention
  deriving DecidableEq

abbrev Outcome (α : Type) := Except (Failure WorkspaceError) α

def refuse (error : WorkspaceError) : Outcome α := .error (.refused error)

def require (p : Prop) [Decidable p] (error : WorkspaceError) : Outcome Unit :=
  ensure p (.refused error)

@[simp] theorem require_eq_ok {p : Prop} [Decidable p]
    {error : WorkspaceError} {u : Unit} : require p error = .ok u ↔ p :=
  ensure_eq_ok

theorem require_of {p : Prop} [Decidable p] {error : WorkspaceError}
    (h : p) : require p error = .ok () := ensure_of h

@[simp] theorem refuse_ne_ok {error : WorkspaceError} {value : α} :
    (refuse error : Outcome α) ≠ .ok value := by
  simp [refuse]

/-- A format rule's refusal, inside a workspace call. -/
def checked (result : Except Tfm1Error α) : Outcome α :=
  match result with
  | .ok value => .ok value
  | .error error => refuse (.tfm1 error)

@[simp] theorem checked_eq_ok {result : Except Tfm1Error α} {value : α} :
    checked result = .ok value ↔ result = .ok value := by
  cases result <;> simp [checked]

namespace Db

def empty : Db where
  workspaces := []
  inodes := []
  dirents := []
  objectMaps := []
  snapshots := []
  leases := []
  leaseObjects := []
  epoch := 0
  quarantine := []

def workspace (db : Db) (name : Text) : Option WorkspaceRow :=
  findRow WorkspaceRow.name db.workspaces name

def workspaceRow (db : Db) (name : Text) : Outcome WorkspaceRow :=
  match db.workspace name with
  | some row => .ok row
  | none => refuse (.unknownWorkspace name)

def inode (db : Db) (id : Nat) : Option InodeRow :=
  findRow InodeRow.id db.inodes id

def dirent (db : Db) (parent : Nat) (name : Text) : Option Dirent :=
  findRow Dirent.key db.dirents (parent, name)

/-- The dirent joined with the inode it names. -/
def child (db : Db) (parent : Nat) (name : Text) : Option InodeRow :=
  (db.dirent parent name).bind fun dirent => db.inode dirent.child

/-- Every dirent of a directory joined with its inode. -/
def children (db : Db) (parent : Nat) : List (Text × InodeRow) :=
  (db.dirents.filter fun dirent => dirent.parent = parent).filterMap
    fun dirent => (db.inode dirent.child).map fun row => (dirent.name, row)

def siblings (db : Db) (parent : Nat) : List Text :=
  (db.dirents.filter fun dirent => dirent.parent = parent).map Dirent.name

def linkCount (db : Db) (inode : Nat) : Nat :=
  (db.dirents.filter fun dirent => dirent.child = inode).length

def leaseCount (db : Db) (inode : Nat) : Nat :=
  (db.leases.filter fun lease => lease.inode = some inode).length

def readRecords (db : Db) (inode : Nat) : List FileRecord :=
  (db.objectMaps.filter fun entry => entry.1 = inode).map Prod.snd

/-- `INSERT INTO inodes`, with the rowid it takes. -/
def insertInode (db : Db) (workspaceId : Nat) (inode : Inode) :
    Outcome (Db × Nat) := do
  require (∃ row ∈ db.workspaces, row.id = workspaceId) .db
  let id := nextId (db.inodes.map InodeRow.id)
  .ok ({ db with inodes := db.inodes ++ [⟨id, workspaceId, inode⟩] }, id)

def insertDirent (db : Db) (parent : Nat) (name : Text) (child : Nat) :
    Outcome Db := do
  require ((∃ row ∈ db.inodes, row.id = parent) ∧
    (∃ row ∈ db.inodes, row.id = child) ∧
    ∀ dirent ∈ db.dirents, dirent.key ≠ (parent, name)) .db
  .ok { db with dirents := db.dirents ++ [⟨parent, name, child⟩] }

/-- `UPDATE dirents SET parent_inode, name`; no row matches is no change. -/
def updateDirent (db : Db) (parent : Nat) (name : Text) (newParent : Nat)
    (newName : Text) : Outcome Db := do
  require ((∃ dirent ∈ db.dirents, dirent.key = (parent, name)) →
    (∃ row ∈ db.inodes, row.id = newParent) ∧
    ∀ dirent ∈ db.dirents, dirent.key ≠ (newParent, newName)) .db
  .ok { db with
    dirents := updateRow Dirent.key (parent, name)
      (fun dirent => ⟨newParent, newName, dirent.child⟩) db.dirents }

def deleteDirent (db : Db) (parent : Nat) (name : Text) : Db :=
  { db with
    dirents := db.dirents.filter fun dirent => dirent.key ≠ (parent, name) }

/-- `DELETE FROM inodes`: its dirents and object map go with it, a reference
from elsewhere refuses. -/
def deleteInode (db : Db) (id : Nat) : Outcome Db := do
  let dirents := db.dirents.filter fun dirent => dirent.parent ≠ id
  require ((∀ dirent ∈ dirents, dirent.child ≠ id) ∧
    ∀ lease ∈ db.leases, lease.inode ≠ some id) .db
  .ok { db with
    inodes := db.inodes.filter fun row => row.id ≠ id
    dirents := dirents
    objectMaps := db.objectMaps.filter fun entry => entry.1 ≠ id }

def updateInode (db : Db) (id : Nat) (inode : Inode → Inode) : Db :=
  { db with
    inodes := updateRow InodeRow.id id
      (fun row => { row with inode := inode row.inode }) db.inodes }

def insertRecords (db : Db) (inode : Nat) (records : List FileRecord) :
    Outcome Db := do
  require (records = [] ∨ ∃ row ∈ db.inodes, row.id = inode) .db
  .ok { db with
    objectMaps := (db.objectMaps.filter fun entry => entry.1 ≠ inode) ++
      records.map fun record => (inode, record) }

def dropInodeIfOrphaned (db : Db) (inode : Nat) : Outcome Db :=
  if db.linkCount inode = 0 ∧ db.leaseCount inode = 0 then
    db.deleteInode inode
  else .ok db

def setGeneration (db : Db) (workspaceId generation : Nat) : Db :=
  { db with
    workspaces := updateRow WorkspaceRow.id workspaceId
      (fun row => { row with headGeneration := generation }) db.workspaces }

end Db

/-! Workspaces come and go. -/

def createWorkspace (db : Db) (name : Text) : Outcome Db := do
  require (db.workspace name = none) (.workspaceExists name)
  let id := nextId (db.workspaces.map WorkspaceRow.id)
  let inserted : Db :=
    { db with workspaces := db.workspaces ++ [⟨id, name, 0, 0⟩] }
  let (db, rootInode) ← inserted.insertInode id .directory
  .ok { db with
    workspaces := updateRow WorkspaceRow.id id
      (fun row => { row with rootInode := rootInode }) db.workspaces }

/-- The workspace's inodes and leases cascade from its row.  A lease does not
cascade from the inode it names, so it refuses the deletion. -/
def deleteWorkspace (db : Db) (name : Text) : Outcome Db := do
  let workspace ← db.workspaceRow name
  let own (id : Nat) : Bool := db.inodes.any fun row =>
    row.id = id && row.workspaceId = workspace.id
  let dirents := db.dirents.filter fun dirent => !own dirent.parent
  require ((∀ dirent ∈ dirents, own dirent.child = false) ∧
    ∀ lease ∈ db.leases, ∀ id ∈ lease.inode, own id = false) .db
  .ok { db with
    workspaces := db.workspaces.filter fun row => row.id ≠ workspace.id
    inodes := db.inodes.filter fun row => row.workspaceId ≠ workspace.id
    dirents := dirents
    objectMaps := db.objectMaps.filter fun entry => !own entry.1
    leases := db.leases.filter fun lease =>
      lease.workspaceId ≠ some workspace.id
    leaseObjects := db.leaseObjects.filter fun pin =>
      !(db.leases.any fun lease =>
        lease.id = pin.1 && lease.workspaceId = some workspace.id) }

end TensorFS
