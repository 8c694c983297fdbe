import TensorFS.Workspace.Db

namespace TensorFS

open Data

/-! Paths into the dirent graph. -/

structure ResolvedInode where
  id : Nat
  kind : Kind
  deriving DecidableEq

def InodeRow.resolved (row : InodeRow) : ResolvedInode :=
  ⟨row.id, row.inode.kind⟩

def WorkspaceRow.resolvedRoot (workspace : WorkspaceRow) : ResolvedInode :=
  ⟨workspace.rootInode, .directory⟩

def resolveSegments (db : Db) :
    ResolvedInode → List Text → Option ResolvedInode
  | current, [] => some current
  | current, segment :: segments =>
      if current.kind = .directory then
        match db.child current.id segment with
        | some row => resolveSegments db row.resolved segments
        | none => none
      else none

/-- The empty path is the root; its inode row is not consulted. -/
def resolvePath (U : Unicode) (db : Db) (workspace : WorkspaceRow)
    (path : Text) : Outcome (Option ResolvedInode) :=
  if path = [] then .ok (some workspace.resolvedRoot)
  else do
    checked (validatePath U path)
    .ok (resolveSegments db workspace.resolvedRoot (splitPath path))

def resolveExisting (U : Unicode) (db : Db) (workspace : WorkspaceRow)
    (path : Text) : Outcome ResolvedInode := do
  match ← resolvePath U db workspace path with
  | some inode => .ok inode
  | none => refuse (.missing path)

def splitParent (path : Text) : Option Text × Text :=
  match rsplitOnce '/' path with
  | some (parent, name) => (some parent, name)
  | none => (none, path)

/-- The directory a new leaf goes into. -/
def resolveNewParent (U : Unicode) (db : Db) (workspace : WorkspaceRow) :
    Option Text → Outcome Nat
  | none => .ok workspace.rootInode
  | some parentPath => do
      let resolved ← resolveExisting U db workspace parentPath
      require (resolved.kind = .directory) (.notADirectory parentPath)
      .ok resolved.id

def resolveNewLeaf (U : Unicode) (db : Db) (workspace : WorkspaceRow)
    (path : Text) : Outcome (Nat × Text) := do
  checked (validatePath U path)
  let (parent, name) := splitParent path
  let parentInode ← resolveNewParent U db workspace parent
  require (db.dirent parentInode name = none) (.pathExists path)
  require (∀ sibling ∈ db.siblings parentInode,
    caseFold U sibling ≠ caseFold U name) (.caseFoldCollision path)
  .ok (parentInode, name)

/-- The directory of a path that already resolved. -/
def resolveOldParent (U : Unicode) (db : Db) (workspace : WorkspaceRow) :
    Option Text → Outcome Nat
  | none => .ok workspace.rootInode
  | some parentPath => do
      match ← resolvePath U db workspace parentPath with
      | some resolved => .ok resolved.id
      | none => .error .panicked

/-! Record runs. -/

def recordsLength : Nat → List FileRecord → Except Tfm1Error Nat
  | sum, [] => .ok sum
  | sum, record :: records => do
      ensure (sum + record.size < 2 ^ 64) .lengthSumMismatch
      recordsLength (sum + record.size) records

/-- The records kept below `length`, and where they end. -/
def cutRecords (length : Nat) :
    Nat → List FileRecord → Option (List FileRecord × Nat)
  | position, [] => some ([], position)
  | position, record :: records =>
      if length ≤ position then some ([], position)
      else do
        let stop ← checkedAdd position record.size
        if stop ≤ length then do
          let (kept, position) ← cutRecords length stop records
          some (record :: kept, position)
        else
          match record with
          | .hole _ => some ([.hole (UInt64.ofNat (length - position))], length)
          | .data .. => none

/-- The run reaches `length`: a trailing hole grows, or one is added. -/
def extendRecords (kept : List FileRecord) (missing : Nat) :
    List FileRecord :=
  match kept.getLast? with
  | some (.hole length) =>
      kept.dropLast ++ [.hole (length + UInt64.ofNat missing)]
  | _ => kept ++ [.hole (UInt64.ofNat missing)]

def truncateRecords (records : List FileRecord) (length : UInt64) :
    Option (List FileRecord) := do
  let (kept, position) ← cutRecords length.toNat 0 records
  if position < length.toNat then
    some (extendRecords kept (length.toNat - position))
  else some kept

/-! Mutations. -/

inductive Mutation where
  | mkdir (path : Text)
  | createFile (path : Text) (executable : Bool) (planner : PlannerId)
      (records : List FileRecord)
  | setRecords (path : Text) (records : List FileRecord)
  | truncate (path : Text) (length : UInt64)
  | rename (source target : Text)
  | unlink (path : Text)
  | rmdir (path : Text)
  | symlink (path target : Text)
  | hardlink (path target : Text)
  | setExecutable (path : Text) (executable : Bool)
  deriving DecidableEq

section

variable (U : Unicode) (db : Db) (workspace : WorkspaceRow)

/-- A new inode under a new name. -/
def createLeaf (path : Text) (inode : Inode) : Outcome (Db × Nat) := do
  let (parent, name) ← resolveNewLeaf U db workspace path
  let (db, id) ← db.insertInode workspace.id inode
  let db ← db.insertDirent parent name id
  .ok (db, id)

def resolveFile (path : Text) : Outcome Nat := do
  let inode ← resolveExisting U db workspace path
  require (inode.kind = .file) (.notAFile path)
  .ok inode.id

def mkdir (path : Text) : Outcome Db := do
  let (db, _) ← createLeaf U db workspace path .directory
  .ok db

def createFile (path : Text) (executable : Bool) (planner : PlannerId)
    (records : List FileRecord) : Outcome Db := do
  let (db, inode) ← createLeaf U db workspace path
    (.file executable planner .none)
  db.insertRecords inode records

def setRecords (path : Text) (records : List FileRecord) : Outcome Db := do
  let inode ← resolveFile U db workspace path
  db.insertRecords inode records

def truncate (path : Text) (length : UInt64) : Outcome Db := do
  let inode ← resolveFile U db workspace path
  match truncateRecords (db.readRecords inode) length with
  | none => refuse (.midRecordTruncate path length)
  | some truncated => do
      checked (validateRecordRun truncated length)
      db.insertRecords inode truncated

/-- The target is the source or lies below it, as texts. -/
def insideSource (source target : Text) : Bool :=
  target = source || (source ++ ['/']).isPrefixOf target

def rename (source target : Text) : Outcome Db := do
  let inode ← resolveExisting U db workspace source
  require (¬ (inode.kind = .directory ∧ insideSource source target = true))
    (.renameIntoSelf source)
  let (newParent, newName) ← resolveNewLeaf U db workspace target
  let (oldParent, oldName) := splitParent source
  let oldParentInode ← resolveOldParent U db workspace oldParent
  db.updateDirent oldParentInode oldName newParent newName

/-- A name removed, and its inode when nothing else holds it. -/
def removeLeaf (path : Text) (inode : Nat) : Outcome Db := do
  let (parent, name) := splitParent path
  let parentInode ← resolveOldParent U db workspace parent
  (db.deleteDirent parentInode name).dropInodeIfOrphaned inode

def unlink (path : Text) : Outcome Db := do
  let inode ← resolveExisting U db workspace path
  require (inode.kind ≠ .directory) (.notAFile path)
  removeLeaf U db workspace path inode.id

def rmdir (path : Text) : Outcome Db := do
  let inode ← resolveExisting U db workspace path
  require (inode.kind = .directory) (.notADirectory path)
  require (∀ dirent ∈ db.dirents, dirent.parent ≠ inode.id) (.notEmpty path)
  removeLeaf U db workspace path inode.id

def symlink (path target : Text) : Outcome Db := do
  checked (validateSymlinkTarget target)
  let (db, _) ← createLeaf U db workspace path (.symlink target)
  .ok db

def hardlink (path target : Text) : Outcome Db := do
  let inode ← resolveFile U db workspace target
  let (parent, name) ← resolveNewLeaf U db workspace path
  db.insertDirent parent name inode

def Inode.setExecutable (executable : Bool) : Inode → Inode
  | .file _ planner contract => .file executable planner contract
  | inode => inode

def setExecutable (path : Text) (executable : Bool) : Outcome Db := do
  let inode ← resolveFile U db workspace path
  .ok (db.updateInode inode (Inode.setExecutable executable))

def applyMutation : Mutation → Outcome Db
  | .mkdir path => mkdir U db workspace path
  | .createFile path executable planner records =>
      createFile U db workspace path executable planner records
  | .setRecords path records => setRecords U db workspace path records
  | .truncate path length => truncate U db workspace path length
  | .rename source target => rename U db workspace source target
  | .unlink path => unlink U db workspace path
  | .rmdir path => rmdir U db workspace path
  | .symlink path target => symlink U db workspace path target
  | .hardlink path target => hardlink U db workspace path target
  | .setExecutable path executable =>
      setExecutable U db workspace path executable

end

def applyMutations (U : Unicode) (workspace : WorkspaceRow) :
    Db → List Mutation → Outcome Db
  | db, [] => .ok db
  | db, mutation :: mutations => do
      let db ← applyMutation U db workspace mutation
      applyMutations U workspace db mutations

/-! One batch. -/

def Mutation.records : Mutation → List FileRecord
  | .createFile _ _ _ records => records
  | .setRecords _ records => records
  | _ => []

def Mutation.carriesRecords : Mutation → Bool
  | .createFile .. => true
  | .setRecords .. => true
  | _ => false

/-- The run rules on the records a mutation brings. -/
def checkMutation (mutation : Mutation) : Outcome Unit :=
  if mutation.carriesRecords then do
    let logicalSize ← checked (recordsLength 0 mutation.records)
    checked (validateRecordRun mutation.records (UInt64.ofNat logicalSize))
  else .ok ()

/-- Every digest the batch newly references. -/
def referencedDigests (mutations : List Mutation) : List ObjectDigest :=
  mutations.flatMap fun mutation => dataDigests mutation.records

/-- The metadata transaction of a commit. -/
def commitTransaction (P : Platform) (store : ObjectStore P) (db : Db)
    (name : Text) (mutations : List Mutation) : Outcome Db := do
  checkAll (fun digest => require (store.existsObject digest = true)
    (.missingObject digest)) (referencedDigests mutations)
  let workspace ← db.workspaceRow name
  let db ← applyMutations P.unicode workspace db mutations
  .ok (db.setGeneration workspace.id (workspace.headGeneration + 1))

/-- The whole call, with nothing beside it. -/
def commitGeneration (P : Platform) (store : ObjectStore P) (db : Db)
    (name : Text) (mutations : List Mutation) : Outcome Db := do
  checkAll checkMutation mutations
  checkAll (fun digest => require ((store.verify digest).isSome = true)
    (.missingObject digest)) (referencedDigests mutations)
  commitTransaction P store db name mutations

end TensorFS
