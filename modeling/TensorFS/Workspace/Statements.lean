import TensorFS.Data.Transaction
import TensorFS.Workspace.Roots

namespace TensorFS

open Data Session

/-! A commit statement by statement, on a connection that keeps what a batch
has written until the transaction is rolled back. -/

abbrev Statements (α : Type) := Session Db (Failure WorkspaceError) α

namespace Db

def deleteRecords (db : Db) (inode : Nat) : Db :=
  { db with objectMaps := db.objectMaps.filter fun entry => entry.1 ≠ inode }

def insertRecord (db : Db) (inode : Nat) (record : FileRecord) :
    Outcome Db := do
  require (∃ row ∈ db.inodes, row.id = inode) .db
  .ok { db with objectMaps := db.objectMaps ++ [(inode, record)] }

end Db

namespace Statements

section

variable (U : Unicode) (engine : Engine (Failure WorkspaceError))
  (workspace : WorkspaceRow)

def resolveExisting (path : Text) : Statements ResolvedInode :=
  query engine fun db => TensorFS.resolveExisting U db workspace path

def resolveNewLeaf (path : Text) : Statements (Nat × Text) :=
  query engine fun db => TensorFS.resolveNewLeaf U db workspace path

def resolveOldParent (parent : Option Text) : Statements Nat :=
  query engine fun db => TensorFS.resolveOldParent U db workspace parent

def createLeaf (path : Text) (inode : Inode) : Statements Nat := do
  let (parent, name) ← resolveNewLeaf U engine workspace path
  let id ← statement engine fun db => db.insertInode workspace.id inode
  execute engine fun db => db.insertDirent parent name id
  pure id

/-- The old rows go first, the new ones follow one by one. -/
def insertRecords (inode : Nat) (records : List FileRecord) :
    Statements Unit := do
  execute engine fun db => .ok (db.deleteRecords inode)
  forEach (fun record => execute engine fun db => db.insertRecord inode record)
    records

def dropInodeIfOrphaned (inode : Nat) : Statements Unit := do
  let links ← query engine fun db => .ok (db.linkCount inode)
  if links = 0 then
    let leases ← query engine fun db => .ok (db.leaseCount inode)
    if leases = 0 then execute engine fun db => db.deleteInode inode
    else pure ()
  else pure ()

def resolveFile (path : Text) : Statements Nat := do
  let inode ← resolveExisting U engine workspace path
  lift (require (inode.kind = .file) (.notAFile path))
  pure inode.id

def putTruncated (path : Text) (length : UInt64) (inode : Nat) :
    Option (List FileRecord) → Statements Unit
  | none => lift (refuse (.midRecordTruncate path length))
  | some truncated => do
      lift (checked (validateRecordRun truncated length))
      insertRecords engine inode truncated

def removeLeaf (path : Text) (inode : Nat) : Statements Unit := do
  let parentInode ← resolveOldParent U engine workspace (splitParent path).1
  execute engine fun db =>
    .ok (db.deleteDirent parentInode (splitParent path).2)
  dropInodeIfOrphaned engine inode

def applyMutation : Mutation → Statements Unit
  | .mkdir path => do
      let _ ← createLeaf U engine workspace path .directory
      pure ()
  | .createFile path executable planner records => do
      let inode ← createLeaf U engine workspace path
        (.file executable planner .none)
      insertRecords engine inode records
  | .setRecords path records => do
      let inode ← resolveFile U engine workspace path
      insertRecords engine inode records
  | .truncate path length => do
      let inode ← resolveFile U engine workspace path
      let records ← query engine fun db => .ok (db.readRecords inode)
      putTruncated engine path length inode (truncateRecords records length)
  | .rename source target => do
      let inode ← resolveExisting U engine workspace source
      lift (require (¬ (inode.kind = .directory ∧
        insideSource source target = true)) (.renameIntoSelf source))
      let (newParent, newName) ← resolveNewLeaf U engine workspace target
      let oldParentInode ←
        resolveOldParent U engine workspace (splitParent source).1
      execute engine fun db =>
        db.updateDirent oldParentInode (splitParent source).2 newParent newName
  | .unlink path => do
      let inode ← resolveExisting U engine workspace path
      lift (require (inode.kind ≠ .directory) (.notAFile path))
      removeLeaf U engine workspace path inode.id
  | .rmdir path => do
      let inode ← resolveExisting U engine workspace path
      lift (require (inode.kind = .directory) (.notADirectory path))
      query engine fun db => require
        (∀ dirent ∈ db.dirents, dirent.parent ≠ inode.id) (.notEmpty path)
      removeLeaf U engine workspace path inode.id
  | .symlink path target => do
      lift (checked (validateSymlinkTarget target))
      let _ ← createLeaf U engine workspace path (.symlink target)
      pure ()
  | .hardlink path target => do
      let inode ← resolveFile U engine workspace target
      let (parent, name) ← resolveNewLeaf U engine workspace path
      execute engine fun db => db.insertDirent parent name inode
  | .setExecutable path executable => do
      let inode ← resolveFile U engine workspace path
      execute engine fun db =>
        .ok (db.updateInode inode (Inode.setExecutable executable))

end

variable {P : Platform}

/-- The checks of the batch come before the transaction and take no
statement. -/
def commitGeneration (engine : Engine (Failure WorkspaceError))
    (store : ObjectStore P) (name : Text) (mutations : List Mutation) :
    Statements Nat := do
  lift (checkAll checkMutation mutations)
  lift (checkAll (fun digest => require ((store.verify digest).isSome = true)
    (.missingObject digest)) (referencedDigests mutations))
  transaction engine do
    lift (checkAll (fun digest => require (store.existsObject digest = true)
      (.missingObject digest)) (referencedDigests mutations))
    let workspace ← query engine fun db => db.workspaceRow name
    forEach (applyMutation P.unicode engine workspace) mutations
    let next := workspace.headGeneration + 1
    execute engine fun db => .ok (db.setGeneration workspace.id next)
    pure next

end Statements

/-! The statements compute the functions on the tables. -/

namespace Db

theorem foldlM_insertRecord {inode : Nat} {records : List FileRecord}
    (db : Db) :
    records.foldlM (fun db record => db.insertRecord inode record) db = (do
      require (records = [] ∨ ∃ row ∈ db.inodes, row.id = inode) .db
      .ok { db with
        objectMaps := db.objectMaps ++
          records.map fun record => (inode, record) }) := by
  induction records generalizing db with
  | nil => simp [require_of]
  | cons record records ih =>
      rw [List.foldlM_cons, insertRecord]
      by_cases hrow : ∃ row ∈ db.inodes, row.id = inode
      · simp [require_of hrow, ih, require_of (Or.inr hrow)]
      · simp [require, hrow, ensure]

theorem insertRecords_eq_foldlM {db : Db} {inode : Nat}
    {records : List FileRecord} :
    db.insertRecords inode records =
      records.foldlM (fun db record => db.insertRecord inode record)
        (db.deleteRecords inode) := by
  rw [foldlM_insertRecord]
  rfl

/-- What a truncation leaves of the run, or its refusal. -/
def putTruncated (db : Db) (path : Text) (length : UInt64) (inode : Nat) :
    Option (List FileRecord) → Outcome Db
  | none => refuse (.midRecordTruncate path length)
  | some truncated => do
      checked (validateRecordRun truncated length)
      db.insertRecords inode truncated

end Db

theorem truncate_eq {U : Unicode} {db : Db} {workspace : WorkspaceRow}
    {path : Text} {length : UInt64} :
    truncate U db workspace path length = (do
      let inode ← resolveFile U db workspace path
      db.putTruncated path length inode
        (truncateRecords (db.readRecords inode) length)) := by
  rw [truncate]
  refine except_bind_congr fun inode => ?_
  cases truncateRecords (db.readRecords inode) length with
  | none => rfl
  | some truncated => rfl

namespace Statements

section

variable {U : Unicode} {engine : Engine (Failure WorkspaceError)}
  {workspace : WorkspaceRow}

/-- The session does to the tables what the function says. -/
abbrev Writes (engine : Engine (Failure WorkspaceError))
    (session : Statements Unit) (effect : Db → Outcome Db) : Prop :=
  Computes engine session fun db => (effect db).map fun db => (db, ())

theorem computes_createLeaf (path : Text) (inode : Inode) :
    Computes engine (createLeaf U engine workspace path inode) fun db =>
      TensorFS.createLeaf U db workspace path inode := by
  refine ((computes_query _).bind fun leaf => (computes_statement _).bind
    fun id => (computes_execute _).bind fun _ =>
      computes_pure id).congr fun db => ?_
  simp only [TensorFS.createLeaf, except_map_then]

theorem computes_insertRecords (inode : Nat) (records : List FileRecord) :
    Writes engine (insertRecords engine inode records) fun db =>
      db.insertRecords inode records := by
  refine ((computes_execute _).bind fun _ => computes_forEach
    (fun record => computes_execute _) records).congr fun db => ?_
  simp only [Db.insertRecords_eq_foldlM, except_map_then, except_ok_bind]

theorem computes_dropInodeIfOrphaned (inode : Nat) :
    Writes engine (dropInodeIfOrphaned engine inode) fun db =>
      db.dropInodeIfOrphaned inode := by
  refine ((computes_query _).bind fun links => Computes.ite
    ((computes_query _).bind fun leases => Computes.ite (computes_execute _)
      (computes_pure ())) (computes_pure ())).congr fun db => ?_
  simp only [except_map_then, except_ok_bind, Db.dropInodeIfOrphaned, ite_and]
  split
  · split
    · rfl
    · rfl
  · rfl

theorem computes_resolveFile (path : Text) :
    Computes engine (resolveFile U engine workspace path) fun db =>
      (TensorFS.resolveFile U db workspace path).map fun inode =>
        (db, inode) := by
  refine ((computes_query _).bind fun inode => (computes_lift _).bind fun _ =>
    computes_pure _).congr fun db => ?_
  simp only [TensorFS.resolveFile, except_map_then, except_map_bind]
  rfl

theorem computes_removeLeaf (path : Text) (inode : Nat) :
    Writes engine (removeLeaf U engine workspace path inode) fun db =>
      TensorFS.removeLeaf U db workspace path inode := by
  refine ((computes_query _).bind fun parent => (computes_execute _).bind
    fun _ => computes_dropInodeIfOrphaned inode).congr fun db => ?_
  simp only [TensorFS.removeLeaf, except_map_then, except_map_bind,
    except_ok_bind]

theorem computes_resolveExisting (path : Text) :
    Computes engine (resolveExisting U engine workspace path) fun db =>
      (TensorFS.resolveExisting U db workspace path).map fun inode =>
        (db, inode) :=
  computes_query _

theorem computes_resolveNewLeaf (path : Text) :
    Computes engine (resolveNewLeaf U engine workspace path) fun db =>
      (TensorFS.resolveNewLeaf U db workspace path).map fun leaf =>
        (db, leaf) :=
  computes_query _

theorem computes_resolveOldParent (parent : Option Text) :
    Computes engine (resolveOldParent U engine workspace parent) fun db =>
      (TensorFS.resolveOldParent U db workspace parent).map fun inode =>
        (db, inode) :=
  computes_query _

theorem computes_putTruncated (path : Text) (length : UInt64) (inode : Nat)
    (truncated : Option (List FileRecord)) :
    Writes engine (putTruncated engine path length inode truncated)
      fun db => db.putTruncated path length inode truncated := by
  cases truncated with
  | none => exact (computes_lift _).congr fun db => rfl
  | some truncated =>
      refine ((computes_lift _).bind fun _ =>
        computes_insertRecords inode truncated).congr fun db => ?_
      simp only [Db.putTruncated, except_map_then, except_map_bind]

theorem computes_truncate (path : Text) (length : UInt64) :
    Writes engine (applyMutation U engine workspace (.truncate path length))
      fun db => truncate U db workspace path length := by
  refine ((computes_resolveFile path).bind fun inode =>
    (computes_query _).bind fun records =>
      computes_putTruncated path length inode _).congr fun db => ?_
  simp only [truncate_eq, except_map_then, except_map_bind, except_ok_bind]

/-- Each mutation's statements make the change the mutation stands for. -/
theorem computes_applyMutation (mutation : Mutation) :
    Writes engine (applyMutation U engine workspace mutation) fun db =>
      TensorFS.applyMutation U db workspace mutation := by
  cases mutation with
  | mkdir path =>
      refine ((computes_createLeaf path _).bind fun _ =>
        computes_pure ()).congr fun db => ?_
      simp only [TensorFS.applyMutation, mkdir, except_map_bind, except_map_ok]
  | createFile path executable planner records =>
      refine ((computes_createLeaf path _).bind fun inode =>
        computes_insertRecords inode records).congr fun db => ?_
      simp only [TensorFS.applyMutation, createFile, except_map_bind]
  | setRecords path records =>
      refine ((computes_resolveFile path).bind fun inode =>
        computes_insertRecords inode records).congr fun db => ?_
      simp only [TensorFS.applyMutation, setRecords, except_map_then,
        except_map_bind]
  | truncate path length => exact computes_truncate path length
  | rename source target =>
      refine ((computes_resolveExisting source).bind fun inode =>
        (computes_lift _).bind fun _ =>
          (computes_resolveNewLeaf target).bind fun leaf =>
            (computes_resolveOldParent _).bind fun parent =>
              computes_execute _).congr fun db => ?_
      simp only [TensorFS.applyMutation, rename, except_map_then,
        except_map_bind]
  | unlink path =>
      refine ((computes_resolveExisting path).bind fun inode =>
        (computes_lift _).bind fun _ =>
          computes_removeLeaf path _).congr fun db => ?_
      simp only [TensorFS.applyMutation, unlink, except_map_then,
        except_map_bind]
  | rmdir path =>
      refine ((computes_resolveExisting path).bind fun inode =>
        (computes_lift _).bind fun _ => (computes_query _).bind fun _ =>
          computes_removeLeaf path _).congr fun db => ?_
      simp only [TensorFS.applyMutation, rmdir, except_map_then,
        except_map_bind]
  | symlink path target =>
      refine ((computes_lift _).bind fun _ =>
        (computes_createLeaf path _).bind fun _ =>
          computes_pure ()).congr fun db => ?_
      simp only [TensorFS.applyMutation, symlink, except_map_then,
        except_map_bind, except_map_ok]
  | hardlink path target =>
      refine ((computes_resolveFile target).bind fun inode =>
        (computes_resolveNewLeaf path).bind fun leaf =>
          computes_execute _).congr fun db => ?_
      simp only [TensorFS.applyMutation, hardlink, except_map_then,
        except_map_bind]
  | setExecutable path executable =>
      refine ((computes_resolveFile path).bind fun inode =>
        computes_execute _).congr fun db => ?_
      simp only [TensorFS.applyMutation, setExecutable, except_map_then,
        except_map_bind]

theorem foldlM_applyMutation (mutations : List Mutation) (db : Db) :
    mutations.foldlM (fun db => TensorFS.applyMutation U db workspace) db =
      applyMutations U workspace db mutations := by
  induction mutations generalizing db with
  | nil => rfl
  | cons mutation mutations ih =>
      rw [List.foldlM_cons, applyMutations]
      exact except_bind_congr ih

/-- The statements of a batch are its mutations in order. -/
theorem computes_applyMutations (mutations : List Mutation) :
    Writes engine (forEach (applyMutation U engine workspace) mutations)
      fun db => applyMutations U workspace db mutations := by
  refine (computes_forEach computes_applyMutation mutations).congr
    fun db => ?_
  rw [foldlM_applyMutation]

end

end Statements

/-! No step of a commit unwinds. -/

section

variable {U : Unicode} {db : Db} {workspace : WorkspaceRow}

theorem returns_require {p : Prop} [Decidable p] {error : WorkspaceError} :
    Returns (require p error) := returns_ensure

theorem returns_checked {α : Type} (result : Except Tfm1Error α) :
    Returns (checked result) := by
  cases result with
  | ok a => exact .ok a
  | error error => exact .refused _

theorem returns_resolvePath (path : Text) :
    Returns (resolvePath U db workspace path) := by
  unfold resolvePath
  split
  · exact .ok _
  · exact (returns_checked _).bind fun _ _ => .ok _

theorem returns_resolveExisting (path : Text) :
    Returns (resolveExisting U db workspace path) := by
  refine (returns_resolvePath path).bind fun found _ => ?_
  cases found with
  | some inode => exact .ok inode
  | none => exact .refused _

theorem returns_resolveNewLeaf (path : Text) :
    Returns (resolveNewLeaf U db workspace path) := by
  have hparent : Returns (resolveNewParent U db workspace
      (splitParent path).1) := by
    cases (splitParent path).1 with
    | none => exact .ok _
    | some parent =>
        exact (returns_resolveExisting parent).bind fun _ _ =>
          returns_require.bind fun _ _ => .ok _
  exact (returns_checked _).bind fun _ _ => hparent.bind fun _ _ =>
    returns_require.bind fun _ _ => returns_require.bind fun _ _ => .ok _

/-- The directory of a path that resolved does resolve. -/
theorem returns_resolveOldParent {path : Text} {resolved : ResolvedInode}
    (h : resolveExisting U db workspace path = .ok resolved) :
    Returns (resolveOldParent U db workspace (splitParent path).1) := by
  by_cases hne : path = []
  · subst hne
    exact .ok _
  · obtain ⟨hvalid, hresolved⟩ := resolveExisting_eq_ok.mp h
    obtain ⟨base, hbase, hcases⟩ :=
      splitParent_valid (hvalid.resolve_left hne)
    rcases hcases with ⟨hnone, _⟩ | ⟨parent, hsome, hparent, rfl⟩
    · rw [hnone]
      exact .ok _
    · rw [hbase] at hresolved
      obtain ⟨found, row, hfound, _⟩ := resolveSegments_snoc.mp hresolved
      rw [segmentsOf, if_neg hparent] at hfound
      rw [hsome, resolveOldParent, resolvePath, if_neg hparent]
      cases hchecked : checked (validatePath U parent) with
      | error failure =>
          obtain ⟨error, rfl⟩ := (returns_checked _).cases hchecked
          exact .refused error
      | ok _ =>
          simp only [except_ok_bind, hfound]
          exact .ok _

theorem returns_insertInode {workspaceId : Nat} {inode : Inode} :
    Returns (db.insertInode workspaceId inode) :=
  returns_require.bind fun _ _ => .ok _

theorem returns_insertDirent {parent child : Nat} {name : Text} :
    Returns (db.insertDirent parent name child) :=
  returns_require.bind fun _ _ => .ok _

theorem returns_insertRecords {inode : Nat} {records : List FileRecord} :
    Returns (db.insertRecords inode records) :=
  returns_require.bind fun _ _ => .ok _

theorem returns_dropInodeIfOrphaned {inode : Nat} :
    Returns (db.dropInodeIfOrphaned inode) := by
  unfold Db.dropInodeIfOrphaned
  split
  · exact returns_require.bind fun _ _ => .ok _
  · exact .ok _

theorem returns_createLeaf (path : Text) (inode : Inode) :
    Returns (createLeaf U db workspace path inode) :=
  (returns_resolveNewLeaf path).bind fun _ _ => returns_insertInode.bind
    fun _ _ => returns_insertDirent.bind fun _ _ => .ok _

theorem returns_resolveFile (path : Text) :
    Returns (resolveFile U db workspace path) :=
  (returns_resolveExisting path).bind fun _ _ =>
    returns_require.bind fun _ _ => .ok _

theorem returns_removeLeaf {path : Text} {resolved : ResolvedInode}
    (h : resolveExisting U db workspace path = .ok resolved) (inode : Nat) :
    Returns (removeLeaf U db workspace path inode) :=
  (returns_resolveOldParent h).bind fun _ _ => returns_dropInodeIfOrphaned

theorem returns_applyMutation (mutation : Mutation) :
    Returns (applyMutation U db workspace mutation) := by
  cases mutation with
  | mkdir path => exact (returns_createLeaf path _).bind fun _ _ => .ok _
  | createFile path executable planner records =>
      exact (returns_createLeaf path _).bind fun _ _ => returns_insertRecords
  | setRecords path records =>
      exact (returns_resolveFile path).bind fun _ _ => returns_insertRecords
  | truncate path length =>
      rw [applyMutation, truncate_eq]
      refine (returns_resolveFile path).bind fun inode _ => ?_
      cases truncateRecords (db.readRecords inode) length with
      | none => exact .refused _
      | some truncated =>
          exact (returns_checked _).bind fun _ _ => returns_insertRecords
  | rename source target =>
      refine (returns_resolveExisting source).bind fun inode hinode => ?_
      exact returns_require.bind fun _ _ => (returns_resolveNewLeaf _).bind
        fun _ _ => (returns_resolveOldParent hinode).bind fun _ _ =>
          returns_require.bind fun _ _ => .ok _
  | unlink path =>
      exact (returns_resolveExisting path).bind fun _ hinode =>
        returns_require.bind fun _ _ => returns_removeLeaf hinode _
  | rmdir path =>
      exact (returns_resolveExisting path).bind fun _ hinode =>
        returns_require.bind fun _ _ => returns_require.bind
          fun _ _ => returns_removeLeaf hinode _
  | symlink path target =>
      exact (returns_checked _).bind fun _ _ =>
        (returns_createLeaf path _).bind fun _ _ => .ok _
  | hardlink path target =>
      exact (returns_resolveFile target).bind fun _ _ =>
        (returns_resolveNewLeaf path).bind fun _ _ => returns_insertDirent
  | setExecutable path executable =>
      exact (returns_resolveFile path).bind fun _ _ => .ok _

theorem returns_applyMutations (mutations : List Mutation) :
    Returns (applyMutations U workspace db mutations) := by
  induction mutations generalizing db with
  | nil => exact .ok db
  | cons mutation mutations ih =>
      exact (returns_applyMutation mutation).bind fun _ _ => ih

end

/-! The whole call. -/

variable {P : Platform}

theorem returns_commitGeneration (store : ObjectStore P) (db : Db)
    (name : Text) (mutations : List Mutation) :
    Returns (commitGeneration P store db name mutations) := by
  have hcheck : ∀ mutation, Returns (checkMutation mutation) := by
    intro mutation
    unfold checkMutation
    split
    · exact (returns_checked _).bind fun _ _ => returns_checked _
    · exact .ok ()
  have hrow : Returns (db.workspaceRow name) := by
    unfold Db.workspaceRow
    split
    · exact .ok _
    · exact .refused _
  exact (returns_checkAll hcheck _).bind fun _ _ =>
    (returns_checkAll (fun _ => returns_require) _).bind fun _ _ =>
      (returns_checkAll (fun _ => returns_require) _).bind fun _ _ =>
        hrow.bind fun _ _ => (returns_applyMutations _).bind fun _ _ => .ok _

theorem Db.workspace_setGeneration {db : Db} {id generation : Nat}
    {name : Text} :
    (db.setGeneration id generation).workspace name =
      (db.workspace name).map fun row =>
        if row.id = id then { row with headGeneration := generation }
        else row := by
  have hname : ((fun row : WorkspaceRow => decide (row.name = name)) ∘
      fun row => if row.id = id then { row with headGeneration := generation }
        else row) = fun row => decide (row.name = name) := by
    funext row
    simp only [Function.comp_apply]
    split
    · rfl
    · rfl
  rw [workspace, setGeneration, findRow, updateRow, List.find?_map, hname]
  rfl

namespace Statements

/-- The engine of the metadata database, failing what it will. -/
def engine (fails : Nat → Bool) : Engine (Failure WorkspaceError) :=
  ⟨.refused .db, fails⟩

/-- What the transaction of a commit computes, and the generation it
returns. -/
def commitEffect (store : ObjectStore P) (name : Text)
    (mutations : List Mutation) (db : Db) : Outcome (Db × Nat) := do
  checkAll (fun digest => require (store.existsObject digest = true)
    (.missingObject digest)) (referencedDigests mutations)
  let workspace ← db.workspaceRow name
  let db ← applyMutations P.unicode workspace db mutations
  let next := workspace.headGeneration + 1
  .ok (db.setGeneration workspace.id next, next)

theorem commitEffect_fst {store : ObjectStore P} {name : Text}
    {mutations : List Mutation} {db : Db} :
    (commitEffect store name mutations db).map Prod.fst =
      commitTransaction P store db name mutations := by
  simp only [commitEffect, commitTransaction, except_map_bind, except_map_ok]

theorem computes_commit (fails : Nat → Bool) (store : ObjectStore P)
    (name : Text) (mutations : List Mutation) :
    Computes (engine fails) (do
      lift (checkAll (fun digest =>
        require (store.existsObject digest = true) (.missingObject digest))
        (referencedDigests mutations))
      let workspace ← query (engine fails) fun db => db.workspaceRow name
      forEach (applyMutation P.unicode (engine fails) workspace) mutations
      let next := workspace.headGeneration + 1
      execute (engine fails) fun db =>
        .ok (db.setGeneration workspace.id next)
      pure next) (commitEffect store name mutations) := by
  refine ((computes_lift _).bind fun _ => (computes_query _).bind
    fun workspace => (computes_applyMutations mutations).bind fun _ =>
      (computes_execute _).bind fun _ => computes_pure _).congr fun db => ?_
  simp only [commitEffect, except_map_then, except_map_ok, except_ok_bind]

theorem commitEffect_eq_ok {store : ObjectStore P} {name : Text}
    {mutations : List Mutation} {db db' : Db} {generation : Nat}
    (h : commitEffect store name mutations db = .ok (db', generation)) :
    ∃ workspace middle, db.workspace name = some workspace ∧
      generation = workspace.headGeneration + 1 ∧
      applyMutations P.unicode workspace db mutations = .ok middle ∧
      db' = middle.setGeneration workspace.id generation := by
  simp only [commitEffect, except_bind_eq_ok, exists_unit,
    workspaceRow_eq_ok, Except.ok.injEq, Prod.mk.injEq] at h
  obtain ⟨_, workspace, hrow, middle, happlied, rfl, rfl⟩ := h
  exact ⟨workspace, middle, hrow, rfl, happlied, rfl⟩

end Statements

/-- Whatever statements the engine fails, a commit returns the next generation
with the batch applied in order, or an error with every table as it was. -/
theorem commit_all_or_nothing (fails : Nat → Bool) (store : ObjectStore P)
    (db : Db) (name : Text) (mutations : List Mutation) :
    ∃ after, after.image = none ∧
      ((∃ generation workspace middle,
        (Statements.commitGeneration (Statements.engine fails) store name
          mutations).run (.idle db) = (.ok generation, after) ∧
        db.workspace name = some workspace ∧
        generation = workspace.headGeneration + 1 ∧
        applyMutations P.unicode workspace db mutations = .ok middle ∧
        after.tables = middle.setGeneration workspace.id generation ∧
        after.tables.workspace name =
          some { workspace with headGeneration := generation } ∧
        commitGeneration P store db name mutations = .ok after.tables) ∨
      ∃ error,
        (Statements.commitGeneration (Statements.engine fails) store name
          mutations).run (.idle db) = (.error (.refused error), after) ∧
        after.tables = db ∧
        ((error = .db ∧ ∃ n, fails n = true) ∨
          commitGeneration P store db name mutations =
            .error (.refused error))) := by
  have hreturns := returns_commitGeneration store db name mutations
  have hrefused : ∀ failure, commitGeneration P store db name mutations =
      .error failure → ∃ error, failure = .refused error :=
    fun failure hfailed => hreturns.cases hfailed
  simp only [commitGeneration, ← Statements.commitEffect_fst] at hrefused ⊢
  rw [Statements.commitGeneration, run_bind, run_lift]
  cases hshape : checkAll checkMutation mutations with
  | error failure =>
      obtain ⟨error, rfl⟩ := hrefused failure (by rw [hshape]; rfl)
      exact ⟨.idle db, rfl, .inr ⟨error, rfl, rfl, .inr rfl⟩⟩
  | ok _ =>
      simp only [run_bind, run_lift, except_ok_bind]
      rw [hshape] at hrefused
      cases hverify : checkAll (fun digest =>
          require ((store.verify digest).isSome = true)
            (.missingObject digest)) (referencedDigests mutations) with
      | error failure =>
          obtain ⟨error, rfl⟩ := hrefused failure (by rw [hverify]; rfl)
          exact ⟨.idle db, rfl, .inr ⟨error, rfl, rfl, .inr rfl⟩⟩
      | ok _ =>
          rw [hverify] at hrefused
          simp only [except_ok_bind] at hrefused ⊢
          obtain ⟨hclosed, hended⟩ := (Statements.computes_commit fails store
            name mutations).transaction (.idle db) rfl
          generalize (Session.transaction (Statements.engine fails) _).run
            (Connection.idle db) = ended at hclosed hended ⊢
          obtain ⟨result, after⟩ := ended
          refine ⟨after, hclosed, ?_⟩
          cases result with
          | ok generation =>
              obtain ⟨workspace, middle, hrow, hnext, happlied, htables⟩ :=
                Statements.commitEffect_eq_ok hended
              refine .inl ⟨generation, workspace, middle, rfl, hrow, hnext,
                happlied, htables, ?_, congrArg (Except.map Prod.fst) hended⟩
              have hsame := (applyMutations_roots happlied).1.workspaces
              rw [htables, Db.workspace_setGeneration, Db.workspace, hsame,
                ← Db.workspace, hrow]
              simp
          | error failure =>
              obtain ⟨htables, hfault | herror⟩ := hended
              · exact .inr ⟨.db, by rw [hfault.1]; rfl, htables,
                  .inl ⟨rfl, hfault.2⟩⟩
              · have hcommit := congrArg (Except.map Prod.fst) herror
                obtain ⟨error, rfl⟩ := hrefused failure hcommit
                exact .inr ⟨error, rfl, htables, .inr hcommit⟩

end TensorFS
