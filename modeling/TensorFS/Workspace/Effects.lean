import TensorFS.Workspace.World

namespace TensorFS

open Data

/-! What the statements and the mutations do to the tables. -/

namespace Db

variable {db db' : Db}

/-- The tables a tree mutation leaves alone. -/
structure SameRoots (db db' : Db) : Prop where
  workspaces : db'.workspaces = db.workspaces
  snapshots : db'.snapshots = db.snapshots
  leases : db'.leases = db.leases
  leaseObjects : db'.leaseObjects = db.leaseObjects
  epoch : db'.epoch = db.epoch
  quarantine : db'.quarantine = db.quarantine

theorem SameRoots.refl (db : Db) : SameRoots db db :=
  ⟨rfl, rfl, rfl, rfl, rfl, rfl⟩

theorem SameRoots.trans {db'' : Db} (h : SameRoots db db')
    (h' : SameRoots db' db'') : SameRoots db db'' :=
  ⟨h'.workspaces.trans h.workspaces, h'.snapshots.trans h.snapshots,
    h'.leases.trans h.leases, h'.leaseObjects.trans h.leaseObjects,
    h'.epoch.trans h.epoch, h'.quarantine.trans h.quarantine⟩

theorem insertInode_eq_ok {workspaceId id : Nat} {inode : Inode} :
    db.insertInode workspaceId inode = .ok (db', id) ↔
      (∃ row ∈ db.workspaces, row.id = workspaceId) ∧
        id = nextId (db.inodes.map InodeRow.id) ∧
        db' = { db with inodes := db.inodes ++ [⟨id, workspaceId, inode⟩] } := by
  simp only [insertInode, except_bind_eq_ok, require_eq_ok, exists_unit,
    Except.ok.injEq, Prod.mk.injEq]
  constructor
  · rintro ⟨hrow, rfl, rfl⟩
    exact ⟨hrow, rfl, rfl⟩
  · rintro ⟨hrow, rfl, rfl⟩
    exact ⟨hrow, rfl, rfl⟩

theorem insertDirent_eq_ok {parent child : Nat} {name : Text} :
    db.insertDirent parent name child = .ok db' ↔
      ((∃ row ∈ db.inodes, row.id = parent) ∧
        (∃ row ∈ db.inodes, row.id = child) ∧
        ∀ dirent ∈ db.dirents, dirent.key ≠ (parent, name)) ∧
        db' = { db with dirents := db.dirents ++ [⟨parent, name, child⟩] } := by
  simp only [insertDirent, except_bind_eq_ok, require_eq_ok, exists_unit,
    Except.ok.injEq]
  rw [@eq_comm _ db']

theorem updateDirent_eq_ok {parent newParent : Nat} {name newName : Text} :
    db.updateDirent parent name newParent newName = .ok db' ↔
      ((∃ dirent ∈ db.dirents, dirent.key = (parent, name)) →
        (∃ row ∈ db.inodes, row.id = newParent) ∧
        ∀ dirent ∈ db.dirents, dirent.key ≠ (newParent, newName)) ∧
        db' = { db with
          dirents := updateRow Dirent.key (parent, name)
            (fun dirent => ⟨newParent, newName, dirent.child⟩) db.dirents } := by
  simp only [updateDirent, except_bind_eq_ok, require_eq_ok, exists_unit,
    Except.ok.injEq]
  rw [@eq_comm _ db']

theorem deleteInode_eq_ok {id : Nat} :
    db.deleteInode id = .ok db' ↔
      ((∀ dirent ∈ db.dirents.filter fun dirent => dirent.parent ≠ id,
        dirent.child ≠ id) ∧ ∀ lease ∈ db.leases, lease.inode ≠ some id) ∧
        db' = { db with
          inodes := db.inodes.filter fun row => row.id ≠ id
          dirents := db.dirents.filter fun dirent => dirent.parent ≠ id
          objectMaps := db.objectMaps.filter fun entry => entry.1 ≠ id } := by
  simp only [deleteInode, except_bind_eq_ok, require_eq_ok, exists_unit,
    Except.ok.injEq]
  rw [@eq_comm _ db']

theorem insertRecords_eq_ok {inode : Nat} {records : List FileRecord} :
    db.insertRecords inode records = .ok db' ↔
      (records = [] ∨ ∃ row ∈ db.inodes, row.id = inode) ∧
        db' = { db with
          objectMaps := (db.objectMaps.filter fun entry => entry.1 ≠ inode) ++
            records.map fun record => (inode, record) } := by
  simp only [insertRecords, except_bind_eq_ok, require_eq_ok, exists_unit,
    Except.ok.injEq]
  rw [@eq_comm _ db']

theorem linkCount_eq_zero {id : Nat} :
    db.linkCount id = 0 ↔ ∀ dirent ∈ db.dirents, dirent.child ≠ id := by
  simp [linkCount, List.filter_eq_nil_iff]

theorem leaseCount_eq_zero {id : Nat} :
    db.leaseCount id = 0 ↔ ∀ lease ∈ db.leases, lease.inode ≠ some id := by
  simp [leaseCount, List.filter_eq_nil_iff]

/-- An inode nothing holds is deleted, any other stays. -/
theorem dropInodeIfOrphaned_eq_ok {id : Nat} :
    db.dropInodeIfOrphaned id = .ok db' ↔
      ((∀ dirent ∈ db.dirents, dirent.child ≠ id) ∧
        (∀ lease ∈ db.leases, lease.inode ≠ some id) ∧
        db' = { db with
          inodes := db.inodes.filter fun row => row.id ≠ id
          dirents := db.dirents.filter fun dirent => dirent.parent ≠ id
          objectMaps := db.objectMaps.filter fun entry => entry.1 ≠ id }) ∨
      (((∃ dirent ∈ db.dirents, dirent.child = id) ∨
        ∃ lease ∈ db.leases, lease.inode = some id) ∧ db' = db) := by
  unfold dropInodeIfOrphaned
  split
  · rename_i horphan
    rw [linkCount_eq_zero, leaseCount_eq_zero] at horphan
    rw [deleteInode_eq_ok]
    constructor
    · rintro ⟨_, rfl⟩
      exact .inl ⟨horphan.1, horphan.2, rfl⟩
    · rintro (⟨_, _, rfl⟩ | ⟨⟨dirent, hdirent, hchild⟩ | ⟨lease, hlease, hinode⟩,
        _⟩)
      · exact ⟨⟨fun dirent hdirent => horphan.1 dirent
          (List.mem_filter.mp hdirent).1, horphan.2⟩, rfl⟩
      · exact absurd hchild (horphan.1 dirent hdirent)
      · exact absurd hinode (horphan.2 lease hlease)
  · rename_i hheld
    rw [linkCount_eq_zero, leaseCount_eq_zero] at hheld
    rw [Except.ok.injEq]
    constructor
    · rintro rfl
      right
      refine ⟨?_, rfl⟩
      by_contra hnone
      push Not at hnone
      exact hheld ⟨hnone.1, hnone.2⟩
    · rintro (⟨hlinks, hleases, _⟩ | ⟨_, rfl⟩)
      · exact absurd ⟨hlinks, hleases⟩ hheld
      · rfl

end Db

/-! Paths as segment lists. -/

def segmentsOf (path : Text) : List Text :=
  if path = [] then [] else splitPath path

section

variable {U : Unicode} {db db' : Db} {workspace : WorkspaceRow}
  {path name : Text} {resolved : ResolvedInode}

theorem resolvePath_eq_some :
    resolvePath U db workspace path = .ok (some resolved) ↔
      (path = [] ∨ validatePath U path = .ok ()) ∧
        resolveSegments db workspace.resolvedRoot (segmentsOf path) =
          some resolved := by
  unfold resolvePath segmentsOf
  split
  · rename_i hempty
    simp [resolveSegments, hempty]
  · rename_i hne
    simp [hne]

theorem resolveExisting_eq_ok :
    resolveExisting U db workspace path = .ok resolved ↔
      (path = [] ∨ validatePath U path = .ok ()) ∧
        resolveSegments db workspace.resolvedRoot (segmentsOf path) =
          some resolved := by
  rw [← resolvePath_eq_some, resolveExisting, except_bind_eq_ok]
  constructor
  · rintro ⟨found, hfound, hmatch⟩
    cases found with
    | none => exact absurd hmatch refuse_ne_ok
    | some found =>
        cases hmatch
        exact hfound
  · intro h
    exact ⟨some resolved, h, rfl⟩

theorem resolveSegments_append {current : ResolvedInode}
    {front back : List Text} :
    resolveSegments db current (front ++ back) =
      (resolveSegments db current front).bind
        fun middle => resolveSegments db middle back := by
  induction front generalizing current with
  | nil => rfl
  | cons segment front ih =>
      simp only [List.cons_append, resolveSegments]
      split
      · cases db.child current.id segment with
        | none => rfl
        | some row => exact ih
      · rfl

theorem resolveSegments_snoc {current : ResolvedInode} {front : List Text} :
    resolveSegments db current (front ++ [name]) = some resolved ↔
      ∃ parent row, resolveSegments db current front =
          some ⟨parent, .directory⟩ ∧ db.child parent name = some row ∧
        row.resolved = resolved := by
  rw [resolveSegments_append, Option.bind_eq_some_iff]
  constructor
  · rintro ⟨⟨parent, kind⟩, hfront, hback⟩
    simp only [resolveSegments] at hback
    split at hback
    · rename_i hkind
      subst hkind
      cases hchild : db.child parent name with
      | none => simp [hchild] at hback
      | some row =>
          rw [hchild] at hback
          exact ⟨parent, row, hfront, hchild, Option.some.inj hback⟩
    · cases hback
  · rintro ⟨parent, row, hfront, hchild, rfl⟩
    exact ⟨_, hfront, by simp [resolveSegments, hchild]⟩

theorem validatePath_segments (h : validatePath U path = .ok ()) :
    path ≠ [] ∧ ∀ segment ∈ splitPath path,
      validateSegment segment = .ok () := by
  simp only [validatePath, except_bind_eq_ok, ensure_eq_ok, exists_unit,
    checkAll_eq_ok] at h
  exact ⟨h.1.1, h.2.2.2⟩

theorem validateSegment_ne_nil {segment : Text}
    (h : validateSegment segment = .ok ()) : segment ≠ [] := by
  simp only [validateSegment, except_bind_eq_ok, ensure_eq_ok,
    exists_unit] at h
  exact h.1

theorem splitPath_split {parent : Text} (hname : '/' ∉ name) :
    splitPath (parent ++ '/' :: name) = splitPath parent ++ [name] := by
  rw [splitPath, List.splitOn_append_cons_self, List.splitOn_eq_singleton hname]
  rfl

/-- A valid path is its directory's segments and its own name. -/
theorem splitParent_valid (h : validatePath U path = .ok ()) :
    ∃ base, segmentsOf path = base ++ [(splitParent path).2] ∧
      (((splitParent path).1 = none ∧ base = []) ∨
        ∃ parent, (splitParent path).1 = some parent ∧ parent ≠ [] ∧
          segmentsOf parent = base) := by
  obtain ⟨hne, hsegments⟩ := validatePath_segments h
  rw [segmentsOf, if_neg hne]
  cases hsplit : rsplitOnce '/' path with
  | none =>
      refine ⟨[], ?_, .inl ⟨by simp [splitParent, hsplit], rfl⟩⟩
      simp only [splitParent, hsplit, List.nil_append]
      exact List.splitOn_eq_singleton (rsplitOnce_eq_none.mp hsplit)
  | some parts =>
      obtain ⟨parent, name⟩ := parts
      obtain ⟨rfl, hname⟩ := rsplitOnce_sound hsplit
      rw [splitPath_split hname] at hsegments ⊢
      have hparent : parent ≠ [] := by
        rintro rfl
        have hempty := hsegments [] (by simp [splitPath])
        exact validateSegment_ne_nil hempty rfl
      refine ⟨splitPath parent, by simp [splitParent, hsplit], .inr
        ⟨parent, by simp [splitParent, hsplit], hparent, ?_⟩⟩
      rw [segmentsOf, if_neg hparent]

/-- A free place for a new name: its directory resolved and no sibling folds
to it. -/
structure NewLeaf (U : Unicode) (db : Db) (workspace : WorkspaceRow)
    (path : Text) (base : List Text) (parent : Nat) (name : Text) : Prop where
  valid : validatePath U path = .ok ()
  segments : segmentsOf path = base ++ [name]
  directory : resolveSegments db workspace.resolvedRoot base =
    some ⟨parent, .directory⟩
  free : ∀ dirent ∈ db.dirents, dirent.key ≠ (parent, name)
  unfolded : ∀ dirent ∈ db.dirents, dirent.parent = parent →
    caseFold U dirent.name ≠ caseFold U name

theorem resolveNewLeaf_newLeaf {parent : Nat}
    (h : resolveNewLeaf U db workspace path = .ok (parent, name)) :
    ∃ base, NewLeaf U db workspace path base parent name := by
  simp only [resolveNewLeaf, except_bind_eq_ok, checked_eq_ok, require_eq_ok,
    exists_unit, Except.ok.injEq, Prod.mk.injEq] at h
  obtain ⟨hvalid, parentInode, hparent, hfree, hfold, rfl, rfl⟩ := h
  obtain ⟨base, hbase, hcases⟩ := splitParent_valid hvalid
  refine ⟨base, hvalid, hbase, ?_, findRow_eq_none.mp hfree, ?_⟩
  · rcases hcases with ⟨hnone, rfl⟩ | ⟨parentPath, hsome, hne, rfl⟩
    · rw [hnone] at hparent
      cases hparent
      rfl
    · rw [hsome] at hparent
      simp only [resolveNewParent, except_bind_eq_ok, require_eq_ok,
        exists_unit, Except.ok.injEq] at hparent
      obtain ⟨⟨id, kind⟩, hresolved, rfl, rfl⟩ := hparent
      exact (resolveExisting_eq_ok.mp hresolved).2
  · intro dirent hdirent hparent
    refine hfold dirent.name (List.mem_map.mpr ⟨dirent, ?_, rfl⟩)
    exact List.mem_filter.mpr ⟨hdirent, by simpa using hparent⟩

/-- The directory entry a resolved path ends in. -/
theorem resolve_leaf (hne : path ≠ [])
    (h : resolveExisting U db workspace path = .ok resolved) :
    ∃ base parent row, validatePath U path = .ok () ∧
      segmentsOf path = base ++ [(splitParent path).2] ∧
      resolveSegments db workspace.resolvedRoot base =
        some ⟨parent, .directory⟩ ∧
      db.child parent (splitParent path).2 = some row ∧
      row.resolved = resolved ∧
      ∀ found, resolveOldParent U db workspace (splitParent path).1 =
        .ok found → found = parent := by
  obtain ⟨hvalid, hresolved⟩ := resolveExisting_eq_ok.mp h
  replace hvalid := hvalid.resolve_left hne
  obtain ⟨base, hbase, hcases⟩ := splitParent_valid hvalid
  rw [hbase] at hresolved
  obtain ⟨parent, row, hparent, hchild, hrow⟩ :=
    resolveSegments_snoc.mp hresolved
  refine ⟨base, parent, row, hvalid, hbase, hparent, hchild, hrow, ?_⟩
  intro found hfound
  rcases hcases with ⟨hnone, rfl⟩ | ⟨parentPath, hsome, _, rfl⟩
  · rw [hnone] at hfound
    cases hfound
    cases hparent
    rfl
  · rw [hsome] at hfound
    simp only [resolveOldParent, except_bind_eq_ok] at hfound
    obtain ⟨resolvedParent, hresolvedParent, hmatch⟩ := hfound
    cases resolvedParent with
    | none => cases hmatch
    | some resolvedParent =>
        cases hmatch
        have heq := (resolvePath_eq_some.mp hresolvedParent).2
        rw [hparent] at heq
        cases heq
        rfl

end

/-! The changes a mutation can make. -/

namespace Db

def addLeaf (db : Db) (workspaceId parent : Nat) (name : Text)
    (inode : Inode) : Db :=
  { db with
    inodes := db.inodes ++
      [⟨nextId (db.inodes.map InodeRow.id), workspaceId, inode⟩]
    dirents := db.dirents ++
      [⟨parent, name, nextId (db.inodes.map InodeRow.id)⟩] }

def addDirent (db : Db) (parent : Nat) (name : Text) (child : Nat) : Db :=
  { db with dirents := db.dirents ++ [⟨parent, name, child⟩] }

def putRecords (db : Db) (inode : Nat) (records : List FileRecord) : Db :=
  { db with
    objectMaps := (db.objectMaps.filter fun entry => entry.1 ≠ inode) ++
      records.map fun record => (inode, record) }

def moveDirent (db : Db) (parent : Nat) (name : Text) (newParent : Nat)
    (newName : Text) : Db :=
  { db with
    dirents := updateRow Dirent.key (parent, name)
      (fun dirent => ⟨newParent, newName, dirent.child⟩) db.dirents }

end Db

/-- What a mutation that succeeds has found and done. -/
inductive Effect (U : Unicode) (db : Db) (workspace : WorkspaceRow) :
    Mutation → Db → Prop
  | leaf {mutation : Mutation} {path name : Text} {base : List Text}
      {parent : Nat} {inode : Inode}
      (place : NewLeaf U db workspace path base parent name)
      (owner : ∃ row ∈ db.workspaces, row.id = workspace.id)
      (held : ∃ row ∈ (db.addLeaf workspace.id parent name inode).inodes,
        row.id = parent)
      (kind : inode.kind ≠ .file)
      (target : ∀ text, inode = .symlink text →
        validateSymlinkTarget text = .ok ()) :
      Effect U db workspace mutation
        (db.addLeaf workspace.id parent name inode)
  | file {path name : Text} {base : List Text} {parent : Nat}
      {executable : Bool} {planner : PlannerId} {records : List FileRecord}
      (place : NewLeaf U db workspace path base parent name)
      (owner : ∃ row ∈ db.workspaces, row.id = workspace.id)
      (held : ∃ row ∈ (db.addLeaf workspace.id parent name
        (.file executable planner .none)).inodes, row.id = parent) :
      Effect U db workspace (.createFile path executable planner records)
        ((db.addLeaf workspace.id parent name
          (.file executable planner .none)).putRecords
            (nextId (db.inodes.map InodeRow.id)) records)
  | link {path target name : Text} {base : List Text} {parent child : Nat}
      (place : NewLeaf U db workspace path base parent name)
      (held : ∃ row ∈ db.inodes, row.id = parent)
      (found : resolveSegments db workspace.resolvedRoot (segmentsOf target) =
        some ⟨child, .file⟩) :
      Effect U db workspace (.hardlink path target)
        (db.addDirent parent name child)
  | rewrite {mutation : Mutation} {path : Text} {inode : Nat}
      {records : List FileRecord}
      (found : resolveSegments db workspace.resolvedRoot (segmentsOf path) =
        some ⟨inode, .file⟩)
      (origin : (mutation.carriesRecords = true ∧
          records = mutation.records) ∨
        ((∃ length, validateRecordRun records length = .ok ()) ∧
          ∃ length, truncateRecords (db.readRecords inode) length =
            some records)) :
      Effect U db workspace mutation (db.putRecords inode records)
  | relabel {mutation : Mutation} {path : Text} {inode : Nat}
      {executable : Bool}
      (found : resolveSegments db workspace.resolvedRoot (segmentsOf path) =
        some ⟨inode, .file⟩) :
      Effect U db workspace mutation
        (db.updateInode inode (Inode.setExecutable executable))
  | move {source target oldName newName : Text}
      {oldBase newBase : List Text} {oldParent newParent : Nat}
      {row : InodeRow}
      (old : segmentsOf source = oldBase ++ [oldName])
      (directory : resolveSegments db workspace.resolvedRoot oldBase =
        some ⟨oldParent, .directory⟩)
      (child : db.child oldParent oldName = some row)
      (place : NewLeaf U db workspace target newBase newParent newName)
      (held : ∃ row ∈ db.inodes, row.id = newParent)
      (outside : row.inode.kind = .directory →
        insideSource source target = false) :
      Effect U db workspace (.rename source target)
        (db.moveDirent oldParent oldName newParent newName)
  | moveRoot {target newName : Text} {newParent : Nat} :
      Effect U db workspace (.rename [] target)
        (db.moveDirent workspace.rootInode [] newParent newName)
  | shrink {mutation : Mutation} {path name : Text} {base : List Text}
      {parent : Nat} {row : InodeRow} {db' : Db}
      (segments : segmentsOf path = base ++ [name])
      (directory : resolveSegments db workspace.resolvedRoot base =
        some ⟨parent, .directory⟩)
      (child : db.child parent name = some row)
      (empty : row.inode.kind = .directory →
        ∀ dirent ∈ db.dirents, dirent.parent ≠ row.id)
      (dropped : (db.deleteDirent parent name).dropInodeIfOrphaned row.id =
        .ok db') :
      Effect U db workspace mutation db'
  | dropRoot {db' : Db}
      (empty : ∀ dirent ∈ db.dirents, dirent.parent ≠ workspace.rootInode)
      (dropped : (db.deleteDirent workspace.rootInode []).dropInodeIfOrphaned
        workspace.rootInode = .ok db') :
      Effect U db workspace (.rmdir []) db'

section

variable {U : Unicode} {db db' : Db} {workspace : WorkspaceRow}

theorem resolveFile_eq_ok {path : Text} {inode : Nat} :
    resolveFile U db workspace path = .ok inode ↔
      resolveExisting U db workspace path = .ok ⟨inode, .file⟩ := by
  simp only [resolveFile, except_bind_eq_ok, require_eq_ok, exists_unit,
    Except.ok.injEq]
  constructor
  · rintro ⟨⟨id, kind⟩, hfound, rfl, rfl⟩
    exact hfound
  · intro hfound
    exact ⟨_, hfound, rfl, rfl⟩

theorem createLeaf_eq_ok {path : Text} {inode : Inode} {id : Nat}
    (h : createLeaf U db workspace path inode = .ok (db', id)) :
    ∃ base parent name, NewLeaf U db workspace path base parent name ∧
      (∃ row ∈ db.workspaces, row.id = workspace.id) ∧
      (∃ row ∈ (db.addLeaf workspace.id parent name inode).inodes,
        row.id = parent) ∧
      id = nextId (db.inodes.map InodeRow.id) ∧
      db' = db.addLeaf workspace.id parent name inode := by
  simp only [createLeaf, except_bind_eq_ok, Prod.exists,
    Db.insertInode_eq_ok, Db.insertDirent_eq_ok, Except.ok.injEq,
    Prod.mk.injEq] at h
  obtain ⟨parent, name, hleaf, _, _, ⟨howner, rfl, rfl⟩, _,
    ⟨⟨hparent, _, _⟩, rfl⟩, rfl, rfl⟩ := h
  obtain ⟨base, hplace⟩ := resolveNewLeaf_newLeaf hleaf
  exact ⟨base, parent, name, hplace, howner, hparent, rfl, rfl⟩

theorem rewrite_effect {mutation : Mutation} {path : Text} {inode : Nat}
    {records : List FileRecord}
    (hfile : resolveFile U db workspace path = .ok inode)
    (horigin : (mutation.carriesRecords = true ∧
        records = mutation.records) ∨
      ((∃ length, validateRecordRun records length = .ok ()) ∧
        ∃ length, truncateRecords (db.readRecords inode) length =
          some records))
    (h : db.insertRecords inode records = .ok db') :
    Effect U db workspace mutation db' := by
  obtain ⟨_, rfl⟩ := Db.insertRecords_eq_ok.mp h
  have hfound := (resolveExisting_eq_ok.mp (resolveFile_eq_ok.mp hfile)).2
  exact .rewrite hfound horigin

theorem removeLeaf_effect {mutation : Mutation} {path : Text}
    {resolved : ResolvedInode} (hne : path ≠ [])
    (hfound : resolveExisting U db workspace path = .ok resolved)
    (hempty : resolved.kind = .directory →
      ∀ dirent ∈ db.dirents, dirent.parent ≠ resolved.id)
    (h : removeLeaf U db workspace path resolved.id = .ok db') :
    Effect U db workspace mutation db' := by
  obtain ⟨base, parent, row, _, hsegments, hdirectory, hchild, rfl, hold⟩ :=
    resolve_leaf hne hfound
  simp only [removeLeaf, except_bind_eq_ok] at h
  obtain ⟨found, hparent, hdropped⟩ := h
  rw [hold found hparent] at hdropped
  exact .shrink hsegments hdirectory hchild hempty hdropped

theorem rename_effect {source target : Text}
    (h : rename U db workspace source target = .ok db') :
    Effect U db workspace (.rename source target) db' := by
  simp only [rename, except_bind_eq_ok, require_eq_ok, exists_unit,
    Prod.exists, Db.updateDirent_eq_ok] at h
  obtain ⟨resolved, hsource, hinside, newParent, newName, hleaf, oldParent,
    hparent, hkeys, rfl⟩ := h
  by_cases hne : source = []
  · subst hne
    cases hparent
    exact .moveRoot
  · obtain ⟨base, parent, row, _, hsegments, hdirectory, hchild, rfl, hold⟩ :=
      resolve_leaf hne hsource
    cases hold oldParent hparent
    obtain ⟨newBase, hplace⟩ := resolveNewLeaf_newLeaf hleaf
    obtain ⟨dirent, hdirent, _⟩ := Option.bind_eq_some_iff.mp hchild
    obtain ⟨hmem, hkey⟩ := findRow_mem hdirent
    refine .move hsegments hdirectory hchild hplace
      (hkeys ⟨dirent, hmem, hkey⟩).1 fun hkind => ?_
    by_contra hin
    exact hinside ⟨hkind, by simpa using hin⟩

/-- Every successful mutation is one of the listed changes. -/
theorem applyMutation_effect {mutation : Mutation}
    (h : applyMutation U db workspace mutation = .ok db') :
    Effect U db workspace mutation db' := by
  cases mutation with
  | mkdir path =>
      simp only [applyMutation, mkdir, except_bind_eq_ok, Prod.exists,
        Except.ok.injEq] at h
      obtain ⟨_, id, hcreate, rfl⟩ := h
      obtain ⟨base, parent, name, hplace, howner, hheld, _, rfl⟩ :=
        createLeaf_eq_ok hcreate
      exact .leaf hplace howner hheld (by simp [Inode.kind]) (by simp)
  | createFile path executable planner records =>
      simp only [applyMutation, createFile, except_bind_eq_ok,
        Prod.exists] at h
      obtain ⟨_, id, hcreate, hinsert⟩ := h
      obtain ⟨base, parent, name, hplace, howner, hheld, rfl, rfl⟩ :=
        createLeaf_eq_ok hcreate
      obtain ⟨_, rfl⟩ := Db.insertRecords_eq_ok.mp hinsert
      exact .file hplace howner hheld
  | setRecords path records =>
      simp only [applyMutation, setRecords, except_bind_eq_ok] at h
      obtain ⟨inode, hfile, hinsert⟩ := h
      exact rewrite_effect hfile (.inl ⟨rfl, rfl⟩) hinsert
  | truncate path length =>
      simp only [applyMutation, truncate, except_bind_eq_ok] at h
      obtain ⟨inode, hfile, hcut⟩ := h
      split at hcut
      · exact absurd hcut refuse_ne_ok
      · rename_i truncated htruncated
        simp only [except_bind_eq_ok, checked_eq_ok, exists_unit] at hcut
        exact rewrite_effect hfile
          (.inr ⟨⟨length, hcut.1⟩, length, htruncated⟩) hcut.2
  | rename source target => exact rename_effect h
  | unlink path =>
      simp only [applyMutation, unlink, except_bind_eq_ok, require_eq_ok,
        exists_unit] at h
      obtain ⟨resolved, hfound, hkind, hremove⟩ := h
      refine removeLeaf_effect ?_ hfound (fun hdir => absurd hdir hkind) hremove
      rintro rfl
      cases (resolveExisting_eq_ok.mp hfound).2
      exact hkind rfl
  | rmdir path =>
      simp only [applyMutation, rmdir, except_bind_eq_ok, require_eq_ok,
        exists_unit] at h
      obtain ⟨resolved, hfound, _, hempty, hremove⟩ := h
      by_cases hne : path = []
      · subst hne
        cases (resolveExisting_eq_ok.mp hfound).2
        exact .dropRoot hempty hremove
      · exact removeLeaf_effect hne hfound (fun _ => hempty) hremove
  | symlink path target =>
      simp only [applyMutation, symlink, except_bind_eq_ok, checked_eq_ok,
        exists_unit, Prod.exists, Except.ok.injEq] at h
      obtain ⟨htarget, _, id, hcreate, rfl⟩ := h
      obtain ⟨base, parent, name, hplace, howner, hheld, _, rfl⟩ :=
        createLeaf_eq_ok hcreate
      refine .leaf hplace howner hheld (by simp [Inode.kind]) ?_
      rintro text ⟨rfl⟩
      exact htarget
  | hardlink path target =>
      simp only [applyMutation, hardlink, except_bind_eq_ok, Prod.exists,
        Db.insertDirent_eq_ok] at h
      obtain ⟨inode, hfile, parent, name, hleaf, ⟨hheld, _, _⟩, rfl⟩ := h
      obtain ⟨base, hplace⟩ := resolveNewLeaf_newLeaf hleaf
      exact .link hplace hheld
        (resolveExisting_eq_ok.mp (resolveFile_eq_ok.mp hfile)).2
  | setExecutable path executable =>
      simp only [applyMutation, setExecutable, except_bind_eq_ok,
        Except.ok.injEq] at h
      obtain ⟨inode, hfile, rfl⟩ := h
      exact .relabel (resolveExisting_eq_ok.mp (resolveFile_eq_ok.mp hfile)).2

end

end TensorFS
