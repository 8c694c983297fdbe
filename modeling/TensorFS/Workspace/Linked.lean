import TensorFS.Workspace.Lease
import TensorFS.Workspace.Roots

namespace TensorFS

open Data

/-! The foreign keys of the dirents, over whole runs. -/

/-- The inodes that the dirents refer to are there. -/
def Db.Linked (db : Db) : Prop :=
  ∀ dirent ∈ db.dirents, (∃ row ∈ db.inodes, row.id = dirent.parent) ∧
    ∃ row ∈ db.inodes, row.id = dirent.child

namespace Db.Linked

variable {U : Unicode} {db db' : Db} {workspace : WorkspaceRow}

theorem same (h : db.Linked) (hdirents : db'.dirents = db.dirents)
    (hinodes : db'.inodes.map InodeRow.id = db.inodes.map InodeRow.id) :
    db'.Linked := by
  have hrow : ∀ id, (∃ row ∈ db.inodes, row.id = id) →
      ∃ row ∈ db'.inodes, row.id = id := by
    intro id hid
    rw [← List.mem_map (f := InodeRow.id)] at hid ⊢
    rwa [hinodes]
  intro dirent hdirent
  rw [hdirents] at hdirent
  obtain ⟨hparent, hchild⟩ := h dirent hdirent
  exact ⟨hrow _ hparent, hrow _ hchild⟩

/-- More rows, and one more dirent between them. -/
theorem add (h : db.Linked) {extra : List InodeRow} {dirent : Dirent}
    (hdirents : db'.dirents = db.dirents ++ [dirent])
    (hinodes : db'.inodes = db.inodes ++ extra)
    (hparent : ∃ row ∈ db'.inodes, row.id = dirent.parent)
    (hchild : ∃ row ∈ db'.inodes, row.id = dirent.child) : db'.Linked := by
  have hrow : ∀ id, (∃ row ∈ db.inodes, row.id = id) →
      ∃ row ∈ db'.inodes, row.id = id := by
    rintro id ⟨row, hrow, hid⟩
    rw [hinodes]
    exact ⟨row, List.mem_append_left _ hrow, hid⟩
  intro other hother
  rw [hdirents] at hother
  rcases List.mem_append.mp hother with hold | hnew
  · exact ⟨hrow _ (h other hold).1, hrow _ (h other hold).2⟩
  · rw [List.mem_singleton.mp hnew]
    exact ⟨hparent, hchild⟩

theorem unlinked (h : db.Linked) (hinodes : db'.inodes = db.inodes)
    (hdirents : ∀ dirent ∈ db'.dirents, dirent ∈ db.dirents) : db'.Linked := by
  intro dirent hdirent
  rw [hinodes]
  exact h dirent (hdirents dirent hdirent)

theorem drop (h : db.Linked) {id : Nat}
    (hdrop : db.dropInodeIfOrphaned id = .ok db') : db'.Linked := by
  rcases Db.dropInodeIfOrphaned_eq_ok.mp hdrop with ⟨hchild, _, rfl⟩ | ⟨_, rfl⟩
  · intro dirent hdirent
    obtain ⟨hmem, hparent⟩ := List.mem_filter.mp hdirent
    obtain ⟨⟨parent, hparentRow, hparentId⟩, child, hchildRow, hchildId⟩ :=
      h dirent hmem
    refine ⟨⟨parent, List.mem_filter.mpr ⟨hparentRow, ?_⟩, hparentId⟩, child,
      List.mem_filter.mpr ⟨hchildRow, ?_⟩, hchildId⟩
    · rw [hparentId]
      exact hparent
    · rw [hchildId]
      simpa using hchild dirent hmem
  · exact h

theorem update (h : db.Linked) {parent newParent : Nat} {name newName : Text}
    (hupdate : db.updateDirent parent name newParent newName = .ok db') :
    db'.Linked := by
  obtain ⟨hkeys, rfl⟩ := Db.updateDirent_eq_ok.mp hupdate
  intro dirent hdirent
  rcases mem_updateRow.mp hdirent with ⟨hmem, _⟩ | ⟨old, hold, hkey, rfl⟩
  · exact h dirent hmem
  · exact ⟨(hkeys ⟨old, hold, hkey⟩).1, (h old hold).2⟩

theorem addLeaf (h : db.Linked) {workspaceId parent : Nat} {name : Text}
    {inode : Inode}
    (hparent : ∃ row ∈ (db.addLeaf workspaceId parent name inode).inodes,
      row.id = parent) : (db.addLeaf workspaceId parent name inode).Linked :=
  h.add rfl rfl hparent
    ⟨_, List.mem_append_right _ (List.mem_singleton.mpr rfl), rfl⟩

theorem relabel (h : db.Linked) (id : Nat) (inode : Inode → Inode) :
    (db.updateInode id inode).Linked :=
  h.same rfl (map_updateRow InodeRow.id fun _ => rfl)

theorem removed (h : db.Linked) {path : Text} {inode : Nat}
    (hremove : removeLeaf U db workspace path inode = .ok db') :
    db'.Linked := by
  simp only [removeLeaf, except_bind_eq_ok] at hremove
  obtain ⟨parent, _, hdrop⟩ := hremove
  have hunlinked : (db.deleteDirent parent (splitParent path).2).Linked :=
    h.unlinked rfl fun dirent hdirent => (List.mem_filter.mp hdirent).1
  exact hunlinked.drop hdrop

theorem records (h : db.Linked) {inode : Nat} {records : List FileRecord}
    (hinsert : db.insertRecords inode records = .ok db') : db'.Linked := by
  obtain ⟨_, rfl⟩ := Db.insertRecords_eq_ok.mp hinsert
  exact h.same rfl rfl

theorem leaf (h : db.Linked) {path : Text} {inode : Inode} {id : Nat}
    (hcreate : createLeaf U db workspace path inode = .ok (db', id)) :
    db'.Linked := by
  obtain ⟨_, parent, name, _, _, hheld, _, rfl⟩ := createLeaf_eq_ok hcreate
  exact h.addLeaf hheld

theorem mutation (h : db.Linked) {mutation : Mutation}
    (happly : applyMutation U db workspace mutation = .ok db') :
    db'.Linked := by
  cases mutation with
  | mkdir path =>
      simp only [applyMutation, mkdir, except_bind_eq_ok, Prod.exists,
        Except.ok.injEq] at happly
      obtain ⟨_, _, hcreate, rfl⟩ := happly
      exact h.leaf hcreate
  | createFile path executable planner records =>
      simp only [applyMutation, createFile, except_bind_eq_ok,
        Prod.exists] at happly
      obtain ⟨_, _, hcreate, hinsert⟩ := happly
      exact (h.leaf hcreate).records hinsert
  | setRecords path records =>
      simp only [applyMutation, setRecords, except_bind_eq_ok] at happly
      obtain ⟨_, _, hinsert⟩ := happly
      exact h.records hinsert
  | truncate path length =>
      simp only [applyMutation, truncate, except_bind_eq_ok] at happly
      obtain ⟨_, _, hcut⟩ := happly
      split at hcut
      · exact absurd hcut refuse_ne_ok
      · simp only [except_bind_eq_ok, exists_unit] at hcut
        exact h.records hcut.2
  | rename source target =>
      simp only [applyMutation, rename, except_bind_eq_ok,
        Prod.exists] at happly
      obtain ⟨_, _, _, _, _, _, _, _, _, hupdate⟩ := happly
      exact h.update hupdate
  | unlink path =>
      simp only [applyMutation, unlink, except_bind_eq_ok] at happly
      obtain ⟨_, _, _, _, hremove⟩ := happly
      exact h.removed hremove
  | rmdir path =>
      simp only [applyMutation, rmdir, except_bind_eq_ok] at happly
      obtain ⟨_, _, _, _, _, _, hremove⟩ := happly
      exact h.removed hremove
  | symlink path target =>
      simp only [applyMutation, symlink, except_bind_eq_ok, Prod.exists,
        Except.ok.injEq] at happly
      obtain ⟨_, _, _, _, hcreate, rfl⟩ := happly
      exact h.leaf hcreate
  | hardlink path target =>
      simp only [applyMutation, hardlink, except_bind_eq_ok,
        Prod.exists] at happly
      obtain ⟨_, _, _, _, _, hinsert⟩ := happly
      obtain ⟨⟨hparent, hchild, _⟩, rfl⟩ := Db.insertDirent_eq_ok.mp hinsert
      exact h.add rfl (List.append_nil _).symm hparent hchild
  | setExecutable path executable =>
      simp only [applyMutation, setExecutable, except_bind_eq_ok,
        Except.ok.injEq] at happly
      obtain ⟨inode, _, rfl⟩ := happly
      exact h.relabel inode _

theorem mutations (h : db.Linked) {mutations : List Mutation}
    (happly : applyMutations U workspace db mutations = .ok db') :
    db'.Linked := by
  induction mutations generalizing db with
  | nil =>
      cases happly
      exact h
  | cons mutation mutations ih =>
      simp only [applyMutations, except_bind_eq_ok] at happly
      obtain ⟨middle, hfirst, hrest⟩ := happly
      exact ih (h.mutation hfirst) hrest

theorem jobs (h : db.Linked) {jobs : List SealJob}
    (happly : applySealJobs U workspace db jobs = .ok db') : db'.Linked := by
  induction jobs generalizing db with
  | nil =>
      cases happly
      exact h
  | cons job jobs ih =>
      simp only [applySealJobs, except_bind_eq_ok] at happly
      obtain ⟨next, hfirst, hrest⟩ := happly
      obtain ⟨middle, inode, hrecords, _, rfl⟩ := applySealJob_eq_ok hfirst
      have hmiddle : middle.Linked := by
        unfold applyRecords at hrecords
        split at hrecords
        · have hset : applyMutation U db workspace
              (.setRecords job.path job.records) = .ok middle := hrecords
          exact h.mutation hset
        · cases hrecords
          exact h
      exact ih (hmiddle.relabel inode.id _) hrest

theorem created (h : db.Linked) {name : Text}
    (hcreate : createWorkspace db name = .ok db') : db'.Linked := by
  simp only [createWorkspace, except_bind_eq_ok, exists_unit, Prod.exists,
    Db.insertInode_eq_ok, Except.ok.injEq] at hcreate
  obtain ⟨_, _, _, ⟨_, _, rfl⟩, rfl⟩ := hcreate
  intro dirent hdirent
  obtain ⟨⟨parent, hparent, hparentId⟩, child, hchild, hchildId⟩ :=
    h dirent hdirent
  exact ⟨⟨parent, List.mem_append_left _ hparent, hparentId⟩, child,
    List.mem_append_left _ hchild, hchildId⟩

theorem deleted (h : db.Linked) {name : Text}
    (hdelete : deleteWorkspace db name = .ok db') : db'.Linked := by
  simp only [deleteWorkspace, except_bind_eq_ok, exists_unit, require_eq_ok,
    Except.ok.injEq] at hdelete
  obtain ⟨row, _, ⟨hchildren, _⟩, rfl⟩ := hdelete
  have hkept : ∀ id, (∃ found ∈ db.inodes, found.id = id) →
      db.inodes.any (fun found => decide (found.id = id) &&
        decide (found.workspaceId = row.id)) = false →
      ∃ found ∈ db.inodes.filter fun found => found.workspaceId ≠ row.id,
        found.id = id := by
    rintro id ⟨found, hfound, hid⟩ hown
    rw [List.any_eq_false] at hown
    refine ⟨found, List.mem_filter.mpr ⟨hfound, ?_⟩, hid⟩
    have hother := hown found hfound
    simpa [hid] using hother
  intro dirent hdirent
  obtain ⟨hmem, hparent⟩ := List.mem_filter.mp hdirent
  have hlink := h dirent hmem
  exact ⟨hkept _ hlink.1 (by simpa using hparent),
    hkept _ hlink.2 (hchildren dirent hdirent)⟩

theorem released (h : db.Linked) {lease : Nat}
    (hrelease : releaseLease db lease = .ok db') : db'.Linked := by
  unfold releaseLease at hrelease
  split at hrelease
  · cases hrelease
  · cases hrelease
    exact h
  · have hlease : (db.deleteLease lease).Linked := h
    exact hlease.drop hrelease

theorem sealed (h : db.Linked) (workspace : WorkspaceRow)
    (jobs : List SealJob) : (db.sealGeneration workspace jobs).Linked := by
  unfold Db.sealGeneration
  split
  · exact h
  · exact h.same rfl rfl

theorem rooted (h : db.Linked) (id : SnapshotId) (generation : Nat) :
    (db.insertSnapshot id generation).Linked := by
  unfold Db.insertSnapshot
  split
  · exact h
  · exact h.same rfl rfl

end Db.Linked

variable {P : Platform}

theorem settle_linked {w : World P} (h : w.db.Linked) {outcome : Outcome Db}
    (hok : ∀ db, outcome = .ok db → db.Linked) :
    (w.settle outcome).db.Linked := by
  cases outcome with
  | ok db => exact hok db rfl
  | error failure => exact h

theorem advanceCall_linked {db : Db} {store : ObjectStore P} {call : Call}
    (h : db.Linked) : (advanceCall db store call).db.Linked := by
  have hmove : TableMove store db call (advanceCall db store call).db :=
    advanceCall_move
  generalize (advanceCall db store call).db = moved at hmove ⊢
  cases hmove with
  | stays => exact h
  | committed hcommit =>
      obtain ⟨_, _, middle, _, hmutations, rfl⟩ :=
        commitTransaction_eq_ok.mp hcommit
      exact (h.mutations hmutations).same rfl rfl
  | sealed hseal =>
      obtain ⟨_, middle, _, _, hjobs, rfl⟩ := sealTransaction_eq_ok hseal
      exact ((h.jobs hjobs).sealed _ _).rooted _ _
  | rooted id => exact h.rooted id 0

namespace World

theorem step_linked {w : World P} (h : w.db.Linked) (action : Action) :
    (w.step action).db.Linked := by
  cases action with
  | createWorkspace name =>
      exact settle_linked h fun db hdb => h.created hdb
  | deleteWorkspace name =>
      exact settle_linked h fun db hdb => h.deleted hdb
  | deleteSnapshot id =>
      refine settle_linked h fun db hdb => ?_
      simp only [deleteSnapshot, except_bind_eq_ok, exists_unit,
        Except.ok.injEq] at hdb
      obtain ⟨_, rfl⟩ := hdb
      exact h.same rfl rfl
  | acquireUnlinkedLease name path holder =>
      refine settle_linked h fun db hdb => ?_
      obtain ⟨⟨found, lease⟩, hfound, rfl⟩ := except_map_eq_ok.mp hdb
      obtain ⟨_, _, _, _, _, _, rfl⟩ := acquireUnlinkedLease_eq_ok.mp hfound
      exact h.same rfl rfl
  | acquirePendingSyncLease id holder =>
      refine settle_linked h fun db hdb => ?_
      obtain ⟨⟨found, lease, snapshot⟩, hfound, rfl⟩ := except_map_eq_ok.mp hdb
      obtain ⟨_, _, rfl⟩ := acquirePendingSyncLease_eq_ok.mp hfound
      exact h.same rfl rfl
  | releaseLease lease =>
      exact settle_linked h fun db hdb => h.released hdb
  | collect =>
      simp only [step]
      split
      · rename_i hcollect
        simp only [TensorFS.collect, except_bind_eq_ok, Except.ok.injEq,
          Prod.mk.injEq] at hcollect
        obtain ⟨_, _, rfl, _⟩ := hcollect
        exact h.same rfl rfl
      · exact h
  | admitObject bytes => exact h
  | beginCommit name mutations =>
      simp only [step]
      split
      · exact h
      · exact h
  | beginSeal seams name parent => exact h
  | beginAdopt bytes =>
      simp only [step]
      split
      · exact h
      · exact h
  | advance index =>
      simp only [step]
      split
      · exact advanceCall_linked h
      · exact h

/-- No operation leaves a dirent that refers to nothing. -/
theorem run_linked {w : World P} (h : w.db.Linked) (actions : List Action) :
    (w.run actions).db.Linked := by
  unfold run
  induction actions generalizing w with
  | nil => exact h
  | cons action actions ih => exact ih (step_linked h action)

end World

end TensorFS
