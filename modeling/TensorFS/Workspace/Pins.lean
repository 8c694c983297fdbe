import TensorFS.Workspace.Arbor

namespace TensorFS

open Data

variable {P : Platform}

/-! What keeps the rows of a lease, and of the inode it pins, in the tables. -/

namespace Db

variable {db db' db'' : Db} {inode : Nat}

def HasInode (db : Db) (inode : Nat) : Prop := ∃ row ∈ db.inodes, row.id = inode

/-- The inode's row and its object map are where they were. -/
structure KeepsMap (db db' : Db) (inode : Nat) : Prop where
  row : db.HasInode inode → db'.HasInode inode
  records : db.HasInode inode → db'.readRecords inode = db.readRecords inode

theorem KeepsMap.refl (db : Db) (inode : Nat) : KeepsMap db db inode :=
  ⟨id, fun _ => rfl⟩

theorem KeepsMap.trans (h : KeepsMap db db' inode)
    (h' : KeepsMap db' db'' inode) : KeepsMap db db'' inode :=
  ⟨fun hrow => h'.row (h.row hrow),
    fun hrow => (h'.records (h.row hrow)).trans (h.records hrow)⟩

theorem KeepsMap.of_row (h : db.HasInode inode → KeepsMap db db' inode) :
    KeepsMap db db' inode :=
  ⟨fun hrow => (h hrow).row hrow, fun hrow => (h hrow).records hrow⟩

theorem KeepsMap.of_eq (hinodes : db'.inodes.map InodeRow.id =
    db.inodes.map InodeRow.id) (hmaps : db'.objectMaps = db.objectMaps) :
    KeepsMap db db' inode := by
  refine ⟨fun ⟨row, hrow, hid⟩ => ?_, fun _ => by rw [readRecords, hmaps]; rfl⟩
  have hmem : row.id ∈ db'.inodes.map InodeRow.id := by
    rw [hinodes]
    exact List.mem_map_of_mem hrow
  obtain ⟨row', hrow', hid'⟩ := List.mem_map.mp hmem
  exact ⟨row', hrow', hid'.trans hid⟩

theorem readRecords_filter (db : Db) (keep : Nat → Bool)
    (h : keep inode = true) :
    ({ db with
      objectMaps := db.objectMaps.filter fun entry => keep entry.1 } :
        Db).readRecords inode = db.readRecords inode := by
  simp only [readRecords, List.filter_filter]
  congr 1
  refine List.filter_congr fun entry _ => ?_
  by_cases hentry : entry.1 = inode
  · simp [hentry, h]
  · simp [hentry]

theorem putRecords_keeps {other : Nat} {records : List FileRecord}
    (hne : other ≠ inode) :
    KeepsMap db (db.putRecords other records) inode := by
  refine ⟨id, fun _ => ?_⟩
  have hnew : ((records.map fun record => (other, record)).filter
      fun entry => entry.1 = inode) = [] := by
    simp [List.filter_eq_nil_iff, hne]
  have hold := readRecords_filter db (fun id => decide (id ≠ other))
    (decide_eq_true hne.symm)
  simp only [readRecords, putRecords, List.filter_append, hnew,
    List.append_nil] at hold ⊢
  exact hold

theorem addLeaf_keeps {workspaceId parent : Nat} {name : Text}
    {leaf : Inode} :
    KeepsMap db (db.addLeaf workspaceId parent name leaf) inode :=
  ⟨fun ⟨row, hrow, hid⟩ => ⟨row, List.mem_append_left _ hrow, hid⟩,
    fun _ => rfl⟩

/-- An inode that a lease names is never dropped. -/
theorem dropInodeIfOrphaned_keeps {other : Nat}
    (hheld : ∃ lease ∈ db.leases, lease.inode = some inode)
    (h : db.dropInodeIfOrphaned other = .ok db') :
    KeepsMap db db' inode := by
  rcases dropInodeIfOrphaned_eq_ok.mp h with ⟨_, hleases, rfl⟩ | ⟨_, rfl⟩
  · have hne : inode ≠ other := by
      rintro rfl
      obtain ⟨lease, hlease, hinode⟩ := hheld
      exact hleases lease hlease hinode
    refine ⟨fun ⟨row, hrow, hid⟩ => ⟨row, ?_, hid⟩, fun _ => ?_⟩
    · exact List.mem_filter.mpr ⟨hrow, by simpa [hid] using hne⟩
    · exact readRecords_filter _ (fun id => decide (id ≠ other))
        (decide_eq_true hne)
  · exact .refl _ inode

end Db

/-! Which mutations and seal jobs rewrite a file. -/

section

variable (U : Unicode) (workspace : WorkspaceRow) (inode : Nat)

def Mutation.Rewrites (db : Db) : Mutation → Prop
  | .setRecords path _ => resolveFile U db workspace path = .ok inode
  | .truncate path _ => resolveFile U db workspace path = .ok inode
  | _ => False

def SealJob.Rewrites (db : Db) (job : SealJob) : Prop :=
  job.updateRecords = true ∧ resolveFile U db workspace job.path = .ok inode

/-- Some mutation of a batch rewrites the file, where the ones before it have
left the tree. -/
def BatchRewrites : Db → List Mutation → Prop
  | _, [] => False
  | db, mutation :: mutations =>
      mutation.Rewrites U workspace inode db ∨
        ∃ db', applyMutation U db workspace mutation = .ok db' ∧
          BatchRewrites db' mutations

def JobsRewrite : Db → List SealJob → Prop
  | _, [] => False
  | db, job :: jobs =>
      job.Rewrites U workspace inode db ∨
        ∃ db', applySealJob U db workspace job = .ok db' ∧
          JobsRewrite db' jobs

end

section

variable {U : Unicode} {workspace : WorkspaceRow} {inode : Nat} {db db' : Db}

theorem setRecords_keeps {path : Text} {records : List FileRecord}
    (hspared : ¬ resolveFile U db workspace path = .ok inode)
    (h : setRecords U db workspace path records = .ok db') :
    db.KeepsMap db' inode := by
  simp only [setRecords, except_bind_eq_ok, Db.insertRecords_eq_ok] at h
  obtain ⟨other, hother, _, rfl⟩ := h
  exact Db.putRecords_keeps fun heq => hspared (heq ▸ hother)

theorem removeLeaf_keeps {path : Text} {other : Nat}
    (hheld : ∃ lease ∈ db.leases, lease.inode = some inode)
    (h : removeLeaf U db workspace path other = .ok db') :
    db.KeepsMap db' inode := by
  simp only [removeLeaf, except_bind_eq_ok] at h
  obtain ⟨parent, _, hdropped⟩ := h
  have hdeleted : db.KeepsMap (db.deleteDirent parent (splitParent path).2)
      inode := .of_eq rfl rfl
  exact hdeleted.trans (Db.dropInodeIfOrphaned_keeps hheld hdropped)

theorem applyMutation_keeps {mutation : Mutation}
    (hheld : ∃ lease ∈ db.leases, lease.inode = some inode)
    (hspared : ¬ mutation.Rewrites U workspace inode db)
    (h : applyMutation U db workspace mutation = .ok db') :
    db.KeepsMap db' inode := by
  cases mutation with
  | mkdir path =>
      simp only [applyMutation, mkdir, except_bind_eq_ok, Prod.exists,
        Except.ok.injEq] at h
      obtain ⟨_, id, hcreate, rfl⟩ := h
      obtain ⟨_, _, _, _, _, _, _, rfl⟩ := createLeaf_eq_ok hcreate
      exact Db.addLeaf_keeps
  | createFile path executable planner records =>
      simp only [applyMutation, createFile, except_bind_eq_ok,
        Prod.exists] at h
      obtain ⟨_, id, hcreate, hinsert⟩ := h
      obtain ⟨_, _, _, _, _, _, rfl, rfl⟩ := createLeaf_eq_ok hcreate
      obtain ⟨_, rfl⟩ := Db.insertRecords_eq_ok.mp hinsert
      refine .of_row fun hexists => ?_
      obtain ⟨row, hrow, hid⟩ := hexists
      have hfresh := nextId_ne (List.mem_map_of_mem (f := InodeRow.id) hrow)
      rw [hid] at hfresh
      exact Db.addLeaf_keeps.trans (Db.putRecords_keeps hfresh.symm)
  | setRecords path records => exact setRecords_keeps hspared h
  | truncate path length =>
      simp only [applyMutation, truncate, except_bind_eq_ok] at h
      obtain ⟨other, hother, hcut⟩ := h
      split at hcut
      · exact absurd hcut refuse_ne_ok
      · simp only [except_bind_eq_ok, Db.insertRecords_eq_ok] at hcut
        obtain ⟨_, _, _, rfl⟩ := hcut
        exact Db.putRecords_keeps fun heq => hspared (heq ▸ hother)
  | rename source target =>
      simp only [applyMutation, rename, except_bind_eq_ok,
        Prod.exists, Db.updateDirent_eq_ok] at h
      obtain ⟨_, _, _, _, _, _, _, _, _, _, rfl⟩ := h
      exact .of_eq rfl rfl
  | unlink path =>
      simp only [applyMutation, unlink, except_bind_eq_ok] at h
      obtain ⟨_, _, _, _, hremove⟩ := h
      exact removeLeaf_keeps hheld hremove
  | rmdir path =>
      simp only [applyMutation, rmdir, except_bind_eq_ok] at h
      obtain ⟨_, _, _, _, _, _, hremove⟩ := h
      exact removeLeaf_keeps hheld hremove
  | symlink path target =>
      simp only [applyMutation, symlink, except_bind_eq_ok, Prod.exists,
        Except.ok.injEq] at h
      obtain ⟨_, _, _, id, hcreate, rfl⟩ := h
      obtain ⟨_, _, _, _, _, _, _, rfl⟩ := createLeaf_eq_ok hcreate
      exact Db.addLeaf_keeps
  | hardlink path target =>
      simp only [applyMutation, hardlink, except_bind_eq_ok, Prod.exists,
        Db.insertDirent_eq_ok] at h
      obtain ⟨_, _, _, _, _, _, rfl⟩ := h
      exact .of_eq rfl rfl
  | setExecutable path executable =>
      simp only [applyMutation, setExecutable, except_bind_eq_ok,
        Except.ok.injEq] at h
      obtain ⟨other, _, rfl⟩ := h
      exact .of_eq (map_updateRow _ fun _ => rfl) rfl

theorem applyMutations_keeps {mutations : List Mutation}
    (hheld : ∃ lease ∈ db.leases, lease.inode = some inode)
    (hspared : ¬ BatchRewrites U workspace inode db mutations)
    (h : applyMutations U workspace db mutations = .ok db') :
    db.KeepsMap db' inode := by
  induction mutations generalizing db with
  | nil =>
      cases h
      exact .refl _ inode
  | cons mutation mutations ih =>
      simp only [applyMutations, except_bind_eq_ok] at h
      obtain ⟨middle, hfirst, hrest⟩ := h
      rw [BatchRewrites, not_or] at hspared
      have hleases := (applyMutation_effect hfirst).sameRoots.leases
      refine (applyMutation_keeps hheld hspared.1 hfirst).trans (ih ?_ ?_ hrest)
      · rwa [hleases]
      · exact fun hrewrites => hspared.2 ⟨middle, hfirst, hrewrites⟩

theorem applySealJobs_keeps {jobs : List SealJob}
    (hspared : ¬ JobsRewrite U workspace inode db jobs)
    (h : applySealJobs U workspace db jobs = .ok db') :
    db.KeepsMap db' inode := by
  induction jobs generalizing db with
  | nil =>
      cases h
      exact .refl _ inode
  | cons job jobs ih =>
      simp only [applySealJobs, except_bind_eq_ok] at h
      obtain ⟨next, hfirst, hrest⟩ := h
      rw [JobsRewrite, not_or] at hspared
      obtain ⟨middle, found, hrecords, _, rfl⟩ := applySealJob_eq_ok hfirst
      have hmiddle : db.KeepsMap middle inode := by
        unfold applyRecords at hrecords
        split at hrecords
        · rename_i hupdate
          exact setRecords_keeps (fun hfound => hspared.1 ⟨hupdate, hfound⟩)
            hrecords
        · cases hrecords
          exact .refl _ inode
      have hlabelled : middle.KeepsMap (middle.updateInode found.id
          (Inode.relabel job.planner job.contract)) inode :=
        .of_eq (map_updateRow _ fun _ => rfl) rfl
      exact (hmiddle.trans hlabelled).trans
        (ih (fun hrewrites => hspared.2 ⟨_, hfirst, hrewrites⟩) hrest)

end

/-! The rows of one lease. -/

/-- A lease in the tables, with what it pins: the digests listed under it and
the records of the inode it names. -/
structure Db.Pins (db : Db) (lease : LeaseRow) (digests : List ObjectDigest)
    (records : List FileRecord) : Prop where
  row : lease ∈ db.leases
  placed : lease.inode = none → lease.workspaceId = none
  alone : ∀ other ∈ db.leases, other.id = lease.id → other = lease
  listed : ∀ digest ∈ digests, (lease.id, digest) ∈ db.leaseObjects
  held : ∀ inode ∈ lease.inode, db.HasInode inode
  records : ∀ inode ∈ lease.inode, db.readRecords inode = records

namespace Db.Pins

variable {db db' : Db} {lease : LeaseRow} {digests : List ObjectDigest}
  {records : List FileRecord}

theorem mono (h : db.Pins lease digests records)
    (hrow : lease ∈ db'.leases)
    (halone : ∀ other ∈ db'.leases, other.id = lease.id → other ∈ db.leases)
    (hlisted : ∀ digest, (lease.id, digest) ∈ db.leaseObjects →
      (lease.id, digest) ∈ db'.leaseObjects)
    (hkeeps : ∀ inode ∈ lease.inode, db.KeepsMap db' inode) :
    db'.Pins lease digests records where
  row := hrow
  placed := h.placed
  alone other hother hid := h.alone other (halone other hother hid) hid
  listed digest hdigest := hlisted digest (h.listed digest hdigest)
  held inode hinode := (hkeeps inode hinode).row (h.held inode hinode)
  records inode hinode :=
    ((hkeeps inode hinode).records (h.held inode hinode)).trans
      (h.records inode hinode)

theorem same (h : db.Pins lease digests records)
    (hleases : db'.leases = db.leases)
    (hobjects : db'.leaseObjects = db.leaseObjects)
    (hkeeps : ∀ inode ∈ lease.inode, db.KeepsMap db' inode) :
    db'.Pins lease digests records :=
  h.mono (by rw [hleases]; exact h.row) (fun _ hother _ => by rwa [← hleases])
    (fun _ hdigest => by rwa [hobjects]) hkeeps

/-- A lease granted later has an id of its own. -/
theorem granted (h : db.Pins lease digests records) {other : LeaseRow}
    (hleases : db'.leases = db.leases ++ [other])
    (hid : other.id = nextId (db.leases.map LeaseRow.id))
    (hlisted : ∀ digest, (lease.id, digest) ∈ db.leaseObjects →
      (lease.id, digest) ∈ db'.leaseObjects)
    (hkeeps : ∀ inode ∈ lease.inode, db.KeepsMap db' inode) :
    db'.Pins lease digests records := by
  refine h.mono (by simp [hleases, h.row]) (fun found hfound hsame => ?_)
    hlisted hkeeps
  rw [hleases, List.mem_append, List.mem_singleton] at hfound
  refine hfound.resolve_right fun hnew => ?_
  have hlt := nextId_ne (List.mem_map_of_mem (f := LeaseRow.id) h.row)
  rw [hnew, hid] at hsame
  exact hlt hsame.symm

theorem leased (h : db.Pins lease digests records) {inode : Nat}
    (hinode : inode ∈ lease.inode) :
    ∃ lease ∈ db.leases, lease.inode = some inode :=
  ⟨lease, h.row, hinode⟩

/-- A pinned object is a root. -/
theorem rooted (h : db.Pins lease digests records) {store : ObjectStore P}
    {marks : Mark} (hmarks : mark store db = .ok marks)
    {digest : ObjectDigest}
    (hdigest : digest ∈ digests ∨
      lease.inode.isSome = true ∧ digest ∈ dataDigests records) :
    marks.isRooted digest = true := by
  obtain ⟨_, rfl⟩ := mark_eq_ok.mp hmarks
  rw [Mark.isRooted, decide_eq_true_eq, Mark.reached, List.mem_append,
    List.mem_append]
  refine .inl ?_
  rcases hdigest with hlisted | ⟨hinode, hrecord⟩
  · exact .inr (List.mem_map.mpr ⟨_, h.listed digest hlisted, rfl⟩)
  · left
    obtain ⟨inode, hinode⟩ := Option.isSome_iff_exists.mp hinode
    rw [← h.records inode hinode] at hrecord
    obtain ⟨length, hrecord⟩ := mem_dataDigests.mp hrecord
    exact mem_dataDigests.mpr ⟨length, List.mem_map.mpr
      ⟨_, Db.mem_readRecords.mp hrecord, rfl⟩⟩

theorem created (h : db.Pins lease digests records) {name : Text}
    (hcreated : createWorkspace db name = .ok db') :
    db'.Pins lease digests records := by
  simp only [createWorkspace, except_bind_eq_ok, require_eq_ok, exists_unit,
    Prod.exists, Db.insertInode_eq_ok, Except.ok.injEq] at hcreated
  obtain ⟨_, _, _, ⟨_, _, rfl⟩, rfl⟩ := hcreated
  refine h.same rfl rfl fun inode _ => ⟨fun hexists => ?_, fun _ => rfl⟩
  obtain ⟨row, hrow, hid⟩ := hexists
  exact ⟨row, List.mem_append_left _ hrow, hid⟩

/-- A workspace goes without the lease's rows: were the leased inode one of
its own, the lease would refuse the deletion. -/
theorem deleted (h : db.Pins lease digests records) {name : Text}
    (hown : ∀ workspace, db.workspace name = some workspace →
      lease.workspaceId = some workspace.id →
        ∀ inode ∈ lease.inode, db.Owns workspace.id inode)
    (hdeleted : deleteWorkspace db name = .ok db') :
    db'.Pins lease digests records := by
  simp only [deleteWorkspace, except_bind_eq_ok, require_eq_ok, exists_unit,
    workspaceRow_eq_ok, Except.ok.injEq] at hdeleted
  obtain ⟨workspace, hworkspace, ⟨_, hleases⟩, rfl⟩ := hdeleted
  have hfree : ∀ inode ∈ lease.inode, ¬ db.Owns workspace.id inode := by
    rintro inode hinode ⟨row, hrow, hid, howner⟩
    have hfalse := List.any_eq_false.mp (hleases lease h.row inode hinode)
    exact hfalse row hrow (by simp [hid, howner])
  have hother : lease.workspaceId ≠ some workspace.id := by
    intro hsame
    cases hinode : lease.inode with
    | none => simp [h.placed hinode] at hsame
    | some inode =>
        exact hfree inode hinode (hown workspace hworkspace hsame inode hinode)
  refine h.mono (List.mem_filter.mpr ⟨h.row, by simpa using hother⟩)
    (fun _ hother _ => (List.mem_filter.mp hother).1)
    (fun digest hdigest => ?_) fun inode hinode => ?_
  · refine List.mem_filter.mpr ⟨hdigest, ?_⟩
    simp only [Bool.not_eq_true', List.any_eq_false, Bool.and_eq_true,
      decide_eq_true_eq, not_and]
    intro other hmem hid
    rw [h.alone other hmem hid]
    exact hother
  · refine ⟨fun hexists => ?_, fun _ => ?_⟩
    · obtain ⟨row, hmem, hid⟩ := hexists
      refine ⟨row, List.mem_filter.mpr ⟨hmem, ?_⟩, hid⟩
      rw [decide_eq_true_eq]
      exact fun howner => hfree inode hinode ⟨row, hmem, hid, howner⟩
    · exact Db.readRecords_filter _ (fun id => !db.inodes.any fun row =>
        row.id = id && row.workspaceId = workspace.id)
        (by rw [hleases lease h.row inode hinode]; rfl)

theorem acquiredUnlinked (h : db.Pins lease digests records) {U : Unicode}
    {name path holder : Text} {granted : Nat}
    (hacquired : acquireUnlinkedLease U db name path holder =
      .ok (db', granted)) : db'.Pins lease digests records := by
  obtain ⟨_, _, _, _, _, hgranted, rfl⟩ :=
    acquireUnlinkedLease_eq_ok.mp hacquired
  exact h.granted rfl hgranted (fun _ hdigest => hdigest) fun inode _ =>
    .of_eq rfl rfl

theorem acquiredPendingSync (h : db.Pins lease digests records)
    {store : ObjectStore P} {id : SnapshotId} {holder : Text}
    {granted : Nat × Snapshot}
    (hacquired : acquirePendingSyncLease store db id holder =
      .ok (db', granted)) : db'.Pins lease digests records := by
  obtain ⟨_, hgranted, rfl⟩ := acquirePendingSyncLease_eq_ok.mp hacquired
  exact h.granted rfl hgranted
    (fun _ hdigest => mem_pinObjects.mpr (.inl hdigest)) fun inode _ =>
      .of_eq rfl rfl

theorem released (h : db.Pins lease digests records) {other : Nat}
    (hne : other ≠ lease.id) (hreleased : releaseLease db other = .ok db') :
    db'.Pins lease digests records := by
  have hdeleted : (db.deleteLease other).Pins lease digests records := by
    refine h.mono ?_ (fun _ hmem _ => (List.mem_filter.mp hmem).1)
      (fun digest hdigest => ?_) fun inode _ => .of_eq rfl rfl
    · exact List.mem_filter.mpr ⟨h.row, by simpa using hne.symm⟩
    · exact List.mem_filter.mpr ⟨hdigest, by simpa using hne.symm⟩
  unfold releaseLease at hreleased
  split at hreleased
  · cases hreleased
  · cases hreleased
    exact hdeleted
  · have hsame := (Db.dropInodeIfOrphaned_within hreleased).1
    exact hdeleted.same hsame.leases hsame.leaseObjects fun inode hinode =>
      Db.dropInodeIfOrphaned_keeps (hdeleted.leased hinode) hreleased

theorem insertedSnapshot (h : db.Pins lease digests records) (id : SnapshotId)
    (generation : Nat) :
    (db.insertSnapshot id generation).Pins lease digests records := by
  unfold Db.insertSnapshot
  split
  · exact h
  · exact h.same rfl rfl fun inode _ => .of_eq rfl rfl

theorem committed (h : db.Pins lease digests records) {store : ObjectStore P}
    {name : Text} {mutations : List Mutation}
    (hspared : ∀ workspace inode, db.workspace name = some workspace →
      inode ∈ lease.inode →
      ¬ BatchRewrites P.unicode workspace inode db mutations)
    (hcommitted : commitTransaction P store db name mutations = .ok db') :
    db'.Pins lease digests records := by
  obtain ⟨_, workspace, middle, hrow, happlied, rfl⟩ :=
    commitTransaction_eq_ok.mp hcommitted
  have hsame := (applyMutations_roots happlied).1
  have hmiddle : middle.Pins lease digests records :=
    h.same hsame.leases hsame.leaseObjects fun inode hinode =>
      applyMutations_keeps (h.leased hinode)
        (hspared workspace inode hrow hinode) happlied
  exact hmiddle.same rfl rfl fun inode _ => .of_eq rfl rfl

theorem resealed (h : db.Pins lease digests records)
    {store store' : ObjectStore P} {name : Text} {parent : Option SnapshotId}
    {generation : Nat} {jobs : List SealJob} {id : SnapshotId}
    (hspared : ∀ workspace inode, db.workspace name = some workspace →
      inode ∈ lease.inode →
      ¬ JobsRewrite P.unicode workspace inode db jobs)
    (hsealed : sealTransaction store db name parent generation jobs =
      .ok (some (db', store', id))) :
    db'.Pins lease digests records := by
  obtain ⟨workspace, middle, hrow, _, hjobs, rfl⟩ :=
    sealTransaction_eq_ok hsealed
  have hsame := (applySealJobs_roots hjobs).1
  have hmiddle : middle.Pins lease digests records :=
    h.same hsame.leases hsame.leaseObjects fun inode hinode =>
      applySealJobs_keeps (hspared workspace inode hrow hinode) hjobs
  refine insertedSnapshot ?_ id _
  unfold Db.sealGeneration
  split
  · exact hmiddle
  · exact hmiddle.same rfl rfl fun inode _ => .of_eq rfl rfl

end Db.Pins

/-! A lease along a run. -/

/-- What an acquisition pins: the objects of the inode's map, or a manifest and
its closure. -/
def Acquisition.objects (store : ObjectStore P) (db : Db) :
    Acquisition → Outcome (List ObjectDigest)
  | .unlinked name path _ => do
      let workspace ← db.workspaceRow name
      let inode ← resolveExisting P.unicode db workspace path
      .ok (dataDigests (db.readRecords inode.id))
  | .pendingSync id _ => .ok (closure store id)

/-- The next step of the call installs new records for the inode. -/
def Call.Rewrites (store : ObjectStore P) (db : Db) (inode : Nat) :
    Call → Prop
  | .commit name mutations [] =>
      (∃ db', commitTransaction P store db name mutations = .ok db') ∧
        ∃ workspace, db.workspace name = some workspace ∧
          BatchRewrites P.unicode workspace inode db mutations
  | .sealing _ name parent _ (.plan generation _ [] jobs) =>
      (∃ committed, sealTransaction store db name parent generation jobs =
        .ok (some committed)) ∧
        ∃ workspace, db.workspace name = some workspace ∧
          JobsRewrite P.unicode workspace inode db jobs
  | _ => False

namespace World

/-- The step is not the lease's own release, does not rewrite the file it
names, and, where it deletes the workspace the lease was taken in, finds the
file among that workspace's own. -/
def Spares (w : World P) (lease : LeaseRow) : Action → Prop
  | .releaseLease other => other ≠ lease.id
  | .deleteWorkspace name => (∃ db, deleteWorkspace w.db name = .ok db) →
      ∀ workspace, w.db.workspace name = some workspace →
        lease.workspaceId = some workspace.id →
          ∀ inode ∈ lease.inode, w.db.Owns workspace.id inode
  | .advance index => ∀ call, w.calls[index]? = some call →
      ∀ inode ∈ lease.inode, ¬ call.Rewrites w.store w.db inode
  | _ => True

/-- Every walk of the run's worlds finds every object rooted. -/
def KeepsRooted (objects : List ObjectDigest) (w : World P)
    (actions : List Action) : Prop :=
  ∀ k ≤ actions.length, ∀ marks,
    mark (w.run (actions.take k)).store (w.run (actions.take k)).db =
      .ok marks →
    ∀ digest ∈ objects, marks.isRooted digest = true

variable {w : World P} {lease : LeaseRow} {digests : List ObjectDigest}
  {records : List FileRecord}

theorem settle_pins (h : w.db.Pins lease digests records)
    {outcome : Outcome Db}
    (hstep : ∀ db, outcome = .ok db → db.Pins lease digests records) :
    (w.settle outcome).db.Pins lease digests records := by
  cases outcome with
  | ok db => exact hstep db rfl
  | error failure => exact h

theorem advance_pins (h : w.db.Pins lease digests records) {call : Call}
    (hspared : ∀ inode ∈ lease.inode, ¬ call.Rewrites w.store w.db inode) :
    (advanceCall w.db w.store call).db.Pins lease digests records := by
  have hmove : TableMove w.store w.db call
      (advanceCall w.db w.store call).db := advanceCall_move
  generalize (advanceCall w.db w.store call).db = moved at hmove ⊢
  cases hmove with
  | stays => exact h
  | committed hcommit =>
      refine h.committed (fun workspace inode hrow hinode hrewrites => ?_)
        hcommit
      exact hspared inode hinode ⟨⟨_, hcommit⟩, workspace, hrow, hrewrites⟩
  | sealed hseal =>
      refine h.resealed (fun workspace inode hrow hinode hrewrites => ?_) hseal
      exact hspared inode hinode ⟨⟨_, hseal⟩, workspace, hrow, hrewrites⟩
  | rooted id => exact h.insertedSnapshot id 0

/-- One step that spares the lease leaves it with all it pins. -/
theorem step_pins (h : w.db.Pins lease digests records) {action : Action}
    (hspares : w.Spares lease action) :
    (w.step action).db.Pins lease digests records := by
  cases action with
  | createWorkspace name =>
      exact settle_pins h fun db hdb => h.created hdb
  | deleteWorkspace name =>
      exact settle_pins h fun db hdb => h.deleted (hspares ⟨db, hdb⟩) hdb
  | deleteSnapshot id =>
      refine settle_pins h fun db hdb => ?_
      obtain ⟨_, rfl⟩ := deleteSnapshot_eq_ok.mp hdb
      exact h.same rfl rfl fun inode _ => .of_eq rfl rfl
  | acquireUnlinkedLease name path holder =>
      refine settle_pins h fun db hdb => ?_
      obtain ⟨⟨found, granted⟩, hfound, rfl⟩ := except_map_eq_ok.mp hdb
      exact h.acquiredUnlinked hfound
  | acquirePendingSyncLease id holder =>
      refine settle_pins h fun db hdb => ?_
      obtain ⟨⟨found, granted⟩, hfound, rfl⟩ := except_map_eq_ok.mp hdb
      exact h.acquiredPendingSync hfound
  | releaseLease other =>
      exact settle_pins h fun db hdb => h.released hspares hdb
  | collect =>
      simp only [step]
      split
      · rename_i db store report hcollect
        simp only [collect, except_bind_eq_ok, Except.ok.injEq,
          Prod.mk.injEq] at hcollect
        obtain ⟨_, _, rfl, _⟩ := hcollect
        exact h.same rfl rfl fun inode _ => .of_eq rfl rfl
      · exact h
  | admitObject bytes => exact h
  | beginCommit name mutations =>
      simp only [step]
      split
      · exact h
      · exact h
  | beginSeal seams name parent => exact h
  | beginAdopt bytes =>
      simp only [step]
      split
      · exact h
      · exact h
  | advance index =>
      cases hcall : w.calls[index]? with
      | none =>
          simp only [step, hcall]
          exact h
      | some call =>
          rw [step_advance hcall]
          exact advance_pins h (hspares call hcall)

theorem run_pins (h : w.db.Pins lease digests records) {actions : List Action}
    (hspares : ∀ k action, actions[k]? = some action →
      (w.run (actions.take k)).db.Pins lease digests records →
      (w.run (actions.take k)).Spares lease action) (k : Nat) :
    (w.run (actions.take k)).db.Pins lease digests records := by
  induction k with
  | zero => exact h
  | succ k ih =>
      cases haction : actions[k]? with
      | none =>
          have hle := List.getElem?_eq_none_iff.mp haction
          rw [List.take_of_length_le (by omega)] at ih ⊢
          exact ih
      | some action =>
          have htake : actions.take (k + 1) = actions.take k ++ [action] := by
            rw [List.take_add_one, haction]
            rfl
          rw [htake, run, List.foldl_append]
          exact step_pins ih (hspares k action haction ih)

end World

/-- A granted lease pins what it was asked to. -/
theorem Acquisition.take_pins {acquisition : Acquisition}
    {store : ObjectStore P} {db db' : Db} {id : Nat} {lease : LeaseRow}
    {objects : List ObjectDigest}
    (htaken : acquisition.take store db = .ok (db', id))
    (hlease : db'.lease id = some lease)
    (hobjects : acquisition.objects store db = .ok objects) :
    ∃ digests records, db'.Pins lease digests records ∧
      ∀ digest ∈ objects, digest ∈ digests ∨
        lease.inode.isSome = true ∧ digest ∈ dataDigests records := by
  have hfresh : ∀ {row : LeaseRow}, db'.leases = db.leases ++ [row] →
      row.id = id → id = nextId (db.leases.map LeaseRow.id) →
      lease = row ∧ ∀ other ∈ db'.leases, other.id = row.id → other = row := by
    intro row hleases hid hnext
    have halone : ∀ other ∈ db'.leases, other.id = row.id → other = row := by
      intro other hother hsame
      rw [hleases, List.mem_append, List.mem_singleton] at hother
      refine hother.resolve_left fun hold => ?_
      have hne := nextId_ne (List.mem_map_of_mem (f := LeaseRow.id) hold)
      rw [hsame, hid] at hne
      exact hne hnext
    obtain ⟨hmem, hkey⟩ := findRow_mem hlease
    exact ⟨halone lease hmem (hkey.trans hid.symm), halone⟩
  cases acquisition with
  | unlinked name path holder =>
      obtain ⟨workspace, inode, hrow, hinode, hheld, hnext, rfl⟩ :=
        acquireUnlinkedLease_eq_ok.mp htaken
      obtain ⟨rfl, halone⟩ := hfresh rfl rfl hnext
      simp only [Acquisition.objects, except_bind_eq_ok, workspaceRow_eq_ok, hrow,
        Option.some.injEq, Except.ok.injEq, exists_eq_left'] at hobjects
      obtain ⟨found, hfound, rfl⟩ := hobjects
      rw [hinode, Except.ok.injEq] at hfound
      subst hfound
      refine ⟨[], db.readRecords inode.id, ⟨by simp, by simp, halone, by simp,
        ?_, ?_⟩, fun digest hdigest => .inr ⟨rfl, hdigest⟩⟩
      · rintro _ ⟨⟩
        exact hheld
      · rintro _ ⟨⟩
        rfl
  | pendingSync snapshotId holder =>
      simp only [take, except_bind_eq_ok, Prod.exists, Except.ok.injEq,
        Prod.mk.injEq] at htaken
      obtain ⟨_, _, snapshot, htaken, rfl, rfl⟩ := htaken
      obtain ⟨hread, hnext, rfl⟩ := acquirePendingSyncLease_eq_ok.mp htaken
      obtain ⟨rfl, halone⟩ := hfresh rfl rfl hnext
      simp only [Acquisition.objects, Except.ok.injEq] at hobjects
      subst hobjects
      simp only [readRootedSnapshot, except_bind_eq_ok, require_eq_ok,
        exists_unit] at hread
      refine ⟨closure store snapshotId, [], ⟨by simp, fun _ => rfl, halone, ?_,
        by simp, by simp⟩, fun digest hdigest => .inl hdigest⟩
      intro digest hdigest
      rw [closure_of_ok hread.2, manifestObjects_eq] at hdigest
      exact mem_pinObjects.mpr (.inr ⟨rfl, hdigest⟩)

/-- From its acquisition on, every object a lease pins stays rooted as long as
each step spares the lease. -/
theorem lease_pins_until_release (w : World P) (acquisition : Acquisition)
    (db : Db) (id : Nat) (lease : LeaseRow) (objects : List ObjectDigest)
    (htaken : acquisition.take w.store w.db = .ok (db, id))
    (hlease : db.lease id = some lease)
    (hobjects : acquisition.objects w.store w.db = .ok objects)
    (actions : List Action)
    (hspares : ∀ k action, actions[k]? = some action →
      (World.run { w with db := db } (actions.take k)).Spares lease action) :
    World.KeepsRooted objects { w with db := db } actions := by
  obtain ⟨digests, records, hpins, hlisted⟩ :=
    Acquisition.take_pins htaken hlease hobjects
  have hrun := World.run_pins hpins fun k action haction _ =>
    hspares k action haction
  intro k _ marks hmarks digest hdigest
  exact (hrun k).rooted hmarks (hlisted digest hdigest)

theorem Acquisition.take_forest {acquisition : Acquisition}
    {store : ObjectStore P} {db db' : Db} {id : Nat} (h : db.Forest [])
    (htaken : acquisition.take store db = .ok (db', id)) :
    db'.Forest [] := by
  cases acquisition with
  | unlinked name path holder =>
      have hstep : (World.step ⟨db, store, []⟩
          (.acquireUnlinkedLease name path holder)).db.Forest [] :=
        World.step_forest h trivial
      simp only [take] at htaken
      simpa only [World.step, World.settle, htaken, Except.map] using hstep
  | pendingSync snapshotId holder =>
      have hstep : (World.step ⟨db, store, []⟩
          (.acquirePendingSyncLease snapshotId holder)).db.Forest [] :=
        World.step_forest h trivial
      simp only [take, except_bind_eq_ok, Prod.exists, Except.ok.injEq,
        Prod.mk.injEq] at htaken
      obtain ⟨_, _, snapshot, htaken, rfl, rfl⟩ := htaken
      simpa only [World.step, World.settle, htaken, Except.map] using hstep

/-- Where the roots are kept, a deletion finds the leased file among its own
workspace's. -/
theorem World.spares_deletion {w : World P} {lease : LeaseRow}
    (hforest : w.db.Forest []) (hrow : lease ∈ w.db.leases) (name : Text) :
    w.Spares lease (.deleteWorkspace name) := by
  intro _ workspace _ hsame inode hinode
  obtain ⟨owner, howner, howns⟩ := hforest.leased lease hrow inode hinode
  rw [howner, Option.some.injEq] at hsame
  rwa [← hsame]

/-- While no root directory is taken away, deletions of workspaces take no
lease and nothing that one pins. -/
theorem lease_pins_while_roots_stay (w : World P) (hforest : w.db.Forest [])
    (acquisition : Acquisition) (db : Db) (id : Nat) (lease : LeaseRow)
    (objects : List ObjectDigest)
    (htaken : acquisition.take w.store w.db = .ok (db, id))
    (hlease : db.lease id = some lease)
    (hobjects : acquisition.objects w.store w.db = .ok objects)
    (actions : List Action)
    (hkept : ∀ k action, actions[k]? = some action →
      (World.run { w with db := db } (actions.take k)).KeepsRoots action)
    (hspares : ∀ k action, actions[k]? = some action →
      (∀ name, action ≠ .deleteWorkspace name) →
      (World.run { w with db := db } (actions.take k)).Spares lease action) :
    World.KeepsRooted objects { w with db := db } actions := by
  obtain ⟨digests, records, hpins, hlisted⟩ :=
    Acquisition.take_pins htaken hlease hobjects
  have hstart : (World.mk db w.store w.calls).db.Forest [] :=
    Acquisition.take_forest hforest htaken
  have hforests : ∀ k, (World.run { w with db := db }
      (actions.take k)).db.Forest [] := by
    intro k
    refine World.run_forest hstart fun j action haction => ?_
    rw [List.getElem?_take] at haction
    split at haction
    · rename_i hlt
      rw [List.take_take, Nat.min_eq_left hlt.le]
      exact hkept j action haction
    · cases haction
  have hrun : ∀ k, (World.run { w with db := db } (actions.take k)).db.Pins
      lease digests records := by
    refine World.run_pins hpins fun k action haction hpinned => ?_
    cases action with
    | deleteWorkspace name =>
        exact World.spares_deletion (hforests k) hpinned.row name
    | _ => exact hspares k _ haction fun name hname => by cases hname
  intro k _ marks hmarks digest hdigest
  exact (hrun k).rooted hmarks (hlisted digest hdigest)

/-! A file of one object, opened by one holder. -/

namespace OpenFile

def platform : Platform := ⟨asciiUnicode, sha256, fun _ => none⟩

def setup : List Action :=
  [.admitObject [7], .createWorkspace ['w'],
    .beginCommit ['w'] [.createFile ['f'] false .blobV1 [.data (sha256 [7]) 1]],
    .advance 0, .advance 0]

def world : World platform := World.run .empty setup

def acquisition : Acquisition := .unlinked ['w'] ['f'] ['h']

def lease : LeaseRow := ⟨1, .unlinked, ['h'], some 1, some 2⟩

def opened : World platform :=
  { world with db := { world.db with leases := [lease] } }

theorem taken :
    acquisition.take world.store world.db = .ok (opened.db, 1) ∧
      opened.db.lease 1 = some lease ∧
      acquisition.objects world.store world.db = .ok [sha256 [7]] ∧
      opened.calls.length = 0 := by
  decide +kernel

def actions : List Action :=
  [.beginCommit ['w'] [.unlink ['f']], .advance 0, .deleteWorkspace ['w'],
    .collect, .collect]

theorem unlink_calls :
    (opened.run (actions.take 1)).calls =
      [.commit ['w'] [.unlink ['f']] []] := by
  obtain ⟨-, -, -, hcalls⟩ := taken
  have hidle : opened.calls = [] := List.length_eq_zero_iff.mp hcalls
  have hbegun : opened.run (actions.take 1) =
      opened.start (.commit ['w'] [.unlink ['f']] []) := rfl
  rw [hbegun, World.start, hidle]
  rfl

theorem deletion_refused :
    (deleteWorkspace (opened.run (actions.take 2)).db ['w']).isOk = false := by
  decide +kernel

end OpenFile

/-! A file reached through the stale root of another workspace. -/

namespace StaleRoot

/-- The first workspace gives its root away, and the second one's root takes
its id. -/
def setup : List Action :=
  [.admitObject [7], .createWorkspace ['v'],
    .beginCommit ['v'] [.rmdir []], .advance 0, .createWorkspace ['w'],
    .beginCommit ['w'] [.createFile ['f'] false .blobV1 [.data (sha256 [7]) 1]],
    .advance 0, .advance 0]

def world : World OpenFile.platform := World.run .empty setup

def acquisition : Acquisition := .unlinked ['v'] ['f'] ['h']

def lease : LeaseRow := ⟨1, .unlinked, ['h'], some 1, some 2⟩

def opened : World OpenFile.platform :=
  { world with db := { world.db with leases := [lease] } }

def actions : List Action :=
  [.deleteWorkspace ['v'], .beginCommit ['w'] [.unlink ['f']], .advance 0]

end StaleRoot

/-- The lease goes with the workspace it was taken in, and the file of the
other workspace with its last name. -/
theorem stale_root_unpins :
    StaleRoot.acquisition.take StaleRoot.world.store StaleRoot.world.db =
        .ok (StaleRoot.opened.db, 1) ∧
      StaleRoot.acquisition.objects StaleRoot.world.store StaleRoot.world.db =
        .ok [sha256 [7]] ∧
      ¬ World.KeepsRooted [sha256 [7]] StaleRoot.opened StaleRoot.actions := by
  obtain ⟨htaken, hobjects, hwalk⟩ :
      StaleRoot.acquisition.take StaleRoot.world.store StaleRoot.world.db =
          .ok (StaleRoot.opened.db, 1) ∧
        StaleRoot.acquisition.objects StaleRoot.world.store
          StaleRoot.world.db = .ok [sha256 [7]] ∧
        (mark (StaleRoot.opened.run StaleRoot.actions).store
          (StaleRoot.opened.run StaleRoot.actions).db).map Mark.reached =
            .ok [] := by
    decide +kernel
  refine ⟨htaken, hobjects, fun h => ?_⟩
  obtain ⟨marks, hmarks, hreached⟩ := except_map_eq_ok.mp hwalk
  have hrooted := h 3 le_rfl marks hmarks (sha256 [7]) List.mem_cons_self
  rw [Mark.isRooted, decide_eq_true_eq, hreached] at hrooted
  cases hrooted

/-- The file is unlinked while it is open, its workspace cannot be deleted, and
two passes of the collector leave its bytes. -/
theorem lease_pins_unlinked_file :
    World.KeepsRooted [sha256 [7]] OpenFile.opened OpenFile.actions := by
  obtain ⟨htaken, hlease, hobjects, -⟩ := OpenFile.taken
  refine lease_pins_until_release OpenFile.world OpenFile.acquisition
    OpenFile.opened.db 1 OpenFile.lease [sha256 [7]] htaken hlease hobjects
    OpenFile.actions ?_
  intro k action haction
  match k with
  | 0 =>
      cases haction
      trivial
  | 1 =>
      cases haction
      intro call hcall inode _ hrewrites
      replace hcall : (OpenFile.opened.run
          (OpenFile.actions.take 1)).calls[0]? = some call := hcall
      rw [OpenFile.unlink_calls] at hcall
      cases hcall
      obtain ⟨_, workspace, _, hbatch⟩ := hrewrites
      simp [BatchRewrites, Mutation.Rewrites] at hbatch
  | 2 =>
      cases haction
      rintro ⟨db, hdeleted⟩
      replace hdeleted : deleteWorkspace
          (OpenFile.opened.run (OpenFile.actions.take 2)).db ['w'] =
            .ok db := hdeleted
      have hrefused := OpenFile.deletion_refused
      rw [hdeleted] at hrefused
      cases hrefused
  | 3 =>
      cases haction
      trivial
  | 4 =>
      cases haction
      trivial
  | k + 5 => simp [OpenFile.actions] at haction

end TensorFS
