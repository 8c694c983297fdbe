import TensorFS.Workspace.Passes
import TensorFS.Workspace.Usage

namespace TensorFS

open Data

variable {P : Platform}

/-! What a step does to the objects. -/

/-- What a step other than a collection pass can do to the store. -/
inductive StoreMove (store : ObjectStore P) : ObjectStore P → Prop
  | stays : StoreMove store store
  | put (bytes : Bytes) : StoreMove store (store.putBytes bytes)

namespace StoreMove

variable {store store' : ObjectStore P}

theorem openObject (h : StoreMove store store') {digest : ObjectDigest}
    {bytes : Bytes} (hopen : store.openObject digest = some bytes) :
    store'.openObject digest = some bytes := by
  cases h with
  | stays => exact hopen
  | put fresh => exact ObjectStore.openObject_putBytes_of hopen fresh

theorem admitted (h : StoreMove store store') :
    ∀ bytes ∈ store.admitted, bytes ∈ store'.admitted := by
  cases h with
  | stays => exact fun _ hbytes => hbytes
  | put fresh => exact fun _ hbytes => List.mem_cons_of_mem _ hbytes

end StoreMove

section

variable {db : Db} {store : ObjectStore P}

theorem sealTransaction_store {store' : ObjectStore P} {db' : Db}
    {name : Text} {parent : Option SnapshotId} {generation : Nat}
    {jobs : List SealJob} {id : SnapshotId}
    (h : sealTransaction store db name parent generation jobs =
      .ok (some (db', store', id))) : StoreMove store store' := by
  simp only [sealTransaction, except_bind_eq_ok] at h
  obtain ⟨workspace, _, h⟩ := h
  split at h
  · simp only [sealCommit, except_bind_eq_ok, Except.ok.injEq,
      Option.some.injEq] at h
    obtain ⟨_, ⟨_, _, _, _, snapshot, _, rfl⟩, h⟩ := h
    simp only [Prod.mk.injEq] at h
    obtain ⟨_, rfl, _⟩ := h
    exact .put snapshot.toBytes
  · cases h

theorem admitRegion_store {store' : ObjectStore P}
    {source : List FileRecord} {region : Region} {digest : ObjectDigest}
    (h : admitRegion store source region = .ok (store', digest)) :
    StoreMove store store' := by
  unfold admitRegion at h
  split at h
  · rename_i bytes _
    cases h
    exact .put bytes
  · exact absurd h refuse_ne_ok

theorem advanceCall_store {call : Call} :
    StoreMove store (advanceCall db store call).store := by
  cases call with
  | commit name mutations unverified =>
      cases unverified with
      | nil =>
          simp only [advanceCall, advanceCommit]
          split
          · exact .stays
          · exact .stays
      | cons digest unverified =>
          simp only [advanceCall, advanceCommit]
          split
          · exact .stays
          · exact .stays
  | sealing seams name parent retries phase =>
      cases phase with
      | capture =>
          simp only [advanceCall, advanceSeal]
          split
          · exact .stays
          · exact .stays
      | plan generation tree todo jobs =>
          cases todo with
          | nil =>
              simp only [advanceCall, advanceSeal, advanceTransaction]
              split
              · rename_i hseal
                exact sealTransaction_store hseal
              · split
                · exact .stays
                · exact .stays
              · exact .stays
          | cons entry todo =>
              simp only [advanceCall, advanceSeal]
              split
              · exact .stays
              · exact .stays
      | admitting generation tree todo jobs draft =>
          simp only [advanceCall, advanceSeal]
          split
          · exact .stays
          · exact .stays
          · split
            · rename_i hadmit
              exact admitRegion_store hadmit
            · exact .stays
  | adopt bytes snapshot unchecked stored =>
      cases unchecked with
      | nil =>
          cases stored with
          | false => exact .put bytes
          | true => exact .stays
      | cons record unchecked =>
          cases record with
          | hole length => exact .stays
          | data digest length =>
              simp only [advanceCall, advanceAdopt]
              split
              · exact .stays
              · exact .stays

end

namespace World

variable {w : World P} {action : Action}

theorem settle_store {outcome : Outcome Db} :
    (w.settle outcome).store = w.store := by
  cases outcome with
  | ok db => rfl
  | error failure => rfl

/-- Only a collection pass takes an object away. -/
theorem step_store (h : action ≠ .collect) :
    StoreMove w.store (w.step action).store := by
  cases action with
  | createWorkspace name =>
      rw [step, settle_store]
      exact .stays
  | deleteWorkspace name =>
      rw [step, settle_store]
      exact .stays
  | deleteSnapshot id =>
      rw [step, settle_store]
      exact .stays
  | acquireUnlinkedLease name path holder =>
      rw [step, settle_store]
      exact .stays
  | acquirePendingSyncLease id holder =>
      rw [step, settle_store]
      exact .stays
  | releaseLease lease =>
      rw [step, settle_store]
      exact .stays
  | collect => exact absurd rfl h
  | admitObject bytes => exact .put bytes
  | beginCommit name mutations =>
      simp only [step]
      split
      · exact .stays
      · exact .stays
  | beginSeal seams name parent => exact .stays
  | beginAdopt bytes =>
      simp only [step]
      split
      · exact .stays
      · exact .stays
  | advance index =>
      simp only [step]
      split
      · exact advanceCall_store
      · exact .stays

theorem openObject_removeObjects {store : ObjectStore P}
    {digests : List ObjectDigest} {digest : ObjectDigest} {bytes : Bytes}
    (hopen : store.openObject digest = some bytes)
    (hkept : digest ∉ digests) :
    (removeObjects store digests).openObject digest = some bytes := by
  unfold removeObjects
  induction digests generalizing store with
  | nil => exact hopen
  | cons head rest ih =>
      rw [List.mem_cons, not_or] at hkept
      refine ih ?_ hkept.2
      rw [ObjectStore.openObject_removeObject, if_neg hkept.1, hopen]

theorem admitted_removeObjects {store : ObjectStore P}
    {digests : List ObjectDigest} :
    (removeObjects store digests).admitted = store.admitted := by
  unfold removeObjects
  induction digests generalizing store with
  | nil => rfl
  | cons head rest ih => rw [List.foldl_cons, ih]; rfl

/-- The step is no pass that takes the object: unrooted, resident, and in
quarantine for two epochs. -/
def Undue (w : World P) (digest : ObjectDigest) : Action → Prop
  | .collect => ∀ marks, mark w.store w.db = .ok marks →
      ∀ row ∈ w.db.quarantine, row.1 = digest →
        marks.isDue w.store (w.db.epoch + 1) row = false
  | _ => True

theorem undue_of_rooted {digest : ObjectDigest}
    (h : ∀ marks, mark w.store w.db = .ok marks →
      marks.isRooted digest = true) : w.Undue digest action := by
  cases action with
  | collect =>
      intro marks hmarks row _ hrow
      rw [Mark.isDue, hrow, h marks hmarks]
      rfl
  | _ => trivial

theorem step_collect_failed {failure : Failure WorkspaceError}
    (h : mark w.store w.db = .error failure) : w.step .collect = w := by
  simp only [step, collect, h, except_error_bind]

theorem step_openObject {digest : ObjectDigest} {bytes : Bytes}
    (hkept : w.Undue digest action)
    (hopen : w.store.openObject digest = some bytes) :
    (w.step action).store.openObject digest = some bytes := by
  by_cases hcollect : action = .collect
  · subst hcollect
    cases hmarks : mark w.store w.db with
    | error failure =>
        rw [step_collect_failed hmarks]
        exact hopen
    | ok marks =>
        rw [step_collect hmarks]
        refine openObject_removeObjects hopen fun hmem => ?_
        obtain ⟨row, hrow, hdigest⟩ := List.mem_map.mp hmem
        obtain ⟨hrow, hdue⟩ := List.mem_filter.mp hrow
        rw [hkept marks hmarks row hrow hdigest] at hdue
        cases hdue
  · exact (step_store hcollect).openObject hopen

theorem step_existsObject {digest : ObjectDigest}
    (hkept : w.Undue digest action)
    (hexists : w.store.existsObject digest = true) :
    (w.step action).store.existsObject digest = true := by
  obtain ⟨bytes, hopen⟩ := ObjectStore.existsObject_iff.mp hexists
  exact ObjectStore.existsObject_iff.mpr ⟨bytes, step_openObject hkept hopen⟩

/-- What was hashed once stays among what was hashed. -/
theorem step_admitted {bytes : Bytes} (h : bytes ∈ w.store.admitted) :
    bytes ∈ (w.step action).store.admitted := by
  by_cases hcollect : action = .collect
  · subst hcollect
    cases hmarks : mark w.store w.db with
    | error failure =>
        rw [step_collect_failed hmarks]
        exact h
    | ok marks =>
        rw [step_collect hmarks, admitted_removeObjects]
        exact h
  · exact (step_store hcollect).admitted bytes h

end World

/-! What keeps a snapshot's row. -/

section

variable {db db' : Db}

theorem createWorkspace_snapshots {name : Text}
    (h : createWorkspace db name = .ok db') :
    db'.snapshots = db.snapshots := by
  simp only [createWorkspace, except_bind_eq_ok, require_eq_ok, exists_unit,
    Prod.exists, Db.insertInode_eq_ok, Except.ok.injEq] at h
  obtain ⟨_, _, _, ⟨_, _, rfl⟩, rfl⟩ := h
  rfl

theorem deleteWorkspace_snapshots {name : Text}
    (h : deleteWorkspace db name = .ok db') :
    db'.snapshots = db.snapshots := by
  simp only [deleteWorkspace, except_bind_eq_ok, require_eq_ok, exists_unit,
    Except.ok.injEq] at h
  obtain ⟨_, _, _, rfl⟩ := h
  rfl

theorem acquireUnlinkedLease_snapshots {U : Unicode}
    {name path holder : Text} {lease : Nat}
    (h : acquireUnlinkedLease U db name path holder = .ok (db', lease)) :
    db'.snapshots = db.snapshots := by
  simp only [acquireUnlinkedLease, except_bind_eq_ok, require_eq_ok,
    exists_unit, Except.ok.injEq, Prod.mk.injEq] at h
  obtain ⟨_, _, _, _, _, rfl, _⟩ := h
  rfl

theorem acquirePendingSyncLease_snapshots {store : ObjectStore P}
    {id : SnapshotId} {holder : Text} {granted : Nat × Snapshot}
    (h : acquirePendingSyncLease store db id holder = .ok (db', granted)) :
    db'.snapshots = db.snapshots := by
  simp only [acquirePendingSyncLease, except_bind_eq_ok, Except.ok.injEq,
    Prod.mk.injEq] at h
  obtain ⟨_, _, rfl, _⟩ := h
  rfl

theorem releaseLease_snapshots {lease : Nat}
    (h : releaseLease db lease = .ok db') :
    db'.snapshots = db.snapshots := by
  unfold releaseLease at h
  split at h
  · cases h
  · cases h
    rfl
  · have hdropped := (Db.dropInodeIfOrphaned_within h).1.snapshots
    exact hdropped

theorem mem_insertSnapshot {id : SnapshotId} {generation : Nat}
    {row : SnapshotId × Nat} (h : row ∈ db.snapshots) :
    row ∈ (db.insertSnapshot id generation).snapshots := by
  unfold Db.insertSnapshot
  split
  · exact h
  · exact List.mem_append_left _ h

theorem insertSnapshot_rooted (db : Db) (id : SnapshotId) (generation : Nat) :
    ∃ row ∈ (db.insertSnapshot id generation).snapshots, row.1 = id := by
  unfold Db.insertSnapshot
  split
  · rename_i hrooted
    exact hrooted
  · exact ⟨_, List.mem_append_right _ List.mem_cons_self, rfl⟩

theorem advanceCall_snapshots {store : ObjectStore P} {call : Call}
    {row : SnapshotId × Nat} (h : row ∈ db.snapshots) :
    row ∈ (advanceCall db store call).db.snapshots := by
  have hmove : TableMove store db call (advanceCall db store call).db :=
    advanceCall_move
  generalize (advanceCall db store call).db = moved at hmove ⊢
  cases hmove with
  | stays => exact h
  | committed hcommit =>
      obtain ⟨_, workspace, middle, _, hmutations, rfl⟩ :=
        commitTransaction_eq_ok.mp hcommit
      have hsame := (applyMutations_roots hmutations).1.snapshots
      have hrow : row ∈ middle.snapshots := by rwa [hsame]
      exact hrow
  | sealed hseal =>
      obtain ⟨workspace, middle, _, _, hjobs, rfl⟩ := sealTransaction_eq_ok hseal
      have hsame := (applySealJobs_roots hjobs).1.snapshots
      refine mem_insertSnapshot ?_
      have hrow : row ∈ middle.snapshots := by rwa [hsame]
      unfold Db.sealGeneration
      split
      · exact hrow
      · exact hrow
  | rooted id => exact mem_insertSnapshot h

end

namespace World

variable {w : World P} {action : Action}

theorem settle_snapshots {outcome : Outcome Db}
    (h : ∀ db, outcome = .ok db → db.snapshots = w.db.snapshots) :
    (w.settle outcome).db.snapshots = w.db.snapshots := by
  cases outcome with
  | ok db => exact h db rfl
  | error failure => rfl

/-- Only its deletion takes a snapshot's row away. -/
theorem step_snapshots {row : SnapshotId × Nat}
    (hrow : row ∈ w.db.snapshots) (hkept : action ≠ .deleteSnapshot row.1) :
    row ∈ (w.step action).db.snapshots := by
  have hsame : (w.step action).db.snapshots = w.db.snapshots →
      row ∈ (w.step action).db.snapshots := by
    intro hsnapshots
    rwa [hsnapshots]
  cases action with
  | createWorkspace name =>
      exact hsame (settle_snapshots fun db hdb => createWorkspace_snapshots hdb)
  | deleteWorkspace name =>
      exact hsame (settle_snapshots fun db hdb => deleteWorkspace_snapshots hdb)
  | deleteSnapshot id =>
      simp only [step]
      cases hdeleted : deleteSnapshot w.db id with
      | error failure => exact hrow
      | ok db =>
          obtain ⟨_, rfl⟩ := deleteSnapshot_eq_ok.mp hdeleted
          refine List.mem_filter.mpr ⟨hrow, ?_⟩
          rw [decide_eq_true_eq]
          rintro rfl
          exact hkept rfl
  | acquireUnlinkedLease name path holder =>
      refine hsame (settle_snapshots fun db hdb => ?_)
      obtain ⟨⟨found, lease⟩, hfound, rfl⟩ := except_map_eq_ok.mp hdb
      exact acquireUnlinkedLease_snapshots hfound
  | acquirePendingSyncLease id holder =>
      refine hsame (settle_snapshots fun db hdb => ?_)
      obtain ⟨⟨found, granted⟩, hfound, rfl⟩ := except_map_eq_ok.mp hdb
      exact acquirePendingSyncLease_snapshots hfound
  | releaseLease lease =>
      exact hsame (settle_snapshots fun db hdb => releaseLease_snapshots hdb)
  | collect =>
      refine hsame ?_
      cases hmarks : mark w.store w.db with
      | error failure => rw [step_collect_failed hmarks]
      | ok marks => rw [step_collect hmarks]
  | admitObject bytes => exact hrow
  | beginCommit name mutations =>
      simp only [step]
      split
      · exact hrow
      · exact hrow
  | beginSeal seams name parent => exact hrow
  | beginAdopt bytes =>
      simp only [step]
      split
      · exact hrow
      · exact hrow
  | advance index =>
      simp only [step]
      split
      · exact advanceCall_snapshots hrow
      · exact hrow

end World

end TensorFS
