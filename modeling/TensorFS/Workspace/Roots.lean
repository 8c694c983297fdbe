import TensorFS.Workspace.Effects

namespace TensorFS

open Data

/-! Where the records in the tables come from. -/

theorem cutRecords_mem {length position stop : Nat}
    {records kept : List FileRecord}
    (h : cutRecords length position records = some (kept, stop)) :
    ∀ record ∈ kept, record.isHole = true ∨ record ∈ records := by
  induction records generalizing position kept with
  | nil =>
      cases h
      simp
  | cons head records ih =>
      unfold cutRecords at h
      split at h
      · cases h
        simp
      · simp only [Option.bind_eq_bind, Option.bind_eq_some_iff] at h
        obtain ⟨next, _, h⟩ := h
        split at h
        · simp only [Option.bind_eq_some_iff, Prod.exists, Option.some.injEq,
            Prod.mk.injEq] at h
          obtain ⟨rest, _, hrest, rfl, rfl⟩ := h
          intro record hrecord
          rcases List.mem_cons.mp hrecord with rfl | hrecord
          · exact .inr List.mem_cons_self
          · exact (ih hrest record hrecord).imp_right (List.mem_cons_of_mem _)
        · split at h
          · cases h
            simp [FileRecord.isHole]
          · cases h

theorem extendRecords_mem {kept : List FileRecord} {missing : Nat} :
    ∀ record ∈ extendRecords kept missing,
      record.isHole = true ∨ record ∈ kept := by
  intro record hrecord
  unfold extendRecords at hrecord
  split at hrecord
  · rcases List.mem_append.mp hrecord with hrecord | hrecord
    · exact .inr (List.mem_of_mem_dropLast hrecord)
    · rw [List.mem_singleton] at hrecord
      exact .inl (by rw [hrecord]; rfl)
  · rcases List.mem_append.mp hrecord with hrecord | hrecord
    · exact .inr hrecord
    · rw [List.mem_singleton] at hrecord
      exact .inl (by rw [hrecord]; rfl)

theorem truncateRecords_mem {records truncated : List FileRecord}
    {length : UInt64} (h : truncateRecords records length = some truncated) :
    ∀ record ∈ truncated, record.isHole = true ∨ record ∈ records := by
  simp only [truncateRecords, Option.bind_eq_bind, Option.bind_eq_some_iff,
    Prod.exists] at h
  obtain ⟨kept, position, hcut, h⟩ := h
  have hkept := cutRecords_mem hcut
  split at h
  · cases h
    intro record hrecord
    rcases extendRecords_mem record hrecord with hhole | hrecord
    · exact .inl hhole
    · exact hkept record hrecord
  · cases h
    exact hkept

namespace Db

variable {db db' db'' : Db}

theorem mem_readRecords {inode : Nat} {record : FileRecord} :
    record ∈ db.readRecords inode ↔ (inode, record) ∈ db.objectMaps := by
  simp [readRecords]

/-- Every record of `db'` is one of `db`'s, a hole, or one of the new ones. -/
def MapsWithin (db db' : Db) (new : FileRecord → Prop) : Prop :=
  ∀ entry ∈ db'.objectMaps, entry.2.isHole = true ∨
    (∃ inode, (inode, entry.2) ∈ db.objectMaps) ∨ new entry.2

theorem MapsWithin.of_subset {new : FileRecord → Prop}
    (h : ∀ entry ∈ db'.objectMaps, entry ∈ db.objectMaps) :
    MapsWithin db db' new :=
  fun entry hentry => .inr (.inl ⟨entry.1, h entry hentry⟩)

theorem MapsWithin.trans {new new' new'' : FileRecord → Prop}
    (h : MapsWithin db db' new) (h' : MapsWithin db' db'' new')
    (hnew : ∀ record, new record ∨ new' record → new'' record) :
    MapsWithin db db'' new'' := by
  intro entry hentry
  rcases h' entry hentry with hhole | ⟨inode, hold⟩ | hentry
  · exact .inl hhole
  · rcases h (inode, entry.2) hold with hhole | hold | hentry
    · exact .inl hhole
    · exact .inr (.inl hold)
    · exact .inr (.inr (hnew _ (.inl hentry)))
  · exact .inr (.inr (hnew _ (.inr hentry)))

theorem putRecords_maps {inode : Nat} {records : List FileRecord}
    {new : FileRecord → Prop}
    (h : ∀ record ∈ records, record.isHole = true ∨
      (∃ inode, (inode, record) ∈ db.objectMaps) ∨ new record) :
    MapsWithin db (db.putRecords inode records) new := by
  intro entry hentry
  rcases List.mem_append.mp hentry with hentry | hentry
  · exact .inr (.inl ⟨entry.1, (List.mem_filter.mp hentry).1⟩)
  · obtain ⟨record, hrecord, rfl⟩ := List.mem_map.mp hentry
    exact h record hrecord

theorem dropInodeIfOrphaned_within {id : Nat}
    (h : db.dropInodeIfOrphaned id = .ok db') :
    SameRoots db db' ∧ ∀ entry ∈ db'.objectMaps, entry ∈ db.objectMaps := by
  rcases dropInodeIfOrphaned_eq_ok.mp h with ⟨_, _, rfl⟩ | ⟨_, rfl⟩
  · exact ⟨⟨rfl, rfl, rfl, rfl, rfl, rfl⟩,
      fun entry hentry => (List.mem_filter.mp hentry).1⟩
  · exact ⟨.refl _, fun entry hentry => hentry⟩

end Db

section

variable {U : Unicode} {db db' : Db} {workspace : WorkspaceRow}

theorem Effect.sameRoots {mutation : Mutation}
    (h : Effect U db workspace mutation db') : db.SameRoots db' := by
  cases h with
  | leaf => exact ⟨rfl, rfl, rfl, rfl, rfl, rfl⟩
  | file => exact ⟨rfl, rfl, rfl, rfl, rfl, rfl⟩
  | link => exact ⟨rfl, rfl, rfl, rfl, rfl, rfl⟩
  | rewrite => exact ⟨rfl, rfl, rfl, rfl, rfl, rfl⟩
  | relabel => exact ⟨rfl, rfl, rfl, rfl, rfl, rfl⟩
  | move => exact ⟨rfl, rfl, rfl, rfl, rfl, rfl⟩
  | moveRoot => exact ⟨rfl, rfl, rfl, rfl, rfl, rfl⟩
  | shrink _ _ _ _ dropped =>
      obtain ⟨hsame, _⟩ := Db.dropInodeIfOrphaned_within dropped
      exact ⟨hsame.workspaces, hsame.snapshots, hsame.leases,
        hsame.leaseObjects, hsame.epoch, hsame.quarantine⟩
  | dropRoot _ dropped =>
      obtain ⟨hsame, _⟩ := Db.dropInodeIfOrphaned_within dropped
      exact ⟨hsame.workspaces, hsame.snapshots, hsame.leases,
        hsame.leaseObjects, hsame.epoch, hsame.quarantine⟩

theorem Effect.maps {mutation : Mutation}
    (h : Effect U db workspace mutation db') :
    db.MapsWithin db' fun record => record ∈ mutation.records := by
  cases h with
  | leaf => exact .of_subset fun _ h => h
  | @file path name base parent executable planner records place =>
      exact @Db.putRecords_maps
        (db.addLeaf workspace.id parent name (.file executable planner .none))
        _ records _ fun record hrecord => .inr (.inr hrecord)
  | link => exact .of_subset fun _ h => h
  | rewrite found origin =>
      refine Db.putRecords_maps fun record hrecord => ?_
      rcases origin with ⟨_, rfl⟩ | ⟨_, length, htruncate⟩
      · exact .inr (.inr hrecord)
      · rcases truncateRecords_mem htruncate record hrecord with hhole | hold
        · exact .inl hhole
        · exact .inr (.inl ⟨_, Db.mem_readRecords.mp hold⟩)
  | relabel => exact .of_subset fun _ h => h
  | move => exact .of_subset fun _ h => h
  | moveRoot => exact .of_subset fun _ h => h
  | shrink _ _ _ _ dropped =>
      exact .of_subset (Db.dropInodeIfOrphaned_within dropped).2
  | dropRoot _ dropped =>
      exact .of_subset (Db.dropInodeIfOrphaned_within dropped).2

theorem applyMutations_roots {mutations : List Mutation}
    (h : applyMutations U workspace db mutations = .ok db') :
    db.SameRoots db' ∧ db.MapsWithin db' fun record =>
      ∃ mutation ∈ mutations, record ∈ mutation.records := by
  induction mutations generalizing db with
  | nil =>
      cases h
      exact ⟨.refl _, .of_subset fun _ h => h⟩
  | cons mutation mutations ih =>
      simp only [applyMutations, except_bind_eq_ok] at h
      obtain ⟨middle, hfirst, hrest⟩ := h
      have heffect := applyMutation_effect hfirst
      obtain ⟨hsame, hmaps⟩ := ih hrest
      refine ⟨heffect.sameRoots.trans hsame, heffect.maps.trans hmaps ?_⟩
      rintro record (hrecord | ⟨other, hother, hrecord⟩)
      · exact ⟨mutation, List.mem_cons_self, hrecord⟩
      · exact ⟨other, List.mem_cons_of_mem _ hother, hrecord⟩

theorem workspaceRow_eq_ok {name : Text} :
    db.workspaceRow name = .ok workspace ↔
      db.workspace name = some workspace := by
  unfold Db.workspaceRow
  split
  · rename_i hfound
    simp [hfound]
  · rename_i hnone
    simp [hnone]

theorem commitTransaction_eq_ok {P : Platform} {store : ObjectStore P}
    {name : Text} {mutations : List Mutation} :
    commitTransaction P store db name mutations = .ok db' ↔
      (∀ digest ∈ referencedDigests mutations,
        store.existsObject digest = true) ∧
      ∃ workspace middle, db.workspace name = some workspace ∧
        applyMutations P.unicode workspace db mutations = .ok middle ∧
        db' = middle.setGeneration workspace.id
          (workspace.headGeneration + 1) := by
  simp only [commitTransaction, except_bind_eq_ok, exists_unit,
    checkAll_eq_ok, require_eq_ok, workspaceRow_eq_ok, Except.ok.injEq]
  simp only [@eq_comm _ _ db', exists_and_left]

theorem mem_dataDigests {records : List FileRecord} {digest : ObjectDigest} :
    digest ∈ dataDigests records ↔
      ∃ length, FileRecord.data digest length ∈ records := by
  simp only [dataDigests, List.mem_filterMap]
  constructor
  · rintro ⟨record, hrecord, hdigest⟩
    cases record with
    | data found length =>
        cases hdigest
        exact ⟨length, hrecord⟩
    | hole length => cases hdigest
  · rintro ⟨length, hrecord⟩
    exact ⟨_, hrecord, rfl⟩

/-! Seal jobs. -/

theorem applySealJob_eq_ok {job : SealJob}
    (h : applySealJob U db workspace job = .ok db') :
    ∃ middle inode, applyRecords U db workspace job = .ok middle ∧
      resolveExisting U middle workspace job.path = .ok inode ∧
      db' = middle.updateInode inode.id
        (Inode.relabel job.planner job.contract) := by
  simp only [applySealJob, except_bind_eq_ok, Except.ok.injEq] at h
  obtain ⟨middle, hmiddle, inode, hinode, rfl⟩ := h
  exact ⟨middle, inode, hmiddle, hinode, rfl⟩

theorem applyRecords_cases {job : SealJob}
    (h : applyRecords U db workspace job = .ok db') :
    (job.updateRecords = false ∧ db' = db) ∨
      (job.updateRecords = true ∧
        Effect U db workspace (.setRecords job.path job.records) db') := by
  unfold applyRecords at h
  split at h
  · rename_i hupdate
    exact .inr ⟨hupdate, @applyMutation_effect U db db' workspace
      (.setRecords job.path job.records) h⟩
  · rename_i hupdate
    cases h
    exact .inl ⟨by simpa using hupdate, rfl⟩

theorem applySealJobs_roots {jobs : List SealJob}
    (h : applySealJobs U workspace db jobs = .ok db') :
    db.SameRoots db' ∧ db.MapsWithin db' fun record =>
      ∃ job ∈ jobs, job.updateRecords = true ∧ record ∈ job.records := by
  induction jobs generalizing db with
  | nil =>
      cases h
      exact ⟨.refl _, .of_subset fun _ h => h⟩
  | cons job jobs ih =>
      simp only [applySealJobs, except_bind_eq_ok] at h
      obtain ⟨next, hfirst, hrest⟩ := h
      obtain ⟨middle, inode, hrecords, _, rfl⟩ := applySealJob_eq_ok hfirst
      obtain ⟨hsame, hmaps⟩ := ih hrest
      have hsame' : middle.SameRoots (middle.updateInode inode.id
        (Inode.relabel job.planner job.contract)) :=
        ⟨rfl, rfl, rfl, rfl, rfl, rfl⟩
      have hfirst : db.SameRoots middle ∧ db.MapsWithin middle fun record =>
          job.updateRecords = true ∧ record ∈ job.records := by
        rcases applyRecords_cases hrecords with ⟨_, rfl⟩ | ⟨hupdate, heffect⟩
        · exact ⟨.refl _, .of_subset fun _ h => h⟩
        · exact ⟨heffect.sameRoots, fun entry hentry =>
            (heffect.maps entry hentry).imp_right
              (Or.imp_right fun hrecord => ⟨hupdate, hrecord⟩)⟩
      have hmaps' : middle.MapsWithin db' fun record =>
        ∃ job ∈ jobs, job.updateRecords = true ∧ record ∈ job.records := hmaps
      refine ⟨(hfirst.1.trans hsame').trans hsame, hfirst.2.trans hmaps' ?_⟩
      rintro record (hrecord | ⟨other, hother, hrecord⟩)
      · exact ⟨job, List.mem_cons_self, hrecord⟩
      · exact ⟨other, List.mem_cons_of_mem _ hother, hrecord⟩

end

/-! One step of a call. -/

section

variable {P : Platform} {store : ObjectStore P} {db db' : Db}

theorem sealTransaction_eq_ok {store' : ObjectStore P} {name : Text}
    {parent : Option SnapshotId} {generation : Nat} {jobs : List SealJob}
    {id : SnapshotId}
    (h : sealTransaction store db name parent generation jobs =
      .ok (some (db', store', id))) :
    ∃ workspace middle, db.workspace name = some workspace ∧
      workspace.headGeneration = generation ∧
      applySealJobs P.unicode workspace db jobs = .ok middle ∧
      db' = (middle.sealGeneration workspace jobs).insertSnapshot id
        (sealedGeneration workspace jobs) := by
  simp only [sealTransaction, except_bind_eq_ok, workspaceRow_eq_ok] at h
  obtain ⟨workspace, hrow, h⟩ := h
  split at h
  · rename_i hgeneration
    simp only [sealCommit, except_bind_eq_ok, exists_unit,
      Except.ok.injEq, Option.some.injEq] at h
    obtain ⟨_, ⟨_, middle, hjobs, snapshot, _, rfl⟩, h⟩ := h
    simp only [Prod.mk.injEq] at h
    obtain ⟨rfl, _, rfl⟩ := h
    exact ⟨workspace, middle, hrow, hgeneration, hjobs, rfl⟩
  · cases h

/-- What a step of a call can do to the tables. -/
inductive TableMove (store : ObjectStore P) (db : Db) : Call → Db → Prop
  | stays {call : Call} : TableMove store db call db
  | committed {name : Text} {mutations : List Mutation} {db' : Db}
      (transaction : commitTransaction P store db name mutations = .ok db') :
      TableMove store db (.commit name mutations []) db'
  | sealed {seams : Option Contract} {name : Text}
      {parent : Option SnapshotId} {retries generation : Nat}
      {tree : HeadTree} {jobs : List SealJob} {db' : Db}
      {store' : ObjectStore P} {id : SnapshotId}
      (transaction : sealTransaction store db name parent generation jobs =
        .ok (some (db', store', id))) :
      TableMove store db
        (.sealing seams name parent retries (.plan generation tree [] jobs)) db'
  | rooted {call : Call} (id : SnapshotId) :
      TableMove store db call (db.insertSnapshot id 0)

theorem advanceCall_move {call : Call} :
    TableMove store db call (advanceCall db store call).db := by
  cases call with
  | commit name mutations unverified =>
      cases unverified with
      | nil =>
          simp only [advanceCall, advanceCommit]
          split
          · rename_i hcommit
            exact .committed hcommit
          · exact .stays
      | cons digest unverified =>
          simp only [advanceCall, advanceCommit]
          split
          · exact .stays
          · exact .stays
  | sealing seams name parent retries phase =>
      cases phase with
      | capture =>
          simp only [advanceCall, advanceSeal]
          split
          · exact .stays
          · exact .stays
      | plan generation tree todo jobs =>
          cases todo with
          | nil =>
              simp only [advanceCall, advanceSeal, advanceTransaction]
              split
              · rename_i hseal
                exact .sealed hseal
              · split
                · exact .stays
                · exact .stays
              · exact .stays
          | cons entry todo =>
              simp only [advanceCall, advanceSeal]
              split
              · exact .stays
              · exact .stays
      | admitting generation tree todo jobs draft =>
          simp only [advanceCall, advanceSeal]
          split
          · exact .stays
          · exact .stays
          · split
            · exact .stays
            · exact .stays
  | adopt bytes snapshot unchecked stored =>
      cases unchecked with
      | nil =>
          cases stored with
          | false => exact .stays
          | true => exact .rooted _
      | cons record unchecked =>
          cases record with
          | hole length => exact .stays
          | data digest length =>
              simp only [advanceCall, advanceAdopt]
              split
              · exact .stays
              · exact .stays

end

theorem stageBuilder_eq_ok {db : Db} {workspace : WorkspaceRow}
    {parent : Option SnapshotId} {builder : SnapshotBuilder} :
    stageBuilder db workspace parent = .ok builder ↔
      ∃ visited, stageWalk db db.walkFuel [(workspace.rootInode, [])] =
          some visited ∧ (stagePending db visited).length < 2 ^ 64 ∧
        builder = ⟨parent, stagePending db visited⟩ := by
  unfold stageBuilder
  split
  · rename_i visited hwalk
    simp only [except_bind_eq_ok, ensure_eq_ok, exists_unit, Except.ok.injEq,
      hwalk, Option.some.injEq, exists_eq_left', @eq_comm _ _ builder]
  · rename_i hwalk
    simp [hwalk]

end TensorFS
