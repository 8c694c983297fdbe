import TensorFS.Data.Reclaim
import TensorFS.Data.Sha256
import TensorFS.Workspace.Roots

namespace TensorFS

open Data

variable {P : Platform}

/-! What each snapshot costs, read off the marking walk. -/

structure SnapshotUsage where
  id : SnapshotId
  logical : UInt64
  resident : UInt64
  exclusive : UInt64
  deriving DecidableEq

/-- The sizes of a manifest's file entries; the sum wraps at 64 bits. -/
def logicalBytes (snapshot : Snapshot) : UInt64 :=
  (snapshot.entries.map fun pair =>
    match pair.2 with
    | .file _ body => body.logicalSize
    | _ => 0).sum

namespace Mark

/-- The heads are one root and the leases another, beside every snapshot. -/
def roots (marks : Mark) : List (List ObjectDigest) :=
  marks.heads :: marks.leased :: marks.snapshots.map Prod.snd

end Mark

namespace ObjectStore

/-- The bytes of an object, none where it is not resident. -/
def objectLength (store : ObjectStore P) (digest : ObjectDigest) : Nat :=
  ((store.openObject digest).getD []).length

/-- The sum a report makes of the objects of one closure. -/
def lengthSum (store : ObjectStore P) (digests : List ObjectDigest) : UInt64 :=
  (digests.map fun digest => UInt64.ofNat (store.objectLength digest)).sum

end ObjectStore

def snapshotUsage (store : ObjectStore P) (marks : Mark)
    (snapshot : SnapshotId × List ObjectDigest) : Outcome SnapshotUsage := do
  let manifest ← readManifestObject store snapshot.1
  .ok {
    id := snapshot.1
    logical := logicalBytes manifest
    resident := store.lengthSum snapshot.2.dedup
    exclusive := store.lengthSum (snapshot.2.dedup.filter fun digest =>
      references marks.roots digest = 1) }

def SnapshotUsage.atMost (left right : SnapshotUsage) : Prop :=
  left.id.bytes ≤ right.id.bytes

instance : DecidableRel SnapshotUsage.atMost :=
  fun left right => inferInstanceAs (Decidable (left.id.bytes ≤ right.id.bytes))

def usage (store : ObjectStore P) (db : Db) : Outcome (List SnapshotUsage) := do
  let marks ← mark store db
  let usage ← marks.snapshots.mapM (snapshotUsage store marks)
  .ok (usage.insertionSort SnapshotUsage.atMost)

/-! The walk, one snapshot at a time. -/

/-- What one snapshot row roots. -/
def closure (store : ObjectStore P) (id : SnapshotId) : List ObjectDigest :=
  match readManifestObject store id with
  | .ok snapshot => id :: manifestObjects snapshot
  | .error _ => []

theorem closure_of_ok {store : ObjectStore P} {id : SnapshotId}
    {snapshot : Snapshot} (h : readManifestObject store id = .ok snapshot) :
    closure store id = id :: manifestObjects snapshot := by
  rw [closure, h]

theorem markSnapshots_eq_ok {store : ObjectStore P} {ids : List SnapshotId}
    {snapshots : List (SnapshotId × List ObjectDigest)} :
    markSnapshots store ids = .ok snapshots ↔
      (∀ id ∈ ids, ∃ snapshot, readManifestObject store id = .ok snapshot) ∧
        snapshots = ids.map fun id => (id, closure store id) := by
  induction ids generalizing snapshots with
  | nil => simp [markSnapshots, eq_comm]
  | cons id ids ih =>
      simp only [markSnapshots, except_bind_eq_ok, Except.ok.injEq, ih,
        List.forall_mem_cons, List.map_cons]
      constructor
      · rintro ⟨snapshot, hread, _, ⟨hreads, rfl⟩, rfl⟩
        exact ⟨⟨⟨snapshot, hread⟩, hreads⟩, by rw [closure_of_ok hread]⟩
      · rintro ⟨⟨⟨snapshot, hread⟩, hreads⟩, rfl⟩
        exact ⟨snapshot, hread, _, ⟨hreads, rfl⟩, by
          rw [closure_of_ok hread]⟩

theorem mark_eq_ok {store : ObjectStore P} {db : Db} {marks : Mark} :
    mark store db = .ok marks ↔
      (∀ row ∈ db.snapshots,
        ∃ snapshot, readManifestObject store row.1 = .ok snapshot) ∧
      marks = ⟨db.headObjects, db.leaseObjects.map Prod.snd,
        db.snapshots.map fun row => (row.1, closure store row.1)⟩ := by
  simp only [mark, except_bind_eq_ok, markSnapshots_eq_ok, Except.ok.injEq,
    List.forall_mem_map, List.map_map]
  constructor
  · rintro ⟨_, ⟨hreads, rfl⟩, rfl⟩
    exact ⟨hreads, rfl⟩
  · rintro ⟨hreads, rfl⟩
    exact ⟨_, ⟨hreads, rfl⟩, rfl⟩

theorem Mark.reached_eq {marks : Mark} :
    marks.reached = marks.roots.flatten := by
  rw [reached, roots, List.flatten_cons, List.flatten_cons, List.append_assoc,
    List.flatMap_def]

theorem Mark.isRooted_eq_true {marks : Mark} {digest : ObjectDigest} :
    marks.isRooted digest = true ↔ digest ∈ marks.roots.flatten := by
  rw [isRooted, decide_eq_true_eq, reached_eq]

/-! The report against a deletion. -/

def residentBytes (store : ObjectStore P) (objects : Finset ObjectDigest) :
    Nat :=
  ∑ digest ∈ objects, store.objectLength digest

/-- What the first walk roots and the second does not. -/
def freed (before after : Mark) : Finset ObjectDigest :=
  before.reached.toFinset.filter fun digest => after.isRooted digest = false

theorem ObjectStore.lengthSum_eq {store : ObjectStore P}
    {digests : List ObjectDigest} (h : digests.Nodup) :
    store.lengthSum digests =
      UInt64.ofNat (residentBytes store digests.toFinset) := by
  rw [residentBytes, List.sum_toFinset _ h, lengthSum]
  clear h
  induction digests with
  | nil => rfl
  | cons digest digests ih =>
      rw [List.map_cons, List.sum_cons, ih, List.map_cons, List.sum_cons,
        UInt64.ofNat_add]

theorem deleteSnapshot_eq_ok {db db' : Db} {id : SnapshotId} :
    deleteSnapshot db id = .ok db' ↔
      (∃ row ∈ db.snapshots, row.1 = id) ∧
        db' = { db with
          snapshots := db.snapshots.filter fun row => row.1 ≠ id } := by
  simp only [deleteSnapshot, except_bind_eq_ok, require_eq_ok, exists_unit,
    Except.ok.injEq]
  rw [@eq_comm _ db']

/-- The walk after a deletion is the walk before it without that root. -/
theorem mark_deleteSnapshot {store : ObjectStore P} {db : Db} {marks : Mark}
    (h : mark store db = .ok marks) (id : SnapshotId) :
    mark store { db with
        snapshots := db.snapshots.filter fun row => row.1 ≠ id } =
      .ok { marks with
        snapshots := marks.snapshots.filter fun root => root.1 ≠ id } := by
  obtain ⟨hreads, rfl⟩ := mark_eq_ok.mp h
  refine mark_eq_ok.mpr ⟨?_, ?_⟩
  · intro row hrow
    exact hreads row (List.mem_filter.mp hrow).1
  · simp only [List.filter_map]
    rfl

/-- The objects only one snapshot's closure reaches are what its deletion
unroots. -/
theorem freed_delete {marks : Mark} {root : SnapshotId × List ObjectDigest}
    (hkeys : (marks.snapshots.map Prod.fst).Nodup)
    (h : root ∈ marks.snapshots) :
    freed marks { marks with
        snapshots := marks.snapshots.filter fun other => other.1 ≠ root.1 } =
      (root.2.dedup.filter fun digest =>
        references marks.roots digest = 1).toFinset := by
  have hperm := perm_of_key hkeys h
  have hroots : marks.roots.Perm (root.2 :: Mark.roots { marks with
      snapshots := marks.snapshots.filter fun other =>
        other.1 ≠ root.1 }) := by
    refine ((((hperm.map Prod.snd).cons _).cons _).trans ?_)
    exact (((List.Perm.swap _ _ _).cons _).trans (.swap _ _ _))
  ext digest
  simp only [freed, Finset.mem_filter, List.mem_toFinset, List.mem_filter,
    List.mem_dedup, decide_eq_true_eq, Mark.reached_eq, ← Bool.not_eq_true,
    Mark.isRooted_eq_true]
  rw [hroots.flatten.mem_iff, List.flatten_cons, List.mem_append,
    references_perm hroots]
  constructor
  · rintro ⟨hreached, hdropped⟩
    have hroot := hreached.resolve_right hdropped
    exact ⟨hroot, (references_cons_eq_one hroot).mpr hdropped⟩
  · rintro ⟨hroot, hcount⟩
    exact ⟨.inl hroot, (references_cons_eq_one hroot).mp hcount⟩

/-- A report names every snapshot once, with what its deletion would unroot and
what its own closure holds. -/
theorem usage_exact (store : ObjectStore P) (db : Db)
    (hkeys : (db.snapshots.map Prod.fst).Nodup) (report : List SnapshotUsage)
    (h : usage store db = .ok report) :
    (report.map SnapshotUsage.id).Perm (db.snapshots.map Prod.fst) ∧
      ∀ entry ∈ report, ∃ before db' after,
        mark store db = .ok before ∧ deleteSnapshot db entry.id = .ok db' ∧
        mark store db' = .ok after ∧
        entry.exclusive =
          UInt64.ofNat (residentBytes store (freed before after)) ∧
        entry.resident = UInt64.ofNat
          (residentBytes store (closure store entry.id).toFinset) := by
  simp only [usage, except_bind_eq_ok, Except.ok.injEq] at h
  obtain ⟨marks, hmarks, entries, hentries, rfl⟩ := h
  obtain ⟨hreads, hmarksEq⟩ := mark_eq_ok.mp hmarks
  have hids : marks.snapshots.map Prod.fst = db.snapshots.map Prod.fst := by
    rw [hmarksEq, List.map_map]
    rfl
  have hsorted := List.perm_insertionSort SnapshotUsage.atMost entries
  refine ⟨(hsorted.map _).trans (.of_eq ?_), fun entry hentry => ?_⟩
  · have hsame : List.Forall₂ (fun (root : SnapshotId × List ObjectDigest)
        entry => root.1 = SnapshotUsage.id entry) marks.snapshots entries := by
      refine (mapM_except_eq_ok hentries).imp fun root entry hentry => ?_
      simp only [snapshotUsage, except_bind_eq_ok, Except.ok.injEq] at hentry
      obtain ⟨_, _, rfl⟩ := hentry
      rfl
    rw [← hids, ← List.forall₂_eq_eq_eq, List.forall₂_map_left_iff,
      List.forall₂_map_right_iff]
    exact hsame.flip.imp fun entry root h => h.symm
  · obtain ⟨root, hroot, hentry⟩ :=
      mem_of_mapM hentries (hsorted.mem_iff.mp hentry)
    simp only [snapshotUsage, except_bind_eq_ok, Except.ok.injEq] at hentry
    obtain ⟨manifest, _, rfl⟩ := hentry
    have hclosure : root.2 = closure store root.1 := by
      rw [hmarksEq] at hroot
      obtain ⟨row, _, rfl⟩ := List.mem_map.mp hroot
      rfl
    have hrow : ∃ row ∈ db.snapshots, row.1 = root.1 := by
      rw [hmarksEq] at hroot
      obtain ⟨row, hmem, rfl⟩ := List.mem_map.mp hroot
      exact ⟨row, hmem, rfl⟩
    refine ⟨marks, _, _, hmarks, deleteSnapshot_eq_ok.mpr ⟨hrow, rfl⟩,
      mark_deleteSnapshot hmarks root.1, ?_, ?_⟩
    · rw [freed_delete (by rw [hids]; exact hkeys) hroot]
      exact ObjectStore.lengthSum_eq ((List.nodup_dedup _).filter _)
    · have hsame : root.2.dedup.toFinset = root.2.toFinset := by
        ext digest
        simp
      rw [← hclosure, ← hsame]
      exact ObjectStore.lengthSum_eq (List.nodup_dedup _)

/-! Two snapshots that share one blob; the second has one of its own too. -/

namespace SharedBlob

def platform : Platform := ⟨asciiUnicode, sha256, fun _ => none⟩

def blob (bytes : Bytes) : Entry :=
  .file false (.blob (UInt64.ofNat bytes.length) (sha256 bytes))

def first : Snapshot := ⟨none, [(['a'], blob [7])]⟩

def second : Snapshot := ⟨none, [(['a'], blob [7]), (['b'], blob [1, 2])]⟩

def store : ObjectStore platform :=
  ((((ObjectStore.empty.putBytes [7]).putBytes [1, 2]).putBytes
    first.toBytes).putBytes second.toBytes)

def db : Db :=
  { Db.empty with
    snapshots := [(sha256 first.toBytes, 0), (sha256 second.toBytes, 1)] }

def report : List SnapshotUsage :=
  match usage store db with
  | .ok report => report
  | .error _ => []

end SharedBlob

theorem usage_exact_shared_blob :
    (SharedBlob.report.map fun entry =>
      (entry.resident - entry.exclusive, entry.logical)) = [(1, 3), (1, 1)] ∧
      (SharedBlob.report.map SnapshotUsage.id).Perm
        (SharedBlob.db.snapshots.map Prod.fst) ∧
      ∀ entry ∈ SharedBlob.report, ∃ before db' after,
        mark SharedBlob.store SharedBlob.db = .ok before ∧
        deleteSnapshot SharedBlob.db entry.id = .ok db' ∧
        mark SharedBlob.store db' = .ok after ∧
        entry.exclusive =
          UInt64.ofNat (residentBytes SharedBlob.store (freed before after)) ∧
        entry.resident = UInt64.ofNat (residentBytes SharedBlob.store
          (closure SharedBlob.store entry.id).toFinset) :=
  ⟨by decide +kernel, usage_exact SharedBlob.store SharedBlob.db
    (by decide +kernel) SharedBlob.report (by decide +kernel)⟩

end TensorFS
