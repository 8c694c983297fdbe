import TensorFS.Workspace.Seal

namespace TensorFS

open Data

variable {P : Platform}

/-! Snapshots as roots: reading, adopting and deleting them. -/

def readManifestObject (store : ObjectStore P) (id : SnapshotId) :
    Outcome Snapshot :=
  match store.openObject id with
  | none => refuse .snapshotCorrupt
  | some bytes => do
      require (P.sha256 bytes = id) .snapshotCorrupt
      checked (decode P.unicode bytes)

def readRootedSnapshot (store : ObjectStore P) (db : Db) (id : SnapshotId) :
    Outcome Snapshot := do
  require (∃ row ∈ db.snapshots, row.1 = id) (.unknownSnapshot id)
  readManifestObject store id

def loadSnapshot (store : ObjectStore P) (db : Db) (id : SnapshotId) :
    Outcome Snapshot :=
  readRootedSnapshot store db id

def FileBody.objects : FileBody → List ObjectDigest
  | .tensor _ _ _ records => dataDigests records
  | .blob logicalSize digest => if logicalSize ≠ 0 then [digest] else []

/-- Every object one manifest names. -/
def manifestObjects (snapshot : Snapshot) : List ObjectDigest :=
  snapshot.entries.flatMap fun pair =>
    match pair.2 with
    | .file _ body => body.objects
    | _ => []

/-- The records of every file body, in manifest order. -/
def manifestRecords (snapshot : Snapshot) : List FileRecord :=
  snapshot.entries.flatMap fun pair =>
    match pair.2 with
    | .file _ body => body.records
    | _ => []

theorem FileBody.objects_eq (body : FileBody) :
    body.objects = dataDigests body.records := by
  cases body with
  | tensor format contract logicalSize records => rfl
  | blob logicalSize digest =>
      simp only [objects, records]
      by_cases hzero : logicalSize = 0
      · simp [hzero, dataDigests]
      · simp [hzero, dataDigests, FileRecord.digest?]

/-- What the walk of a manifest reaches are the digests of its records. -/
theorem manifestObjects_eq (snapshot : Snapshot) :
    manifestObjects snapshot = dataDigests (manifestRecords snapshot) := by
  unfold manifestObjects manifestRecords dataDigests
  rw [List.filterMap_flatMap]
  congr 1
  funext pair
  split
  · exact FileBody.objects_eq _
  · rfl

def deleteSnapshot (db : Db) (id : SnapshotId) : Outcome Db := do
  require (∃ row ∈ db.snapshots, row.1 = id) (.unknownSnapshot id)
  .ok { db with snapshots := db.snapshots.filter fun row => row.1 ≠ id }

/-! Leases. -/

def acquireUnlinkedLease (U : Unicode) (db : Db) (name path holder : Text) :
    Outcome (Db × Nat) := do
  let workspace ← db.workspaceRow name
  let inode ← resolveExisting U db workspace path
  require (∃ row ∈ db.inodes, row.id = inode.id) .db
  let lease := nextId (db.leases.map LeaseRow.id)
  .ok ({ db with
    leases := db.leases ++
      [⟨lease, .unlinked, holder, some workspace.id, some inode.id⟩] }, lease)

/-- The pins of one lease, each digest once. -/
def pinObjects (lease : Nat) (pins : List (Nat × ObjectDigest))
    (digests : List ObjectDigest) : List (Nat × ObjectDigest) :=
  digests.foldl (fun pins digest =>
    if (lease, digest) ∈ pins then pins else pins ++ [(lease, digest)]) pins

def acquirePendingSyncLease (store : ObjectStore P) (db : Db)
    (id : SnapshotId) (holder : Text) : Outcome (Db × Nat × Snapshot) := do
  let snapshot ← readRootedSnapshot store db id
  let lease := nextId (db.leases.map LeaseRow.id)
  .ok ({ db with
    leases := db.leases ++ [⟨lease, .pendingSync, holder, none, none⟩]
    leaseObjects := pinObjects lease db.leaseObjects
      (id :: dataDigests (manifestRecords snapshot)) }, lease, snapshot)

def Db.lease (db : Db) (id : Nat) : Option LeaseRow :=
  findRow LeaseRow.id db.leases id

def Db.deleteLease (db : Db) (id : Nat) : Db :=
  { db with
    leases := db.leases.filter fun row => row.id ≠ id
    leaseObjects := db.leaseObjects.filter fun pin => pin.1 ≠ id }

def releaseLease (db : Db) (id : Nat) : Outcome Db :=
  match db.lease id with
  | none => refuse (.unknownLease id)
  | some ⟨_, _, _, _, none⟩ => .ok (db.deleteLease id)
  | some ⟨_, _, _, _, some inode⟩ =>
      (db.deleteLease id).dropInodeIfOrphaned inode

/-! Collection. -/

structure Mark where
  heads : List ObjectDigest
  leased : List ObjectDigest
  snapshots : List (SnapshotId × List ObjectDigest)

def Mark.reached (marks : Mark) : List ObjectDigest :=
  marks.heads ++ marks.leased ++ marks.snapshots.flatMap Prod.snd

def Mark.isRooted (marks : Mark) (digest : ObjectDigest) : Bool :=
  digest ∈ marks.reached

def Db.headObjects (db : Db) : List ObjectDigest :=
  dataDigests (db.objectMaps.map Prod.snd)

def markSnapshots (store : ObjectStore P) :
    List SnapshotId → Outcome (List (SnapshotId × List ObjectDigest))
  | [] => .ok []
  | id :: ids => do
      let snapshot ← readManifestObject store id
      let rest ← markSnapshots store ids
      .ok ((id, id :: manifestObjects snapshot) :: rest)

def mark (store : ObjectStore P) (db : Db) : Outcome Mark := do
  let snapshots ← markSnapshots store (db.snapshots.map Prod.fst)
  .ok ⟨db.headObjects, db.leaseObjects.map Prod.snd, snapshots⟩

structure GcReport where
  roots : Nat
  resident : Nat
  newlyQuarantined : Nat
  rescued : Nat
  deleted : Nat
  bytesDeleted : Nat
  epoch : Nat
  deriving DecidableEq

/-- Unreferenced, still resident, and quarantined for two full epochs. -/
def Mark.isDue (marks : Mark) (store : ObjectStore P) (epoch : Nat)
    (row : ObjectDigest × Nat) : Bool :=
  !marks.isRooted row.1 && store.existsObject row.1 && row.2 + 2 ≤ epoch

/-- Unreferenced and resident, and too young to delete. -/
def Mark.stays (marks : Mark) (store : ObjectStore P) (epoch : Nat)
    (row : ObjectDigest × Nat) : Bool :=
  !marks.isRooted row.1 && store.existsObject row.1 && !(row.2 + 2 ≤ epoch)

def Mark.isNew (marks : Mark) (db : Db) (digest : ObjectDigest) : Bool :=
  !marks.isRooted digest && !(db.quarantine.map Prod.fst).contains digest

def removeObjects (store : ObjectStore P) (digests : List ObjectDigest) :
    ObjectStore P :=
  digests.foldl ObjectStore.removeObject store

def collectReport (store : ObjectStore P) (db : Db) (marks : Mark) :
    GcReport where
  roots := marks.reached.dedup.length
  resident := store.eachObject.length
  newlyQuarantined := (store.eachObject.filter (marks.isNew db)).length
  rescued := (db.quarantine.filter fun row => marks.isRooted row.1).length
  deleted := (db.quarantine.filter (marks.isDue store (db.epoch + 1))).length
  bytesDeleted :=
    ((db.quarantine.filter (marks.isDue store (db.epoch + 1))).map
      fun row => ((store.openObject row.1).getD []).length).sum
  epoch := db.epoch + 1

/-- One pass: rescue and drop stale rows, delete what is due, quarantine the
newly unreferenced. -/
def collect (store : ObjectStore P) (db : Db) :
    Outcome (Db × ObjectStore P × GcReport) := do
  let epoch := db.epoch + 1
  let marks ← mark store db
  .ok ({ db with
      epoch := epoch
      quarantine := db.quarantine.filter (marks.stays store epoch) ++
        (store.eachObject.filter (marks.isNew db)).map
          fun digest => (digest, epoch) },
    removeObjects store
      ((db.quarantine.filter (marks.isDue store epoch)).map Prod.fst),
    collectReport store db marks)

/-! Cloning a snapshot into a fresh workspace. -/

def cloneMutation (snapshot : Snapshot) (path : Text) : Entry → Mutation
  | .directory => .mkdir path
  | .file executable body =>
      .createFile path executable body.plannerId body.records
  | .symlink target => .symlink path target
  | .hardlink ordinal =>
      .hardlink path ((snapshot.ordinalPath ordinal).getD [])

def cloneMutations (snapshot : Snapshot) : List Mutation :=
  snapshot.entries.map fun pair => cloneMutation snapshot pair.1 pair.2

end TensorFS
