import TensorFS.Planner.PlanOnce
import TensorFS.Workspace.Tree

namespace TensorFS

open Data

variable (P : Platform)

/-! Sealing: plan each file of the captured tree, admit what the plan needs,
then rewrite and seal in one transaction. -/

structure SealJob where
  path : Text
  planner : PlannerId
  contract : Stamp
  records : List FileRecord
  updateRecords : Bool
  newDigests : List ObjectDigest
  deriving DecidableEq

/-- A region of the new record run: an object the committed run already cuts
there, or bytes still to admit. -/
inductive Slot where
  | kept (digest : ObjectDigest) (length : Nat)
  | fresh (region : Region)
  deriving DecidableEq

/-- A job whose regions are being admitted. -/
structure SealDraft where
  path : Text
  planner : PlannerId
  contract : Stamp
  source : List FileRecord
  slots : List Slot
  records : List FileRecord
  newDigests : List ObjectDigest
  deriving DecidableEq

inductive SealWork where
  | unchanged
  | ready (job : SealJob)
  | admitting (draft : SealDraft)
  deriving DecidableEq

/-- The data records as `((start, length), digest)`. -/
def committedRanges : Nat → List FileRecord →
    List ((Nat × Nat) × ObjectDigest)
  | _, [] => []
  | position, .data digest length :: records =>
      ((position, length.toNat), digest) ::
        committedRanges (position + length.toNat) records
  | position, .hole length :: records =>
      committedRanges (position + length.toNat) records

def boundariesMatch (records : List FileRecord) (regions : List Region) :
    Bool :=
  (committedRanges 0 records).map Prod.fst =
    regions.map fun region => (region.offset, region.length)

def reuseSlot (ranges : List ((Nat × Nat) × ObjectDigest)) (region : Region) :
    Slot :=
  match findRow Prod.fst ranges (region.offset, region.length) with
  | some range => .kept range.2 region.length
  | none => .fresh region

def relabelJob (path : Text) (planner : PlannerId) (contract : Stamp)
    (records : List FileRecord) : SealJob :=
  ⟨path, planner, contract, records, false, []⟩

/-- The whole byte run, holes as zeros, as one object. -/
def blobSealDraft (path : Text) (records : List FileRecord) : SealDraft where
  path := path
  planner := .blobV1
  contract := .none
  source := records
  slots := [.fresh ⟨0, totalSize records % 2 ^ 64, .blob⟩]
  records := []
  newDigests := []

def blobSealWork (path : Text) (storedPlanner : PlannerId)
    (storedContract : Stamp) (records : List FileRecord) : SealWork :=
  match records with
  | [.data ..] =>
      if storedPlanner = .blobV1 ∧ storedContract.isNone = true then .unchanged
      else .ready (relabelJob path .blobV1 .none records)
  | _ => .admitting (blobSealDraft path records)

def tensorSealWork (path : Text) (storedPlanner : PlannerId)
    (storedContract : Stamp) (records : List FileRecord) (planned : Plan) :
    SealWork :=
  if boundariesMatch records planned.regions then
    if planned.planner = storedPlanner ∧ planned.contract = storedContract then
      .unchanged
    else .ready (relabelJob path planned.planner planned.contract records)
  else
    .admitting {
      path := path
      planner := planned.planner
      contract := planned.contract
      source := records
      slots := planned.regions.map (reuseSlot (committedRanges 0 records))
      records := []
      newDigests := [] }

/-- A planning failure, inside a workspace call. -/
def planned (result : Except (Failure PlanError) Plan) : Outcome Plan :=
  match result with
  | .ok plan => .ok plan
  | .error (.refused error) => refuse (.plan error)
  | .error .panicked => .error .panicked

def plannedSealWork (path : Text) (storedPlanner : PlannerId)
    (storedContract : Stamp) (records : List FileRecord) (plan : Plan) :
    SealWork :=
  if plan.planner = .blobV1 then
    blobSealWork path storedPlanner storedContract records
  else tensorSealWork path storedPlanner storedContract records plan

/-- What one file needs before it is sealed. -/
def planSealJob (seams : Option Contract) (store : ObjectStore P)
    (path : Text) (storedPlanner : PlannerId) (storedContract : Stamp)
    (records : List FileRecord) : Outcome SealWork :=
  if records = [] then .ok .unchanged
  else if records.any FileRecord.isHole then
    if storedPlanner.tensorFormat.isSome then .ok .unchanged
    else .ok (.admitting (blobSealDraft path records))
  else do
    let plan ← planned (planWith P (recordsSource store records) seams)
    .ok (plannedSealWork path storedPlanner storedContract records plan)

variable {P}

/-- Reads a region of the committed run and admits it. -/
def admitRegion (store : ObjectStore P) (source : List FileRecord)
    (region : Region) : Outcome (ObjectStore P × ObjectDigest) :=
  match (recordsSource store source).readAt region.offset region.length with
  | some bytes => .ok (store.putBytes bytes, P.sha256 bytes)
  | none => refuse .store

def SealDraft.keep (draft : SealDraft) (slots : List Slot)
    (digest : ObjectDigest) (length : Nat) : SealDraft :=
  { draft with
    slots := slots
    records := draft.records ++ [.data digest (UInt64.ofNat length)] }

def SealDraft.fill (draft : SealDraft) (slots : List Slot)
    (digest : ObjectDigest) (length : Nat) : SealDraft :=
  { draft with
    slots := slots
    records := draft.records ++ [.data digest (UInt64.ofNat length)]
    newDigests := draft.newDigests ++ [digest] }

/-- The job of a draft with no slot left. -/
def SealDraft.job (draft : SealDraft) : SealJob :=
  ⟨draft.path, draft.planner, draft.contract, draft.records, true,
    draft.newDigests⟩

def Inode.relabel (planner : PlannerId) (contract : Stamp) : Inode → Inode
  | .file executable _ _ => .file executable planner contract
  | inode => inode

def applyRecords (U : Unicode) (db : Db) (workspace : WorkspaceRow)
    (job : SealJob) : Outcome Db :=
  if job.updateRecords then setRecords U db workspace job.path job.records
  else .ok db

def applySealJob (U : Unicode) (db : Db) (workspace : WorkspaceRow)
    (job : SealJob) : Outcome Db := do
  let db ← applyRecords U db workspace job
  let inode ← resolveExisting U db workspace job.path
  .ok (db.updateInode inode.id (Inode.relabel job.planner job.contract))

def applySealJobs (U : Unicode) (workspace : WorkspaceRow) :
    Db → List SealJob → Outcome Db
  | db, [] => .ok db
  | db, job :: jobs => do
      let db ← applySealJob U db workspace job
      applySealJobs U workspace db jobs

/-- `INSERT OR IGNORE INTO snapshots`. -/
def Db.insertSnapshot (db : Db) (id : SnapshotId) (generation : Nat) : Db :=
  if ∃ row ∈ db.snapshots, row.1 = id then db
  else { db with snapshots := db.snapshots ++ [(id, generation)] }

def sealedGeneration (workspace : WorkspaceRow) (jobs : List SealJob) : Nat :=
  if jobs = [] then workspace.headGeneration
  else workspace.headGeneration + 1

def Db.sealGeneration (db : Db) (workspace : WorkspaceRow)
    (jobs : List SealJob) : Db :=
  if jobs = [] then db
  else db.setGeneration workspace.id (workspace.headGeneration + 1)

/-- The transaction's writes, once the head is the captured one. -/
def sealCommit (store : ObjectStore P) (db : Db) (workspace : WorkspaceRow)
    (parent : Option SnapshotId) (jobs : List SealJob) :
    Outcome (Db × ObjectStore P × SnapshotId) := do
  checkAll (fun digest => require (store.existsObject digest = true)
    (.missingObject digest)) (jobs.flatMap SealJob.newDigests)
  let db ← applySealJobs P.unicode workspace db jobs
  let db := db.sealGeneration workspace jobs
  let snapshot ← buildSnapshot P.unicode db workspace parent
  let id := P.sha256 snapshot.toBytes
  .ok (db.insertSnapshot id (sealedGeneration workspace jobs),
    store.putBytes snapshot.toBytes, id)

/-- Phase C; `none` when the head has moved. -/
def sealTransaction (store : ObjectStore P) (db : Db) (name : Text)
    (parent : Option SnapshotId) (generation : Nat) (jobs : List SealJob) :
    Outcome (Option (Db × ObjectStore P × SnapshotId)) := do
  let workspace ← db.workspaceRow name
  if workspace.headGeneration = generation then do
    let committed ← sealCommit store db workspace parent jobs
    .ok (some committed)
  else .ok none

def planSealEntry (seams : Option Contract) (store : ObjectStore P)
    (path : Text) : TreeEntry → Outcome SealWork
  | .file _ planner contract records =>
      planSealJob P seams store path planner contract records
  | _ => .ok .unchanged

end TensorFS
