import TensorFS.Workspace.Collect

namespace TensorFS

open Data

variable {P : Platform}

/-! Any number of callers on one store.  A metadata transaction is one step;
between two steps of a call every other caller may move. -/

inductive SealPhase where
  | capture
  | plan (generation : Nat) (tree : HeadTree) (todo : List (Text × TreeEntry))
      (jobs : List SealJob)
  | admitting (generation : Nat) (tree : HeadTree) (todo : List (Text × TreeEntry))
      (jobs : List SealJob) (draft : SealDraft)

/-- A call in progress and what it still has to do; `retries` counts the
attempts a seal has left after this one. -/
inductive Call where
  | commit (name : Text) (mutations : List Mutation)
      (unverified : List ObjectDigest)
  | sealing (seams : Option Contract) (name : Text)
      (parent : Option SnapshotId) (retries : Nat) (phase : SealPhase)
  | adopt (bytes : Bytes) (snapshot : Snapshot) (unchecked : List FileRecord)
      (stored : Bool)

structure World (P : Platform) where
  db : Db
  store : ObjectStore P
  calls : List Call

def World.empty : World P := ⟨.empty, .empty, []⟩

inductive Action where
  | createWorkspace (name : Text)
  | deleteWorkspace (name : Text)
  | deleteSnapshot (id : SnapshotId)
  | acquireUnlinkedLease (name path holder : Text)
  | acquirePendingSyncLease (id : SnapshotId) (holder : Text)
  | releaseLease (lease : Nat)
  | collect
  | admitObject (bytes : Bytes)
  | beginCommit (name : Text) (mutations : List Mutation)
  | beginSeal (seams : Option Contract) (name : Text)
      (parent : Option SnapshotId)
  | beginAdopt (bytes : Bytes)
  | advance (index : Nat)

/-- What one step of a call leaves: the tables, the objects, and the call
unless it has returned. -/
structure Progress (P : Platform) where
  db : Db
  store : ObjectStore P
  call : Option Call

section

variable (db : Db) (store : ObjectStore P)

def advanceCommit (name : Text) (mutations : List Mutation) :
    List ObjectDigest → Progress P
  | digest :: unverified =>
      if (store.verify digest).isSome then
        ⟨db, store, some (.commit name mutations unverified)⟩
      else ⟨db, store, none⟩
  | [] =>
      match commitTransaction P store db name mutations with
      | .ok db => ⟨db, store, none⟩
      | .error _ => ⟨db, store, none⟩

def captureTree (U : Unicode) (name : Text) : Outcome (Nat × HeadTree) := do
  let workspace ← db.workspaceRow name
  let tree ← buildTree U db workspace
  .ok (workspace.headGeneration, tree)

/-- The phase after one file has been planned. -/
def SealWork.next (generation : Nat) (tree : HeadTree)
    (todo : List (Text × TreeEntry)) (jobs : List SealJob) :
    SealWork → SealPhase
  | .unchanged => .plan generation tree todo jobs
  | .ready job => .plan generation tree todo (jobs ++ [job])
  | .admitting draft => .admitting generation tree todo jobs draft

def advanceTransaction (resume : Nat → SealPhase → Call) (name : Text)
    (parent : Option SnapshotId) (retries generation : Nat)
    (jobs : List SealJob) : Progress P :=
  match sealTransaction store db name parent generation jobs with
  | .ok (some (db, store, _)) => ⟨db, store, none⟩
  | .ok none =>
      match retries with
      | 0 => ⟨db, store, none⟩
      | retries + 1 => ⟨db, store, some (resume retries .capture)⟩
  | .error _ => ⟨db, store, none⟩

def advanceSeal (seams : Option Contract) (name : Text)
    (parent : Option SnapshotId) (retries : Nat) : SealPhase → Progress P
  | .capture =>
      match captureTree db P.unicode name with
      | .ok (generation, tree) =>
          ⟨db, store, some (.sealing seams name parent retries
            (.plan generation tree tree.entries []))⟩
      | .error _ => ⟨db, store, none⟩
  | .plan generation tree ((path, entry) :: todo) jobs =>
      match planSealEntry seams store path entry with
      | .ok work =>
          ⟨db, store, some (.sealing seams name parent retries
            (work.next generation tree todo jobs))⟩
      | .error _ => ⟨db, store, none⟩
  | .plan generation _ [] jobs =>
      advanceTransaction db store (.sealing seams name parent) name parent
        retries generation jobs
  | .admitting generation tree todo jobs draft =>
      match draft.slots with
      | [] =>
          ⟨db, store, some (.sealing seams name parent retries
            (.plan generation tree todo (jobs ++ [draft.job])))⟩
      | .kept digest length :: slots =>
          ⟨db, store, some (.sealing seams name parent retries
            (.admitting generation tree todo jobs
              (draft.keep slots digest length)))⟩
      | .fresh region :: slots =>
          match admitRegion store draft.source region with
          | .ok (store, digest) =>
              ⟨db, store, some (.sealing seams name parent retries
                (.admitting generation tree todo jobs
                  (draft.fill slots digest region.length)))⟩
          | .error _ => ⟨db, store, none⟩

def advanceAdopt (bytes : Bytes) (snapshot : Snapshot) :
    List FileRecord → Bool → Progress P
  | .data digest _ :: unchecked, stored =>
      if store.existsObject digest then
        ⟨db, store, some (.adopt bytes snapshot unchecked stored)⟩
      else ⟨db, store, none⟩
  | .hole _ :: unchecked, stored =>
      ⟨db, store, some (.adopt bytes snapshot unchecked stored)⟩
  | [], false =>
      ⟨db, store.putBytes bytes, some (.adopt bytes snapshot [] true)⟩
  | [], true =>
      ⟨db.insertSnapshot (P.sha256 snapshot.toBytes) 0, store, none⟩

def advanceCall : Call → Progress P
  | .commit name mutations unverified =>
      advanceCommit db store name mutations unverified
  | .sealing seams name parent retries phase =>
      advanceSeal db store seams name parent retries phase
  | .adopt bytes snapshot unchecked stored =>
      advanceAdopt db store bytes snapshot unchecked stored

end

namespace World

/-- A transaction that fails rolls back. -/
def settle (w : World P) (outcome : Outcome Db) : World P :=
  match outcome with
  | .ok db => { w with db := db }
  | .error _ => w

def start (w : World P) (call : Call) : World P :=
  { w with calls := w.calls ++ [call] }

def advance (w : World P) (index : Nat) (call : Call) : World P :=
  let progress := advanceCall w.db w.store call
  ⟨progress.db, progress.store,
    match progress.call with
    | some call => w.calls.set index call
    | none => w.calls.eraseIdx index⟩

def step (w : World P) : Action → World P
  | .createWorkspace name => w.settle (createWorkspace w.db name)
  | .deleteWorkspace name => w.settle (deleteWorkspace w.db name)
  | .deleteSnapshot id => w.settle (deleteSnapshot w.db id)
  | .acquireUnlinkedLease name path holder =>
      w.settle ((acquireUnlinkedLease P.unicode w.db name path holder).map
        Prod.fst)
  | .acquirePendingSyncLease id holder =>
      w.settle ((acquirePendingSyncLease w.store w.db id holder).map Prod.fst)
  | .releaseLease lease => w.settle (releaseLease w.db lease)
  | .collect =>
      match TensorFS.collect w.store w.db with
      | .ok (db, store, _) => { w with db := db, store := store }
      | .error _ => w
  | .admitObject bytes => { w with store := w.store.putBytes bytes }
  | .beginCommit name mutations =>
      match checkAll checkMutation mutations with
      | .ok _ =>
          w.start (.commit name mutations (referencedDigests mutations))
      | .error _ => w
  | .beginSeal seams name parent =>
      w.start (.sealing seams name parent 2 .capture)
  | .beginAdopt bytes =>
      match decode P.unicode bytes with
      | .ok snapshot =>
          w.start (.adopt bytes snapshot (manifestRecords snapshot) false)
      | .error _ => w
  | .advance index =>
      match w.calls[index]? with
      | some call => w.advance index call
      | none => w

def run (w : World P) (actions : List Action) : World P :=
  actions.foldl step w

end World

/-- What one step of a call does to the tables, the store and the calls. -/
theorem World.step_advance {w : World P} {index : Nat} {call : Call}
    (hcall : w.calls[index]? = some call) :
    w.step (.advance index) = w.advance index call := by
  simp only [World.step, hcall]

end TensorFS
