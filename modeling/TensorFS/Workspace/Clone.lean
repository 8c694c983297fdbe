import TensorFS.Workspace.Readback
import TensorFS.Workspace.Statements
import TensorFS.Workspace.Usage

namespace TensorFS

open Data

variable {P : Platform}

/-! Cloning a snapshot, whatever other callers do between its steps. -/

/-- The rehash of each object and the commit; `others` is what other callers do
before each step. -/
def cloneCommit (others : Nat → List Action) (name : Text)
    (mutations : List Mutation) :
    Nat → List ObjectDigest → World P → World P × Outcome Unit
  | turn, digest :: unverified, w =>
      let w := w.run (others turn)
      if (w.store.verify digest).isSome then
        cloneCommit others name mutations (turn + 1) unverified w
      else (w, refuse (.missingObject digest))
  | turn, [], w =>
      let w := w.run (others turn)
      match commitTransaction P w.store w.db name mutations with
      | .ok db => ({ w with db := db }, .ok ())
      | .error error => (w, .error error)

/-- The call after the snapshot is read. -/
def cloneDecoded (others : Nat → List Action) (name : Text)
    (snapshot : Snapshot) (w : World P) : World P × Outcome Unit :=
  let w := w.run (others 1)
  match createWorkspace w.db name with
  | .error error => (w, .error error)
  | .ok db =>
      let w := { w with db := db }
      let mutations := cloneMutations snapshot
      match checkAll checkMutation mutations with
      | .error error => (w, .error error)
      | .ok _ =>
          cloneCommit others name mutations 2 (referencedDigests mutations) w

/-- `create_workspace_from_snapshot`, with every other caller beside it. -/
def clone (others : Nat → List Action) (name : Text) (id : SnapshotId)
    (w : World P) : World P × Outcome Unit :=
  let w := w.run (others 0)
  match loadSnapshot w.store w.db id with
  | .error error => (w, .error error)
  | .ok snapshot => cloneDecoded others name snapshot w

/-- The world in which the call first writes, or is refused unread. -/
def cloneStart (others : Nat → List Action) (id : SnapshotId) (w : World P) :
    World P :=
  match loadSnapshot (w.run (others 0)).store (w.run (others 0)).db id with
  | .error _ => w.run (others 0)
  | .ok _ => (w.run (others 0)).run (others 1)

/-- A refused clone leaves no workspace of its own; a clone that returns leaves
the snapshot's tree. -/
structure AllOrNothing (others : Nat → List Action) (name : Text)
    (id : SnapshotId) (w : World P) : Prop where
  nothing : ∀ error, (clone others name id w).2 = .error error →
    ((clone others name id w).1.db.workspace name).isSome →
      ((cloneStart others id w).db.workspace name).isSome
  all : (clone others name id w).2 = .ok () → ∃ snapshot,
    loadSnapshot (w.run (others 0)).store (w.run (others 0)).db id =
        .ok snapshot ∧
      headTree P.unicode (clone others name id w).1.db name =
        .ok snapshot.shown

/-- Each object is there when it is rehashed and when the commit runs, and the
workspace is then as it was created, or gone. -/
def Steady (others : Nat → List Action) (name : Text)
    (digests : List ObjectDigest) : Nat → List ObjectDigest → World P → Prop
  | turn, digest :: unverified, w =>
      if (w.run (others turn)).store.existsObject digest then
        Steady others name digests (turn + 1) unverified (w.run (others turn))
      else (w.run (others turn)).db.workspace name = none
  | turn, [], w =>
      ∀ row, (w.run (others turn)).db.workspace name = some row →
        (w.run (others turn)).db.Vacant row ∧
          ∀ digest ∈ digests,
            (w.run (others turn)).store.existsObject digest = true

def Undisturbed (others : Nat → List Action) (name : Text) (id : SnapshotId)
    (w : World P) : Prop :=
  ∀ snapshot db,
    loadSnapshot (w.run (others 0)).store (w.run (others 0)).db id =
        .ok snapshot →
      createWorkspace (cloneStart others id w).db name = .ok db →
        Steady others name (referencedDigests (cloneMutations snapshot)) 2
          (referencedDigests (cloneMutations snapshot))
          { cloneStart others id w with db := db }

theorem loadSnapshot_canonical {store : ObjectStore P} {db : Db}
    {id : SnapshotId} {snapshot : Snapshot}
    (h : loadSnapshot store db id = .ok snapshot) :
    Canonical P.unicode snapshot := by
  simp only [loadSnapshot, readRootedSnapshot, except_bind_eq_ok,
    exists_unit] at h
  obtain ⟨_, h⟩ := h
  unfold readManifestObject at h
  split at h
  · exact absurd h refuse_ne_ok
  · simp only [except_bind_eq_ok, exists_unit, checked_eq_ok] at h
    exact (decode_eq_ok.mp h.2).1

theorem recordsLength_eq {sum : Nat} {records : List FileRecord}
    (h : sum + totalSize records < 2 ^ 64) :
    recordsLength sum records = .ok (sum + totalSize records) := by
  induction records generalizing sum with
  | nil => rfl
  | cons record records ih =>
      rw [totalSize_cons] at h ⊢
      rw [recordsLength, ensure_of (by omega), except_ok_bind, ih (by omega),
        Nat.add_assoc]

/-- The records of a snapshot pass the batch's own checks. -/
theorem checkMutation_clone {U : Unicode} {snapshot : Snapshot}
    (h : Canonical U snapshot) :
    checkAll checkMutation (cloneMutations snapshot) = .ok () := by
  rw [checkAll_eq_ok, cloneMutations, List.forall_mem_map]
  rintro ⟨path, entry⟩ hpair
  cases entry with
  | directory => rfl
  | symlink target => rfl
  | hardlink ordinal => rfl
  | file executable body =>
      obtain ⟨_, _, hok⟩ := h.entryOk hpair
      have hrun := BodyOk.validRun hok
      have hsum := @recordsLength_eq 0 body.records (by
        rw [Nat.zero_add]
        exact hrun.fits)
      rw [Nat.zero_add] at hsum
      have hvalid := (@validateRecordRun_eq_ok body.records
        (UInt64.ofNat (totalSize body.records)) ()).mpr
          ⟨hrun, (toNat_ofNat_of_lt hrun.fits).symm⟩
      simp only [cloneMutation, checkMutation, Mutation.carriesRecords,
        Mutation.records, if_true, hsum, hvalid, checked, except_ok_bind]

/-- The commit of a clone into a workspace as it was created. -/
theorem commit_vacant {store : ObjectStore P} {db : Db} {name : Text}
    {snapshot : Snapshot} {row : WorkspaceRow}
    (hcanonical : Canonical P.unicode snapshot) (hlinked : db.Linked)
    (hrow : db.workspace name = some row) (hvacant : db.Vacant row)
    (hexists : ∀ digest ∈ referencedDigests (cloneMutations snapshot),
      store.existsObject digest = true) :
    ∃ db', commitTransaction P store db name (cloneMutations snapshot) =
        .ok db' ∧ headTree P.unicode db' name = .ok snapshot.shown := by
  obtain ⟨middle, seat, hrun, hplanted⟩ := (Planted.start db row snapshot).run
    hcanonical (List.nil_append _).symm hlinked hvacant
  refine ⟨_, commitTransaction_eq_ok.mpr
    ⟨hexists, row, middle, hrow, hrun, rfl⟩, ?_⟩
  let after : Db := middle.setGeneration row.id (row.headGeneration + 1)
  let base : Db := { db with workspaces := after.workspaces }
  let moved : WorkspaceRow :=
    { row with headGeneration := row.headGeneration + 1 }
  have hmiddle : middle.workspace name = some row := by
    rw [Db.workspace, hplanted.workspaces]
    exact hrow
  have hmoved : after.workspace name = some moved := by
    rw [Db.workspace_setGeneration, hmiddle, Option.map_some, if_pos rfl]
  have hbase : base.Vacant moved :=
    ⟨⟨moved, (findRow_mem hmoved).1, rfl⟩, hvacant.root, hvacant.empty⟩
  have hafter : Planted base moved snapshot snapshot.entries after seat :=
    ⟨rfl, hplanted.inodes, hplanted.root, hplanted.dirents, hplanted.found,
      hplanted.records, hplanted.fresh, hplanted.shared⟩
  show headTree P.unicode after name = _
  rw [headTree, workspaceRow_eq_ok.mpr hmoved, except_ok_bind]
  exact hafter.buildTree hcanonical hlinked hbase

theorem cloneCommit_steady {others : Nat → List Action} {name : Text}
    {snapshot : Snapshot} (hcanonical : Canonical P.unicode snapshot)
    {turn : Nat} {unverified : List ObjectDigest} {w : World P}
    (hlinked : w.db.Linked)
    (hsteady : Steady others name
      (referencedDigests (cloneMutations snapshot)) turn unverified w) :
    (∀ error, (cloneCommit others name (cloneMutations snapshot) turn
        unverified w).2 = .error error →
      (cloneCommit others name (cloneMutations snapshot) turn
        unverified w).1.db.workspace name = none) ∧
    ((cloneCommit others name (cloneMutations snapshot) turn
        unverified w).2 = .ok () →
      headTree P.unicode (cloneCommit others name (cloneMutations snapshot)
        turn unverified w).1.db name = .ok snapshot.shown) := by
  induction unverified generalizing turn w with
  | nil =>
      have hlater := World.run_linked hlinked (others turn)
      simp only [cloneCommit, Steady] at hsteady ⊢
      cases hrow : (w.run (others turn)).db.workspace name with
      | none =>
          split
          · rename_i db hcommit
            obtain ⟨_, row, _, hsome, _⟩ := commitTransaction_eq_ok.mp hcommit
            rw [hrow] at hsome
            cases hsome
          · exact ⟨fun _ _ => hrow, fun h => absurd h nofun⟩
      | some row =>
          obtain ⟨hvacant, hexists⟩ := hsteady row hrow
          obtain ⟨db, hcommit, htree⟩ :=
            commit_vacant hcanonical hlater hrow hvacant hexists
          rw [hcommit]
          exact ⟨fun _ h => absurd h nofun, fun _ => htree⟩
  | cons digest unverified ih =>
      simp only [cloneCommit, Steady, ObjectStore.verify_isSome] at hsteady ⊢
      split
      · rename_i hexists
        rw [if_pos hexists] at hsteady
        exact ih (World.run_linked hlinked (others turn)) hsteady
      · rename_i hmissing
        rw [if_neg hmissing] at hsteady
        exact ⟨fun _ _ => hsteady, fun h => absurd h refuse_ne_ok⟩

/-- Cloning is all or nothing while nothing disturbs it. -/
theorem clone_all_or_nothing (w : World P) (hlinked : w.db.Linked)
    (others : Nat → List Action) (name : Text) (id : SnapshotId)
    (hundisturbed : Undisturbed others name id w) :
    AllOrNothing others name id w := by
  have hstart := World.run_linked (World.run_linked hlinked (others 0))
    (others 1)
  unfold Undisturbed at hundisturbed
  cases hload : loadSnapshot (w.run (others 0)).store (w.run (others 0)).db id with
  | error error =>
      have hclone : clone others name id w =
          (w.run (others 0), .error error) := by
        simp only [clone, hload]
      have hbefore : cloneStart others id w = w.run (others 0) := by
        simp only [cloneStart, hload]
      constructor
      · intro _ _ hsome
        rw [hclone] at hsome
        rwa [hbefore]
      · intro hok
        rw [hclone] at hok
        cases hok
  | ok snapshot =>
      have hcanonical := loadSnapshot_canonical hload
      have hbefore : cloneStart others id w =
          (w.run (others 0)).run (others 1) := by
        simp only [cloneStart, hload]
      have hclone : clone others name id w =
          cloneDecoded others name snapshot (w.run (others 0)) := by
        simp only [clone, hload]
      cases hcreate : createWorkspace
          ((w.run (others 0)).run (others 1)).db name with
      | error error =>
          have hrefused : clone others name id w =
              ((w.run (others 0)).run (others 1), .error error) := by
            rw [hclone]
            simp only [cloneDecoded, hcreate]
          constructor
          · intro _ _ hsome
            rw [hrefused] at hsome
            rwa [hbefore]
          · intro hok
            rw [hrefused] at hok
            cases hok
      | ok db =>
          have hsteady := hundisturbed snapshot db hload (by rwa [hbefore])
          rw [hbefore] at hsteady
          have hcommit : clone others name id w =
              cloneCommit others name (cloneMutations snapshot) 2
                (referencedDigests (cloneMutations snapshot))
                { (w.run (others 0)).run (others 1) with db := db } := by
            rw [hclone]
            simp only [cloneDecoded, hcreate, checkMutation_clone hcanonical]
          obtain ⟨hnothing, hall⟩ := cloneCommit_steady hcanonical
            (hstart.created hcreate) hsteady
          rw [← hcommit] at hnothing hall
          constructor
          · intro error herror hsome
            rw [hnothing error herror] at hsome
            cases hsome
          · exact fun hok => ⟨snapshot, hload, hall hok⟩

/-! A snapshot of one file, in a store that lost the file's object and in one
that did not. -/

namespace OneFile

def platform : Platform := ⟨asciiUnicode, sha256, fun _ => none⟩

def snapshot : Snapshot :=
  ⟨none, [(['f'], .file true (.blob 1 (sha256 [7])))]⟩

def id : SnapshotId := sha256 snapshot.toBytes

def db : Db := { Db.empty with snapshots := [(id, 0)] }

def lost : World platform :=
  ⟨db, ObjectStore.empty.putBytes snapshot.toBytes, []⟩

def kept : World platform :=
  ⟨db, (ObjectStore.empty.putBytes snapshot.toBytes).putBytes [7], []⟩

def alone : Nat → List Action := fun _ => []

def row : WorkspaceRow := ⟨1, ['w'], 0, 1⟩

/-- The tables once the workspace is created. -/
def created : Db :=
  { db with workspaces := [row], inodes := [⟨1, 1, .directory⟩] }

end OneFile

/-- The commit refuses for want of the object, and the empty workspace stays. -/
theorem clone_leaves_workspace :
    ¬ AllOrNothing OneFile.alone ['w'] OneFile.id OneFile.lost := by
  intro h
  have hresult : (clone OneFile.alone ['w'] OneFile.id OneFile.lost).2 =
      refuse (.missingObject (sha256 [7])) := by
    decide +kernel
  have hleft : ((clone OneFile.alone ['w'] OneFile.id
      OneFile.lost).1.db.workspace ['w']).isSome = true := by
    decide +kernel
  have hbefore : ((cloneStart OneFile.alone OneFile.id
      OneFile.lost).db.workspace ['w']).isSome = false := by
    decide +kernel
  have hwas := h.nothing _ hresult hleft
  rw [hbefore] at hwas
  cases hwas

/-- With the object there, the clone is the snapshot's tree. -/
theorem clone_all_or_nothing_one_file :
    AllOrNothing OneFile.alone ['w'] OneFile.id OneFile.kept := by
  apply clone_all_or_nothing OneFile.kept
  · intro dirent hdirent
    cases hdirent
  · intro snapshot db hload hcreate
    have hread : loadSnapshot OneFile.kept.store OneFile.kept.db OneFile.id =
        .ok OneFile.snapshot := by
      decide +kernel
    have hidle : ∀ turn (w : World OneFile.platform),
        w.run (OneFile.alone turn) = w := fun _ _ => rfl
    have hstart : cloneStart OneFile.alone OneFile.id OneFile.kept =
        OneFile.kept := by
      simp only [cloneStart, hidle, hread]
    have hcreated : createWorkspace OneFile.kept.db ['w'] =
        .ok OneFile.created := by
      decide +kernel
    have hdigests : referencedDigests (cloneMutations OneFile.snapshot) =
        [sha256 [7]] := by
      decide +kernel
    have hexists : OneFile.kept.store.existsObject (sha256 [7]) = true := by
      decide +kernel
    cases hread.symm.trans hload
    rw [hstart] at hcreate ⊢
    cases hcreated.symm.trans hcreate
    rw [hdigests]
    simp only [Steady, hidle, hexists, if_true]
    intro row hrow
    cases (show some OneFile.row = some row from hrow)
    refine ⟨⟨⟨_, List.mem_cons_self, rfl⟩, ⟨_, List.mem_cons_self, rfl⟩,
      fun _ h => absurd h List.not_mem_nil⟩, ?_⟩
    intro digest hdigest
    rw [List.mem_singleton.mp hdigest]
    exact hexists

end TensorFS
