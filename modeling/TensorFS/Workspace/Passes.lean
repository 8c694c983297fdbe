import TensorFS.Data.Reclaim
import TensorFS.Workspace.Roots

namespace TensorFS

open Data

variable {P : Platform}

/-! Only a collection pass moves the epoch and the quarantine. -/

def Db.SameShelf (db db' : Db) : Prop :=
  db'.epoch = db.epoch ∧ db'.quarantine = db.quarantine

namespace Db

variable {db db' db'' : Db}

theorem SameShelf.refl (db : Db) : SameShelf db db := ⟨rfl, rfl⟩

theorem SameShelf.trans (h : SameShelf db db') (h' : SameShelf db' db'') :
    SameShelf db db'' :=
  ⟨h'.1.trans h.1, h'.2.trans h.2⟩

theorem SameRoots.shelf (h : SameRoots db db') : SameShelf db db' :=
  ⟨h.epoch, h.quarantine⟩

theorem insertSnapshot_shelf {id : SnapshotId} {generation : Nat} :
    SameShelf db (db.insertSnapshot id generation) := by
  unfold insertSnapshot
  split
  · exact .refl db
  · exact ⟨rfl, rfl⟩

theorem sealGeneration_shelf {workspace : WorkspaceRow}
    {jobs : List SealJob} :
    SameShelf db (db.sealGeneration workspace jobs) := by
  unfold sealGeneration
  split
  · exact .refl db
  · exact ⟨rfl, rfl⟩

end Db

section

variable {db db' : Db}

theorem createWorkspace_shelf {name : Text}
    (h : createWorkspace db name = .ok db') : db.SameShelf db' := by
  simp only [createWorkspace, except_bind_eq_ok, require_eq_ok, exists_unit,
    Prod.exists, Db.insertInode_eq_ok, Except.ok.injEq] at h
  obtain ⟨_, _, _, ⟨_, _, rfl⟩, rfl⟩ := h
  exact ⟨rfl, rfl⟩

theorem deleteWorkspace_shelf {name : Text}
    (h : deleteWorkspace db name = .ok db') : db.SameShelf db' := by
  simp only [deleteWorkspace, except_bind_eq_ok, require_eq_ok, exists_unit,
    Except.ok.injEq] at h
  obtain ⟨_, _, _, rfl⟩ := h
  exact ⟨rfl, rfl⟩

theorem deleteSnapshot_shelf {id : SnapshotId}
    (h : deleteSnapshot db id = .ok db') : db.SameShelf db' := by
  simp only [deleteSnapshot, except_bind_eq_ok, require_eq_ok, exists_unit,
    Except.ok.injEq] at h
  obtain ⟨_, rfl⟩ := h
  exact ⟨rfl, rfl⟩

theorem acquireUnlinkedLease_shelf {U : Unicode} {name path holder : Text}
    {lease : Nat}
    (h : acquireUnlinkedLease U db name path holder = .ok (db', lease)) :
    db.SameShelf db' := by
  simp only [acquireUnlinkedLease, except_bind_eq_ok, require_eq_ok,
    exists_unit, Except.ok.injEq, Prod.mk.injEq] at h
  obtain ⟨_, _, _, _, _, rfl, _⟩ := h
  exact ⟨rfl, rfl⟩

theorem acquirePendingSyncLease_shelf {store : ObjectStore P}
    {id : SnapshotId} {holder : Text} {granted : Nat × Snapshot}
    (h : acquirePendingSyncLease store db id holder = .ok (db', granted)) :
    db.SameShelf db' := by
  simp only [acquirePendingSyncLease, except_bind_eq_ok, Except.ok.injEq,
    Prod.mk.injEq] at h
  obtain ⟨_, _, rfl, _⟩ := h
  exact ⟨rfl, rfl⟩

theorem releaseLease_shelf {lease : Nat}
    (h : releaseLease db lease = .ok db') : db.SameShelf db' := by
  unfold releaseLease at h
  split at h
  · cases h
  · cases h
    exact ⟨rfl, rfl⟩
  · have hdropped := (Db.dropInodeIfOrphaned_within h).1.shelf
    exact hdropped

theorem commitTransaction_shelf {store : ObjectStore P} {name : Text}
    {mutations : List Mutation}
    (h : commitTransaction P store db name mutations = .ok db') :
    db.SameShelf db' := by
  obtain ⟨_, workspace, middle, _, hmutations, rfl⟩ :=
    commitTransaction_eq_ok.mp h
  exact (applyMutations_roots hmutations).1.shelf

theorem sealTransaction_shelf {store store' : ObjectStore P} {name : Text}
    {parent : Option SnapshotId} {generation : Nat} {jobs : List SealJob}
    {id : SnapshotId}
    (h : sealTransaction store db name parent generation jobs =
      .ok (some (db', store', id))) : db.SameShelf db' := by
  obtain ⟨workspace, middle, _, _, hjobs, rfl⟩ := sealTransaction_eq_ok h
  exact ((applySealJobs_roots hjobs).1.shelf.trans
    Db.sealGeneration_shelf).trans Db.insertSnapshot_shelf

theorem advanceCall_shelf {store : ObjectStore P} {call : Call} :
    db.SameShelf (advanceCall db store call).db := by
  have hmove : TableMove store db call (advanceCall db store call).db :=
    advanceCall_move
  generalize (advanceCall db store call).db = moved at hmove ⊢
  cases hmove with
  | stays => exact .refl db
  | committed hcommit => exact commitTransaction_shelf hcommit
  | sealed hseal => exact sealTransaction_shelf hseal
  | rooted id => exact Db.insertSnapshot_shelf

end

namespace World

theorem settle_shelf {w : World P} {outcome : Outcome Db}
    (h : ∀ db, outcome = .ok db → w.db.SameShelf db) :
    w.db.SameShelf (w.settle outcome).db := by
  cases outcome with
  | ok db => exact h db rfl
  | error failure => exact .refl w.db

theorem step_shelf {w : World P} {action : Action}
    (h : action ≠ .collect) : w.db.SameShelf (w.step action).db := by
  cases action with
  | createWorkspace name =>
      exact settle_shelf fun db hdb => createWorkspace_shelf hdb
  | deleteWorkspace name =>
      exact settle_shelf fun db hdb => deleteWorkspace_shelf hdb
  | deleteSnapshot id =>
      exact settle_shelf fun db hdb => deleteSnapshot_shelf hdb
  | acquireUnlinkedLease name path holder =>
      refine settle_shelf fun db hdb => ?_
      obtain ⟨⟨found, lease⟩, hfound, rfl⟩ := except_map_eq_ok.mp hdb
      exact acquireUnlinkedLease_shelf hfound
  | acquirePendingSyncLease id holder =>
      refine settle_shelf fun db hdb => ?_
      obtain ⟨⟨found, granted⟩, hfound, rfl⟩ := except_map_eq_ok.mp hdb
      exact acquirePendingSyncLease_shelf hfound
  | releaseLease lease =>
      exact settle_shelf fun db hdb => releaseLease_shelf hdb
  | collect => exact absurd rfl h
  | admitObject bytes => exact .refl w.db
  | beginCommit name mutations =>
      simp only [step]
      split
      · exact .refl w.db
      · exact .refl w.db
  | beginSeal seams name parent => exact .refl w.db
  | beginAdopt bytes =>
      simp only [step]
      split
      · exact .refl w.db
      · exact .refl w.db
  | advance index =>
      simp only [step]
      split
      · exact advanceCall_shelf
      · exact .refl w.db

end World

/-! The passes of a run. -/

/-- A collection pass that succeeded: the world it read, its roots and the
world it left. -/
structure Pass (P : Platform) where
  before : World P
  marks : Mark
  after : World P

namespace Pass

variable (pass : Pass P) (digest : ObjectDigest)

def Resident : Prop := pass.before.store.existsObject digest = true

def Rooted : Prop := pass.marks.isRooted digest = true

def Deletes : Prop :=
  pass.Resident digest ∧ pass.after.store.existsObject digest = false

def sweep : Sweep ObjectDigest :=
  ⟨{digest | pass.Resident digest}, {digest | pass.Rooted digest}⟩

end Pass

namespace World

def pass? (w : World P) : Action → Option (Pass P)
  | .collect =>
      match mark w.store w.db with
      | .ok marks => some ⟨w, marks, w.step .collect⟩
      | .error _ => none
  | _ => none

/-- The successful passes of a run, in order. -/
def passes : World P → List Action → List (Pass P)
  | _, [] => []
  | w, action :: actions =>
      (w.pass? action).toList ++ passes (w.step action) actions

/-- The tables' quarantine is the shelf the passes so far have built. -/
structure Tracks (w : World P) (history : List (Pass P)) : Prop where
  epoch : w.db.epoch = history.length
  rows : ∀ row, row ∈ w.db.quarantine ↔
    row ∈ (Shelf.after (history.map Pass.sweep)).rows

/-- What a pass reads and leaves, after the passes before it. -/
structure Swept (history : List (Pass P)) (pass : Pass P) : Prop where
  tracks : pass.before.Tracks history
  marks : mark pass.before.store pass.before.db = .ok pass.marks
  after : pass.after = pass.before.step .collect

variable {w : World P} {history : List (Pass P)} {pass : Pass P}
  {digest : ObjectDigest}

theorem existsObject_removeObjects {store : ObjectStore P}
    {digests : List ObjectDigest} :
    (removeObjects store digests).existsObject digest = true ↔
      store.existsObject digest = true ∧ digest ∉ digests := by
  unfold removeObjects
  induction digests generalizing store with
  | nil => simp
  | cons head rest ih =>
      rw [List.foldl_cons, ih, ObjectStore.existsObject_removeObject,
        List.mem_cons, not_or, and_assoc]

theorem step_collect {marks : Mark} (h : mark w.store w.db = .ok marks) :
    w.step .collect = ⟨{ w.db with
        epoch := w.db.epoch + 1
        quarantine :=
          w.db.quarantine.filter (marks.stays w.store (w.db.epoch + 1)) ++
            (w.store.eachObject.filter (marks.isNew w.db)).map
              fun digest => (digest, w.db.epoch + 1) },
      removeObjects w.store
        ((w.db.quarantine.filter
          (marks.isDue w.store (w.db.epoch + 1))).map Prod.fst),
      w.calls⟩ := by
  simp only [step, collect, h, except_ok_bind]

theorem mem_idle : digest ∈ pass.sweep.idle ↔
    pass.Resident digest ∧ pass.marks.isRooted digest = false := by
  rw [← Bool.not_eq_true]
  rfl

theorem Swept.deletes (h : Swept history pass) :
    pass.Deletes digest ↔
      digest ∈ (Shelf.after (history.map Pass.sweep)).due pass.sweep := by
  unfold Pass.Deletes
  rw [← Bool.not_eq_true, h.after, step_collect h.marks,
    existsObject_removeObjects]
  simp only [not_and, not_not, Shelf.due, Shelf.epoch_after, List.length_map,
    ← h.tracks.rows, ← h.tracks.epoch, Set.mem_ofPred_eq, mem_idle,
    List.mem_map, List.mem_filter, Mark.isDue, Bool.and_eq_true,
    Bool.not_eq_true', decide_eq_true_eq, Prod.exists, exists_and_right,
    exists_eq_right]
  constructor
  · rintro ⟨hresident, hdue⟩
    obtain ⟨epoch, hrow, ⟨hrooted, _⟩, hle⟩ := hdue hresident
    exact ⟨⟨hresident, hrooted⟩, epoch, hrow, hle⟩
  · rintro ⟨⟨hresident, hrooted⟩, epoch, hrow, hle⟩
    exact ⟨hresident, fun _ => ⟨epoch, hrow, ⟨hrooted, hresident⟩, hle⟩⟩

theorem Swept.next (h : Swept history pass) :
    pass.after.Tracks (history ++ [pass]) := by
  rw [h.after, step_collect h.marks]
  refine ⟨by simp [h.tracks.epoch], fun row => ?_⟩
  rw [List.map_append, List.map_singleton, Shelf.after_snoc, List.mem_append]
  refine or_congr ?_ ?_
  · simp only [List.mem_filter, Mark.stays, Bool.and_eq_true,
      Bool.not_eq_true', decide_eq_false_iff_not, Shelf.kept,
      Shelf.epoch_after, List.length_map, ← h.tracks.rows, ← h.tracks.epoch,
      Set.mem_ofPred_eq, mem_idle]
    constructor
    · rintro ⟨hrow, ⟨hrooted, hresident⟩, hyoung⟩
      exact ⟨hrow, ⟨hresident, hrooted⟩, hyoung⟩
    · rintro ⟨hrow, ⟨hresident, hrooted⟩, hyoung⟩
      exact ⟨hrow, ⟨hrooted, hresident⟩, hyoung⟩
  · simp only [List.mem_map, List.mem_filter, Mark.isNew, Bool.and_eq_true,
      Bool.not_eq_true', ObjectStore.mem_eachObject, Shelf.fresh,
      Shelf.epoch_after, List.length_map, ← h.tracks.rows, ← h.tracks.epoch,
      Set.mem_ofPred_eq, mem_idle]
    constructor
    · rintro ⟨digest, ⟨hresident, hrooted, hnew⟩, rfl⟩
      refine ⟨⟨hresident, hrooted⟩, fun epoch hrow => ?_, rfl⟩
      rw [← Bool.not_eq_true, List.contains_iff_mem] at hnew
      exact hnew (List.mem_map.mpr ⟨_, hrow, rfl⟩)
    · rintro ⟨⟨hresident, hrooted⟩, hnew, hepoch⟩
      refine ⟨row.1, ⟨hresident, hrooted, ?_⟩, Prod.ext rfl hepoch.symm⟩
      rw [← Bool.not_eq_true, List.contains_iff_mem]
      intro hold
      obtain ⟨⟨_, epoch⟩, hrow, rfl⟩ := List.mem_map.mp hold
      exact hnew epoch hrow

theorem Tracks.step (h : w.Tracks history) {action : Action}
    (hpass : w.pass? action = none) : (w.step action).Tracks history := by
  by_cases hcollect : action = .collect
  · subst hcollect
    have hfailed : ∃ failure, mark w.store w.db = .error failure := by
      simp only [pass?] at hpass
      split at hpass
      · cases hpass
      · rename_i failure hfailure
        exact ⟨failure, hfailure⟩
    obtain ⟨failure, hfailure⟩ := hfailed
    simpa only [World.step, collect, hfailure, except_error_bind] using h
  · obtain ⟨hepoch, hrows⟩ := step_shelf hcollect
    exact ⟨by rw [hepoch, h.epoch], fun row => by rw [hrows, h.rows]⟩

theorem pass?_eq_some {action : Action} (h : w.pass? action = some pass) :
    action = .collect ∧ pass.before = w ∧
      mark w.store w.db = .ok pass.marks ∧ pass.after = w.step .collect := by
  cases action with
  | collect =>
      simp only [pass?] at h
      split at h
      · rename_i marks hmarks
        cases h
        exact ⟨rfl, rfl, hmarks, rfl⟩
      · cases h
  | _ => cases h

/-- Each pass of a run reads the shelf the passes before it have built. -/
theorem Tracks.passes (h : w.Tracks history) {actions : List Action} {i : Nat}
    (hpass : (w.passes actions)[i]? = some pass) :
    Swept (history ++ (w.passes actions).take i) pass := by
  induction actions generalizing w history i with
  | nil => simp [World.passes] at hpass
  | cons action actions ih =>
      rw [World.passes] at hpass ⊢
      cases hfirst : w.pass? action with
      | none =>
          rw [hfirst] at hpass
          exact ih (h.step hfirst) hpass
      | some first =>
          rw [hfirst] at hpass
          obtain ⟨rfl, rfl, hmarks, hafter⟩ := pass?_eq_some hfirst
          have hswept : Swept history first := ⟨h, hmarks, hafter⟩
          cases i with
          | zero =>
              cases hpass
              simpa using hswept
          | succ i =>
              have hnext := hswept.next
              rw [hafter] at hnext
              simpa using ih hnext hpass

end World

/-- The two-epoch law on the passes of a run: the pass at epoch `i + 1` is the
`i`-th. -/
structure TwoEpochs (passes : List (Pass P)) : Prop where
  epoch : ∀ (i : Nat) (pass : Pass P), passes[i]? = some pass →
    pass.after.db.epoch = i + 1
  deleted : ∀ (i : Nat) (pass : Pass P) (digest : ObjectDigest),
    passes[i]? = some pass → pass.Deletes digest →
      2 ≤ i ∧ ∀ j, i ≤ j + 2 → j ≤ i →
        ∃ other, passes[j]? = some other ∧ other.Resident digest ∧
          ¬ other.Rooted digest
  rooted : ∀ (i : Nat) (pass : Pass P) (digest : ObjectDigest),
    passes[i]? = some pass → pass.Rooted digest →
      ¬ pass.Deletes digest ∧ ∀ row ∈ pass.after.db.quarantine, row.1 ≠ digest
  reclaimed : ∀ (i : Nat) (first second third : Pass P)
    (digest : ObjectDigest), passes[i]? = some first →
      passes[i + 1]? = some second → passes[i + 2]? = some third →
      (∀ pass ∈ [first, second, third],
        pass.Resident digest ∧ ¬ pass.Rooted digest) →
      ∃ pass ∈ [first, second, third], pass.Deletes digest

theorem World.tracks_empty : (World.empty : World P).Tracks [] :=
  ⟨rfl, fun row => by simp [World.empty, Db.empty, Shelf.empty]⟩

theorem Pass.mem_idle {pass : Pass P} {digest : ObjectDigest} :
    digest ∈ pass.sweep.idle ↔ pass.Resident digest ∧ ¬ pass.Rooted digest :=
  Iff.rfl

/-- Passes that each read the shelf of the ones before keep the law. -/
theorem twoEpochs_of_swept {passes : List (Pass P)}
    (hswept : ∀ (i : Nat) (pass : Pass P), passes[i]? = some pass →
      World.Swept (passes.take i) pass) : TwoEpochs passes := by
  have hlength : ∀ (i : Nat) (pass : Pass P), passes[i]? = some pass →
      (passes.take i).length = i := by
    intro i pass hpass
    have hlt := (List.getElem?_eq_some_iff.mp hpass).1
    simpa using hlt.le
  have htake : ∀ (i : Nat) (pass : Pass P), passes[i]? = some pass →
      passes.take (i + 1) = passes.take i ++ [pass] := by
    intro i pass hpass
    rw [List.take_add_one, hpass]
    rfl
  refine ⟨?_, ?_, ?_, ?_⟩
  · intro i pass hpass
    rw [(hswept i pass hpass).next.epoch, List.length_append,
      hlength i pass hpass, List.length_singleton]
  · intro i pass digest hpass hdeletes
    obtain ⟨htwo, hidle, hbefore⟩ :=
      Shelf.idle_of_due ((hswept i pass hpass).deletes.mp hdeletes)
    rw [List.length_map, hlength i pass hpass] at htwo hbefore
    refine ⟨htwo, fun j hrecent hle => ?_⟩
    rcases Nat.lt_or_eq_of_le hle with hlt | rfl
    · obtain ⟨sweep, hsweep, hswept⟩ := hbefore j hrecent hlt
      rw [List.getElem?_map, List.getElem?_take_of_lt hlt,
        Option.map_eq_some_iff] at hsweep
      obtain ⟨other, hother, rfl⟩ := hsweep
      exact ⟨other, hother, Pass.mem_idle.mp hswept⟩
    · exact ⟨pass, hpass, Pass.mem_idle.mp hidle⟩
  · intro i pass digest hpass hrooted
    have hpasses := hswept i pass hpass
    refine ⟨fun hdeletes => ?_, fun row hrow heq => ?_⟩
    · exact (Pass.mem_idle.mp (hpasses.deletes.mp hdeletes).1).2 hrooted
    · subst heq
      have hshelf := (hpasses.next.rows row).mp hrow
      rw [List.map_append, List.map_singleton, Shelf.after_snoc] at hshelf
      exact Shelf.not_mem_rows_of_rooted _ hrooted hshelf
  · intro i first second third digest hfirst hsecond hthird hidle
    have hidle' : ∀ pass ∈ [first, second, third],
        digest ∈ pass.sweep.idle :=
      fun pass hpass => Pass.mem_idle.mpr (hidle pass hpass)
    have hdue := @Shelf.due_of_idle _ ((passes.take i).map Pass.sweep) digest
      first.sweep second.sweep third.sweep (hidle' first (by simp))
      (hidle' second (by simp)) (hidle' third (by simp))
    rcases hdue with hdue | hdue | hdue
    · exact ⟨first, by simp, (hswept i first hfirst).deletes.mpr hdue⟩
    · refine ⟨second, by simp, (hswept _ second hsecond).deletes.mpr ?_⟩
      rw [htake i first hfirst, List.map_append, List.map_singleton]
      exact hdue
    · refine ⟨third, by simp, (hswept _ third hthird).deletes.mpr ?_⟩
      rw [htake (i + 1) second hsecond, htake i first hfirst]
      simpa using hdue

/-- Every run of store operations keeps the two-epoch law. -/
theorem collect_two_epochs (P : Platform) (actions : List Action) :
    TwoEpochs ((World.empty : World P).passes actions) := by
  refine twoEpochs_of_swept fun i pass hpass => ?_
  simpa using World.tracks_empty.passes hpass

end TensorFS
