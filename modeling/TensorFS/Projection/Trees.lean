import TensorFS.Projection.Linear

namespace TensorFS.Projection

open Data

variable {P : Platform} {m next : Machine} {who other : Nat}
  {process later found : Process} {call : Call} {dir : Nat} {name token : Text}
  {node : Node} {inode : Nat} {lease : Lease}

/-! Projected trees are whole as long as no reaper takes the lock of a lease
before its creator has. -/

namespace Process

/-- The inode a process holds the lock of. -/
def holds? : Process → Option Nat
  | .creator _ (.working lease _) | .creator _ (.clearing lease _ _)
  | .creator _ (.unlocking lease _) => some lease.inode
  | .reaper _ (.held inode) => some inode
  | _ => none

/-- The lease a creator still works under. -/
def lease? : Process → Option Lease
  | .creator _ (.created lease) | .creator _ (.working lease _) => some lease
  | _ => none

/-- The directory a process is emptying. -/
def empties? : Process → Option Nat
  | .creator _ (.clearing _ _ (.emptying inode))
  | .remover _ (.claimed _ (.emptying inode))
  | .reaper _ (.doomed (.emptying inode)) => some inode
  | _ => none

theorem lease_token (h : process.lease? = some lease) :
    process.token? = some lease.token := by
  unfold lease? at h
  split at h <;> cases h <;> rfl

end Process

/-- A reaper that has found the lease free or gone. -/
def ReapStage.Sampled : ReapStage → Prop
  | .held _ | .doomed _ => True
  | _ => False

theorem Walks.lock {walk : Walk} {rest : Option Walk}
    (h : Walks m dir name walk call rest) :
    (m.perform who call).lock = m.lock := by
  cases h <;> rfl

theorem Walks.empties {walk : Walk}
    (h : Walks m dir name walk call (some (.emptying inode))) :
    walk = .emptying inode ∨
      (call = .nothing ∧ m.disk.lookup dir name = some (.directory inode)) := by
  cases h with
  | enter hlookup => exact .inr ⟨rfl, hlookup⟩
  | erase _ => exact .inl rfl
  | wait => exact .inl rfl

theorem Walks.edits {walk : Walk} {rest : Option Walk}
    (h : Walks m dir name walk call rest) (hinode : call.inode? = some inode) :
    walk = .emptying inode := by
  cases h with
  | erase _ =>
      cases hinode
      rfl
  | _ => cases hinode

namespace Acts

variable (h : Acts P m process call later)
include h

/-- The lock is taken when it is free and given back by who has it. -/
theorem locks (who : Nat) :
    (∃ inode, call = .lock inode ∧ m.lock inode = none ∧
      later.holds? = some inode) ∨
    (∃ inode, call = .unlock inode ∧ process.holds? = some inode ∧
      later.holds? = none) ∨
    ((m.perform who call).lock = m.lock ∧
      (later.holds? = process.holds? ∨ later.holds? = none)) := by
  cases h with
  | take hfree => exact .inl ⟨_, rfl, hfree, rfl⟩
  | hold hfree => exact .inl ⟨_, rfl, hfree, rfl⟩
  | unlock => exact .inr (.inl ⟨_, rfl, rfl, rfl⟩)
  | doom => exact .inr (.inl ⟨_, rfl, rfl, rfl⟩)
  | clear hwalk => exact .inr (.inr ⟨hwalk.lock, .inl rfl⟩)
  | cleared hwalk => exact .inr (.inr ⟨hwalk.lock, .inl rfl⟩)
  | empty hwalk => exact .inr (.inr ⟨hwalk.lock, .inl rfl⟩)
  | emptied hwalk => exact .inr (.inr ⟨hwalk.lock, .inl rfl⟩)
  | reap hwalk => exact .inr (.inr ⟨hwalk.lock, .inl rfl⟩)
  | reaped hwalk => exact .inr (.inr ⟨hwalk.lock, .inl rfl⟩)
  | _ => first
    | exact .inr (.inr ⟨rfl, .inl rfl⟩)
    | exact .inr (.inr ⟨rfl, .inr rfl⟩)

theorem leases : later.lease? = process.lease? ∨ later.lease? = none ∨
    ∃ job token, process = .creator job (.drawn token) ∧
      later.lease? = some ⟨token, m.disk.next⟩ ∧
        call = .makeFile tmpDir (leaseName token) := by
  cases h with
  | create => exact .inr (.inr ⟨_, _, rfl, rfl, rfl⟩)
  | _ => first
    | exact .inl rfl
    | exact .inr (.inl rfl)

/-- A creator under a lease takes no name away. -/
theorem leased_drops (hlease : later.lease? = some lease) :
    ¬ call.Drops dir name := by
  cases h <;> first
    | exact id
    | cases hlease

theorem fills_tmp (hfills : call.Fills m tmpDir name node) :
    ∃ job token, process = .creator job (.drawn token) ∧
      name = leaseName token := by
  cases h with
  | create =>
      obtain ⟨-, rfl, -⟩ := hfills
      exact ⟨_, _, rfl, rfl⟩
  | makeTree => exact absurd hfills.1 (by decide)
  | stage => exact absurd hfills.1 (by decide)
  | finish => exact absurd hfills.1 (by decide)
  | swap => exact absurd hfills.1 (by decide)
  | @claim target token node _ =>
      have htree : tmpDir ≠ snapshotsDir := by decide
      have href : tmpDir ≠ refsDir := by decide
      cases target with
      | tree id => exact absurd hfills.1 htree
      | ref name => exact absurd hfills.1 href
  | clear hwalk => exact absurd hfills hwalk.not_fills
  | cleared hwalk => exact absurd hfills hwalk.not_fills
  | empty hwalk => exact absurd hfills hwalk.not_fills
  | emptied hwalk => exact absurd hfills hwalk.not_fills
  | reap hwalk => exact absurd hfills hwalk.not_fills
  | reaped hwalk => exact absurd hfills hwalk.not_fills
  | _ => exact False.elim hfills

/-- Only the end of a projection gives a tree its name. -/
theorem fills_tree {id : SnapshotId}
    (hfills : call.Fills m snapshotsDir (treeName id) node) :
    ∃ snapshot symlinks lease,
      process =
        .creator (.project snapshot symlinks) (.working lease (.filling [])) ∧
      id = P.sha256 snapshot.toBytes ∧
      m.disk.lookup snapshotsDir (buildingName lease.token) = some node := by
  have hlive : Live snapshotsDir (treeName id) := .inr ⟨rfl, id, rfl⟩
  cases h with
  | create => exact absurd hfills.1 (by decide)
  | makeTree =>
      exact absurd (.inr (.inl hfills.2.1)) hlive.not_behind
  | stage => exact absurd hfills.1 (by decide)
  | swap => exact absurd hfills.1 (by decide)
  | finish =>
      obtain ⟨-, hname, hnode⟩ := hfills
      exact ⟨_, _, _, rfl, Install.toHex_inj hname, hnode⟩
  | claim =>
      exact absurd (.inr (.inr (.inr hfills.2.1))) hlive.not_behind
  | clear hwalk => exact absurd hfills hwalk.not_fills
  | cleared hwalk => exact absurd hfills hwalk.not_fills
  | empty hwalk => exact absurd hfills hwalk.not_fills
  | emptied hwalk => exact absurd hfills hwalk.not_fills
  | reap hwalk => exact absurd hfills hwalk.not_fills
  | reaped hwalk => exact absurd hfills hwalk.not_fills
  | _ => exact False.elim hfills

/-- A scratch name is taken away by the process that has its token, or by a
reaper. -/
theorem drops_behind (hchecked : process.Checked)
    (hdrop : call.Drops dir name) (hbehind : Behind token dir name) :
    process.token? = some token ∨ name = removedName token ∨
      ∃ scratch walk, process = .reaper scratch (.doomed walk) ∧
        scratch.leased = some token := by
  have hcreator : ∀ (job : Job) (lease : Lease),
      dir = (job.scratch lease.token).1 ∧
          name = (job.scratch lease.token).2 →
        some lease.token = some token := by
    rintro job lease ⟨rfl, rfl⟩
    exact congrArg some ((job.scratch_behind lease.token).inj hbehind)
  have hremover : ∀ mine, name = removedName mine →
      some mine = some token := by
    rintro mine rfl
    have hmine : Behind mine dir (removedName mine) := .inr (.inr (.inr rfl))
    exact congrArg some (hmine.inj hbehind)
  have hreaper : ∀ scratch walk, dir = Scratch.dir scratch ∧
      name = scratch.name → name = removedName token ∨
        ∃ found at', Process.reaper scratch (.doomed walk) =
          .reaper found (.doomed at') ∧ found.leased = some token := by
    rintro scratch walk ⟨rfl, rfl⟩
    cases scratch with
    | building mine =>
        have hmine : Behind mine snapshotsDir (buildingName mine) :=
          .inr (.inl rfl)
        exact .inr ⟨_, _, rfl, congrArg some (hmine.inj hbehind)⟩
    | swap mine =>
        have hmine : Behind mine refsDir (swapName mine) :=
          .inr (.inr (.inl rfl))
        exact .inr ⟨_, _, rfl, congrArg some (hmine.inj hbehind)⟩
    | removed at' mine =>
        have hmine : Behind mine at' (removedName mine) :=
          .inr (.inr (.inr rfl))
        exact .inl (congrArg removedName (hmine.inj hbehind))
    | lease mine =>
        have hmine : Behind mine tmpDir (leaseName mine) := .inl ⟨rfl, rfl⟩
        exact .inr ⟨_, _, rfl, congrArg some (hmine.inj hbehind)⟩
  cases h with
  | @finish snapshot symlinks lease _ =>
      exact .inl (hcreator (.project snapshot symlinks) lease hdrop)
  | @swap name id lease inode node _ =>
      exact .inl (hcreator (.set name id) lease hdrop)
  | @claim target mine node _ =>
      obtain ⟨rfl, rfl⟩ := hdrop
      cases target with
      | tree id =>
          have hlive : Live snapshotsDir (treeName id) := .inr ⟨rfl, id, rfl⟩
          exact absurd hbehind hlive.not_behind
      | ref name =>
          have hlive : Live refsDir name := .inl ⟨rfl, hchecked⟩
          exact absurd hbehind hlive.not_behind
  | @unlease job lease outcome =>
      have hmine : Behind lease.token dir name := .inl hdrop
      exact .inl (congrArg some (hmine.inj hbehind))
  | @clear job lease _ _ _ _ hwalk =>
      exact .inl (hcreator job lease (hwalk.drops hdrop))
  | @cleared job lease _ _ _ hwalk =>
      exact .inl (hcreator job lease (hwalk.drops hdrop))
  | empty hwalk => exact .inl (hremover _ (hwalk.drops hdrop).2)
  | emptied hwalk => exact .inl (hremover _ (hwalk.drops hdrop).2)
  | @reap scratch walk _ _ hwalk =>
      exact .inr (hreaper scratch walk (hwalk.drops hdrop))
  | @reaped scratch walk _ hwalk =>
      exact .inr (hreaper scratch walk (hwalk.drops hdrop))
  | _ => exact False.elim hdrop

/-- A tree is changed by its projector, or by who is emptying it. -/
theorem edits_tree (hinode : call.inode? = some inode) :
    (∃ snapshot symlinks lease rest,
      process = .creator (.project snapshot symlinks)
        (.working lease (.filling rest)) ∧
      m.disk.lookup snapshotsDir (buildingName lease.token) =
        some (.directory inode)) ∨
    process.empties? = some inode ∨
    ∃ name id lease,
      process = .creator (.set name id) (.working lease (.staged inode)) ∨
        process =
          .creator (.set name id) (.working lease (.written inode)) := by
  cases h with
  | fill _ htree _ _ =>
      cases hinode
      exact .inl ⟨_, _, _, _, rfl, (Machine.treeAt_eq_some.mp htree).1⟩
  | tear htree =>
      cases hinode
      exact .inl ⟨_, _, _, _, rfl, (Machine.treeAt_eq_some.mp htree).1⟩
  | write =>
      cases hinode
      exact .inr (.inr ⟨_, _, _, .inl rfl⟩)
  | cut =>
      cases hinode
      exact .inr (.inr ⟨_, _, _, .inl rfl⟩)
  | sync =>
      cases hinode
      exact .inr (.inr ⟨_, _, _, .inr rfl⟩)
  | clear hwalk => cases hwalk.edits hinode; exact .inr (.inl rfl)
  | cleared hwalk => cases hwalk.edits hinode; exact .inr (.inl rfl)
  | empty hwalk => cases hwalk.edits hinode; exact .inr (.inl rfl)
  | emptied hwalk => cases hwalk.edits hinode; exact .inr (.inl rfl)
  | reap hwalk => cases hwalk.edits hinode; exact .inr (.inl rfl)
  | reaped hwalk => cases hwalk.edits hinode; exact .inr (.inl rfl)
  | _ => cases hinode

/-- A directory is emptied after it was found under a scratch name. -/
theorem enters (hempties : later.empties? = some inode) :
    process.empties? = some inode ∨
      (call = .nothing ∧ process.lease? = none ∧ ∃ dir name token,
        m.disk.lookup dir name = some (.directory inode) ∧
        Behind token dir name ∧ (process.token? = some token ∨
          name = removedName token ∨ ∃ scratch walk,
            process = .reaper scratch (.doomed walk) ∧
              scratch.leased = some token)) := by
  cases h with
  | @clear job lease outcome walk later call hwalk =>
      cases later with
      | entering => cases hempties
      | emptying found =>
          cases hempties
          rcases hwalk.empties with rfl | ⟨rfl, hlookup⟩
          · exact .inl rfl
          · exact .inr ⟨rfl, rfl, _, _, _, hlookup,
              job.scratch_behind lease.token, .inl rfl⟩
  | @empty target token walk later call hwalk =>
      cases later with
      | entering => cases hempties
      | emptying found =>
          cases hempties
          rcases hwalk.empties with rfl | ⟨rfl, hlookup⟩
          · exact .inl rfl
          · exact .inr ⟨rfl, rfl, _, _, token, hlookup,
              .inr (.inr (.inr rfl)), .inl rfl⟩
  | @reap scratch walk later call hwalk =>
      cases later with
      | entering => cases hempties
      | emptying found =>
          cases hempties
          rcases hwalk.empties with rfl | ⟨rfl, hlookup⟩
          · exact .inl rfl
          · refine .inr ⟨rfl, rfl, scratch.dir, scratch.name, ?_⟩
            cases scratch with
            | building token =>
                exact ⟨token, hlookup, .inr (.inl rfl),
                  .inr (.inr ⟨_, _, rfl, rfl⟩)⟩
            | swap token =>
                exact ⟨token, hlookup, .inr (.inr (.inl rfl)),
                  .inr (.inr ⟨_, _, rfl, rfl⟩)⟩
            | removed dir token =>
                exact ⟨token, hlookup, .inr (.inr (.inr rfl)),
                  .inr (.inl rfl)⟩
            | lease token =>
                exact ⟨token, hlookup, .inl ⟨rfl, rfl⟩,
                  .inr (.inr ⟨_, _, rfl, rfl⟩)⟩
  | _ => cases hempties

theorem before {job : Job} {stage : Stage}
    (hlater : later = .creator job stage) :
    ∃ start, process = .creator job start := by
  cases h <;> cases hlater <;> exact ⟨_, rfl⟩

theorem not_drawn (job : Job) (token : Text) :
    later ≠ .creator job (.drawn token) := by
  cases h <;> simp

/-- A directory is made among the snapshots only. -/
theorem fills_directory (hfills : call.Fills m dir name (.directory inode)) :
    (dir = snapshotsDir ∧ inode = m.disk.next ∧
      ∃ snapshot symlinks lease, name = buildingName lease.token ∧
        process =
          .creator (.project snapshot symlinks) (.working lease .started) ∧
        later = .creator (.project snapshot symlinks)
          (.working lease (.filling snapshot.entries))) ∨
      ∃ source, call = .rename dir source name ∧
        m.disk.lookup dir source = some (.directory inode) := by
  cases h with
  | create => cases hfills.2.2
  | stage => cases hfills.2.2
  | makeTree =>
      obtain ⟨rfl, rfl, hnode⟩ := hfills
      cases hnode
      exact .inl ⟨rfl, rfl, _, _, _, rfl, rfl, rfl⟩
  | finish =>
      obtain ⟨rfl, rfl, hnode⟩ := hfills
      exact .inr ⟨_, rfl, hnode⟩
  | swap =>
      obtain ⟨rfl, rfl, hnode⟩ := hfills
      exact .inr ⟨_, rfl, hnode⟩
  | claim =>
      obtain ⟨rfl, rfl, hnode⟩ := hfills
      exact .inr ⟨_, rfl, hnode⟩
  | clear hwalk => exact absurd hfills hwalk.not_fills
  | cleared hwalk => exact absurd hfills hwalk.not_fills
  | empty hwalk => exact absurd hfills hwalk.not_fills
  | emptied hwalk => exact absurd hfills hwalk.not_fills
  | reap hwalk => exact absurd hfills hwalk.not_fills
  | reaped hwalk => exact absurd hfills hwalk.not_fills
  | _ => exact False.elim hfills

end Acts

/-! What holds of trees. -/

/-- A directory that no reader comes to and nobody fills. -/
structure Doomed (m : Machine) (inode : Nat) : Prop where
  allocated : inode < m.disk.next
  final : ∀ id,
    m.disk.lookup snapshotsDir (treeName id) ≠ some (.directory inode)
  building : ∀ other snapshot symlinks lease rest,
    m.process other = some (.creator (.project snapshot symlinks)
      (.working lease (.filling rest))) →
        m.disk.lookup snapshotsDir (buildingName lease.token) ≠
          some (.directory inode)

/-- A tree that holds one whole snapshot of its name. -/
def Whole (P : Platform) (disk : Volume Text Content) (id : SnapshotId)
    (node : Node) : Prop :=
  ∃ inode tree snapshot symlinks, node = .directory inode ∧
    (disk.inode inode).content = .tree tree ∧
      id = P.sha256 snapshot.toBytes ∧ Canonical P.unicode snapshot ∧
        Complete P symlinks snapshot tree

/-- A tree that holds what its projector has done so far. -/
def Filled (P : Platform) (disk : Volume Text Content) (snapshot : Snapshot)
    (symlinks : Bool) (token : Text) (rest : List (Text × Entry)) : Prop :=
  ∃ inode tree before,
    disk.lookup snapshotsDir (buildingName token) = some (.directory inode) ∧
      (disk.inode inode).content = .tree tree ∧
        snapshot.entries = before ++ rest ∧
          List.Forall₂ (Projects P symlinks snapshot) before tree

structure Trees (P : Platform) (m : Machine) : Prop where
  refs : Refs m
  holds : ∀ who process inode, m.process who = some process →
    process.holds? = some inode → m.lock inode = some who
  plain : ∀ dir name inode,
    m.disk.lookup dir name = some (.directory inode) → dir = snapshotsDir
  single : ∀ left right inode,
    m.disk.lookup snapshotsDir left = some (.directory inode) →
      m.disk.lookup snapshotsDir right = some (.directory inode) →
        left = right
  canonical : ∀ who snapshot symlinks stage,
    m.process who = some (.creator (.project snapshot symlinks) stage) →
      Canonical P.unicode snapshot
  whole : ∀ id node, m.disk.lookup snapshotsDir (treeName id) = some node →
    Whole P m.disk id node
  leased : ∀ who process lease, m.process who = some process →
    process.lease? = some lease →
      m.disk.lookup tmpDir (leaseName lease.token) = some (.file lease.inode)
  filled : ∀ who snapshot symlinks lease rest,
    m.process who = some (.creator (.project snapshot symlinks)
      (.working lease (.filling rest))) →
        Filled P m.disk snapshot symlinks lease.token rest
  doomed : ∀ who process inode, m.process who = some process →
    process.empties? = some inode → Doomed m inode
  drawn : ∀ who scratch stage token other job,
    m.process who = some (.reaper scratch stage) →
      scratch.leased = some token →
        m.process other ≠ some (.creator job (.drawn token))
  opened : ∀ who scratch inode token other process lease,
    m.process who = some (.reaper scratch (.opened inode)) →
      scratch.leased = some token → m.process other = some process →
        process.lease? = some lease → lease.token = token →
          lease.inode = inode
  dead : ∀ who scratch stage token other process lease,
    m.process who = some (.reaper scratch stage) → stage.Sampled →
      scratch.leased = some token → m.process other = some process →
        process.lease? = some lease → lease.token ≠ token

/-- A reaper holds a lease that its creator has made and not yet locked. -/
def Untimely (m : Machine) : Prop :=
  ∃ who scratch inode other job lease,
    m.process who = some (.reaper scratch (.held inode)) ∧
      m.process other = some (.creator job (.created lease)) ∧
        lease.inode = inode

/-- A process that neither holds nor empties anything and has sampled no
lease. -/
structure Process.Idle (P : Platform) (process : Process) : Prop where
  holds : process.holds? = none
  lease : process.lease? = none
  empties : process.empties? = none
  canonical : ∀ snapshot symlinks stage,
    process = .creator (.project snapshot symlinks) stage →
      Canonical P.unicode snapshot
  listed : ∀ scratch stage, process = .reaper scratch stage → stage = .listed

theorem Doomed.frame (h : Doomed m inode) (hdisk : next.disk = m.disk)
    (hprocess : ∀ other snapshot symlinks lease rest,
      next.process other = some (.creator (.project snapshot symlinks)
        (.working lease (.filling rest))) →
          m.process other = some (.creator (.project snapshot symlinks)
            (.working lease (.filling rest)))) : Doomed next inode := by
  constructor
  · rw [hdisk]
    exact h.allocated
  · rw [hdisk]
    exact h.final
  · intro other snapshot symlinks lease rest hfound
    rw [hdisk]
    exact h.building other snapshot symlinks lease rest
      (hprocess other snapshot symlinks lease rest hfound)

namespace Trees

variable (h : Trees P m) (hprocess : m.process who = some process)
  (hact : Acts P m process call later)

section Act

include h hprocess hact

/-- The processes after a call, and where each stood before it. -/
theorem holds_act (hfound :
      ((m.perform who call).become who later).process other = some found)
    (hholds : found.holds? = some inode) :
    (m.perform who call).lock inode = some other := by
  rcases Machine.process_become hfound with ⟨rfl, rfl⟩ | ⟨hne, hold⟩
  · rcases hact.locks other with ⟨taken, rfl, -, htaken⟩ |
      ⟨_, -, -, hnone⟩ | ⟨hlock, hsame | hnone⟩
    · rw [htaken] at hholds
      cases hholds
      exact Function.update_self ..
    · rw [hnone] at hholds
      cases hholds
    · rw [hlock]
      exact h.holds other process inode hprocess (hsame ▸ hholds)
    · rw [hnone] at hholds
      cases hholds
  · rw [Machine.process_perform] at hold
    have hmine := h.holds other found inode hold hholds
    rcases hact.locks who with ⟨taken, rfl, hfree, -⟩ |
      ⟨given, rfl, hgiven, -⟩ | ⟨hlock, -⟩
    · refine (Function.update_of_ne ?_ ..).trans hmine
      rintro rfl
      rw [hfree] at hmine
      cases hmine
    · refine (Function.update_of_ne ?_ ..).trans hmine
      rintro rfl
      rw [h.holds who process _ hprocess hgiven] at hmine
      cases hmine
      exact hne rfl
    · rw [hlock]
      exact hmine

omit hprocess in
theorem plain_act (hlookup : (m.perform who call).disk.lookup dir name =
      some (.directory inode)) : dir = snapshotsDir := by
  rcases lookup_perform hlookup with hfills | ⟨hold, -⟩
  · rcases hact.fills_directory hfills with ⟨hdir, -⟩ | ⟨source, -, hsource⟩
    · exact hdir
    · exact h.plain dir source inode hsource
  · exact h.plain dir name inode hold

omit hprocess in
theorem single_act {left right : Text}
    (hleft : (m.perform who call).disk.lookup snapshotsDir left =
      some (.directory inode))
    (hright : (m.perform who call).disk.lookup snapshotsDir right =
      some (.directory inode)) : left = right := by
  have hmixed : ∀ {first second : Text},
      call.Fills m snapshotsDir first (.directory inode) →
        m.disk.lookup snapshotsDir second = some (.directory inode) →
          call.Drops snapshotsDir second := by
    intro first second hfills hold
    rcases hact.fills_directory hfills with ⟨-, hnext, -⟩ |
      ⟨source, rfl, hsource⟩
    · have hlt := h.refs.sound.lookup_lt hold
      exact absurd hnext (Nat.ne_of_lt hlt)
    · exact ⟨rfl, h.single _ _ _ hold hsource⟩
  rcases lookup_perform hleft with hfillsLeft | ⟨holdLeft, hdropLeft⟩
  · rcases lookup_perform hright with hfillsRight | ⟨holdRight, hdropRight⟩
    · cases call with
      | makeTree at' key => exact hfillsLeft.2.1.trans hfillsRight.2.1.symm
      | makeFile at' key => exact hfillsLeft.2.1.trans hfillsRight.2.1.symm
      | rename at' source target =>
          exact hfillsLeft.2.1.trans hfillsRight.2.1.symm
      | _ => exact False.elim hfillsLeft
    · exact absurd (hmixed hfillsLeft holdRight) hdropRight
  · rcases lookup_perform hright with hfillsRight | ⟨holdRight, -⟩
    · exact absurd (hmixed hfillsRight holdLeft) hdropLeft
    · exact h.single _ _ _ holdLeft holdRight

/-- What is neither filled by this process nor being emptied stays as it is. -/
theorem tree_kept {tree : Tree} (hname : m.disk.lookup snapshotsDir name =
      some (.directory inode))
    (htree : (m.disk.inode inode).content = .tree tree)
    (hdoomed : ¬ Doomed m inode)
    (hown : ∀ snapshot symlinks lease rest,
      process = .creator (.project snapshot symlinks)
        (.working lease (.filling rest)) → name ≠ buildingName lease.token) :
    (m.perform who call).disk.inode inode = m.disk.inode inode := by
  refine inode_perform (h.refs.sound.lookup_lt hname) fun hinode => ?_
  rcases hact.edits_tree hinode with
    ⟨snapshot, symlinks, lease, rest, hfilling, hlookup⟩ | hempties |
    ⟨name, id, lease, rfl | rfl⟩
  · exact hown snapshot symlinks lease rest hfilling
      (h.single _ _ _ hname hlookup)
  · exact hdoomed (h.doomed who process inode hprocess hempties)
  · obtain ⟨-, ⟨bytes, hbytes⟩, -⟩ := h.refs.process who _ hprocess
    rw [hbytes] at htree
    cases htree
  · obtain ⟨-, hbytes, -⟩ := h.refs.process who _ hprocess
    rw [hbytes] at htree
    cases htree

theorem whole_act {id : SnapshotId}
    (hlookup : (m.perform who call).disk.lookup snapshotsDir (treeName id) =
      some node) : Whole P (m.perform who call).disk id node := by
  rcases lookup_perform hlookup with hfills | ⟨hold, -⟩
  · obtain ⟨snapshot, symlinks, lease, rfl, rfl, hsource⟩ :=
      hact.fills_tree hfills
    obtain ⟨inode, tree, before, hbuilding, htree, hentries, hdone⟩ :=
      h.filled who snapshot symlinks lease [] hprocess
    have hsame : (m.perform who call).disk.inode inode =
        m.disk.inode inode := by
      refine inode_perform (h.refs.sound.lookup_lt hbuilding) ?_
      cases hact with
      | finish => exact fun hinode => by cases hinode
      | _ => exact False.elim hfills
    rw [List.append_nil] at hentries
    refine ⟨inode, tree, snapshot, symlinks, ?_, ?_, rfl,
      h.canonical who snapshot symlinks _ hprocess, ?_⟩
    · exact Option.some.inj (hsource.symm.trans hbuilding)
    · exact (congrArg Inode.content hsame).trans htree
    · rw [Complete, hentries]
      exact hdone
  · obtain ⟨inode, tree, snapshot, symlinks, rfl, htree, hid, hcanonical,
      hcomplete⟩ := h.whole id node hold
    have hsame := h.tree_kept hprocess hact hold htree
      (fun hdoomed => hdoomed.final id hold)
      (fun _ _ lease _ _ hname => (Live.not_behind (.inr ⟨rfl, id, rfl⟩))
        (.inr (.inl hname) : Behind lease.token snapshotsDir (treeName id)))
    exact ⟨inode, tree, snapshot, symlinks, rfl,
      (congrArg Inode.content hsame).trans htree, hid, hcanonical, hcomplete⟩

/-- A scratch name of another process outlasts a call, unless a reaper is
entitled to it. -/
theorem behind_kept (hfound : m.process other = some found) (hne : other ≠ who)
    (htoken : found.token? = some token) (hbehind : Behind token dir name)
    (hremoved : name ≠ removedName token)
    (hreaper : ∀ scratch walk, process = .reaper scratch (.doomed walk) →
      scratch.leased ≠ some token)
    (hlookup : m.disk.lookup dir name = some node) :
    (m.perform who call).disk.lookup dir name = some node := by
  have hchecked := h.refs.sound.checked who process hprocess
  have hapart : process.token? ≠ some token := fun hmine =>
    hne (h.refs.sound.apart other who found process token hfound hprocess
      htoken hmine)
  refine lookup_kept hlookup (fun hdrop => ?_) fun node hfills => ?_
  · rcases hact.drops_behind hchecked hdrop hbehind with hmine | hname |
      ⟨scratch, walk, hreap, hleased⟩
    · exact hapart hmine
    · exact hremoved hname
    · exact hreaper scratch walk hreap hleased
  · rcases hact.fills hchecked hfills with ⟨mine, hmine, hmineBehind⟩ | hlive
    · rw [hmineBehind.inj hbehind] at hmine
      exact hapart hmine
    · exact hlive.not_behind hbehind

theorem leased_act (hfound :
      ((m.perform who call).become who later).process other = some found)
    (hlease : found.lease? = some lease) :
    (m.perform who call).disk.lookup tmpDir (leaseName lease.token) =
      some (.file lease.inode) := by
  rcases Machine.process_become hfound with ⟨rfl, rfl⟩ | ⟨hne, hold⟩
  · rcases hact.leases with hsame | hnone | ⟨job, token, rfl, hnew, rfl⟩
    · refine lookup_kept (h.leased other process lease hprocess
        (hsame ▸ hlease)) (hact.leased_drops hlease) fun node hfills => ?_
      obtain ⟨job, token, rfl, -⟩ := hact.fills_tmp hfills
      rw [hlease] at hsame
      cases hsame
    · rw [hnone] at hlease
      cases hlease
    · rw [hnew] at hlease
      cases hlease
      exact if_pos ⟨rfl, rfl⟩
  · rw [Machine.process_perform] at hold
    refine h.behind_kept hprocess hact hold hne (Process.lease_token hlease)
      (.inl ⟨rfl, rfl⟩) ?_ ?_ (h.leased other found lease hold hlease)
    · intro hname
      have hhead := (dotted_iff lease.token).2.2.2
      rw [hname, (dotted_iff lease.token).2.2.1] at hhead
      cases hhead
    · rintro scratch walk rfl hleased
      exact h.dead who scratch _ _ other found lease hprocess trivial hleased
        hold hlease rfl

theorem filled_act {snapshot : Snapshot} {symlinks : Bool}
    {rest : List (Text × Entry)} (hfound :
      ((m.perform who call).become who later).process other =
        some (.creator (.project snapshot symlinks)
          (.working lease (.filling rest)))) :
    Filled P (m.perform who call).disk snapshot symlinks lease.token rest := by
  rcases Machine.process_become hfound with ⟨rfl, rfl⟩ | ⟨hne, hold⟩
  · cases hact with
    | makeTree =>
        exact ⟨m.disk.next, [], [], if_pos ⟨rfl, rfl⟩,
          congrArg Inode.content (@inode_makeTree m other _ _), rfl, .nil⟩
    | @fill _ _ _ path entry _ inode tree after artifact view hhonest htree
        hentry hplace =>
        obtain ⟨hbuilding, hcontent⟩ := Machine.treeAt_eq_some.mp htree
        obtain ⟨found, under, before, hlookup, hunder, hentries, hdone⟩ :=
          h.filled other snapshot symlinks lease _ hprocess
        rw [hbuilding] at hlookup
        cases hlookup
        have hsame : tree = under :=
          Content.tree.inj (hcontent.symm.trans hunder)
        subst hsame
        rw [place_next (h.canonical other snapshot symlinks _ hprocess)
          hentries hdone] at hplace
        cases hplace
        refine ⟨inode, _, before ++ [(path, entry)], hbuilding,
          congrArg Inode.content (@inode_edit m other _ _), ?_, ?_⟩
        · rw [hentries, List.append_assoc, List.singleton_append]
        · exact List.rel_append hdone
            (.cons ⟨rfl, view, hhonest, hentry⟩ .nil)
  · rw [Machine.process_perform] at hold
    obtain ⟨inode, tree, before, hlookup, htree, hentries, hdone⟩ :=
      h.filled other snapshot symlinks lease rest hold
    have hkept := h.behind_kept hprocess hact hold hne rfl
      (.inr (.inl rfl) : Behind lease.token snapshotsDir _)
      (buildingName_ne_removedName _ _)
      (by
        rintro scratch walk rfl hleased
        exact h.dead who scratch _ _ other _ lease hprocess trivial hleased
          hold rfl rfl)
      hlookup
    have hsame := h.tree_kept hprocess hact hlookup htree
      (fun hdoomed => hdoomed.building other snapshot symlinks lease rest hold
        hlookup)
      (by
        rintro _ _ mine _ rfl hname
        exact hne (h.refs.sound.apart other who _ _ lease.token hold hprocess
          rfl (congrArg some (buildingName_inj hname).symm)))
    exact ⟨inode, tree, before, hkept,
      (congrArg Inode.content hsame).trans htree, hentries, hdone⟩

omit hact in
/-- What is found under a scratch name that nobody works under is doomed. -/
theorem doomed_entered (hlookup : m.disk.lookup dir name =
      some (.directory inode)) (hbehind : Behind token dir name)
    (hidle : process.lease? = none)
    (hcause : process.token? = some token ∨ name = removedName token ∨
      ∃ scratch walk, process = .reaper scratch (.doomed walk) ∧
        scratch.leased = some token) : Doomed m inode := by
  have hdir := h.plain dir name inode hlookup
  subst hdir
  refine ⟨h.refs.sound.lookup_lt hlookup, fun id hfinal => ?_, ?_⟩
  · have hname := h.single _ _ _ hlookup hfinal
    exact (Live.not_behind (.inr ⟨rfl, id, rfl⟩)) (hname ▸ hbehind)
  · intro other snapshot symlinks lease rest hother hbuilding
    have hname := h.single _ _ _ hlookup hbuilding
    have hsame : Behind lease.token snapshotsDir name := .inr (.inl hname)
    rw [hbehind.inj hsame] at hcause
    rcases hcause with hmine | hremoved | ⟨scratch, walk, rfl, hleased⟩
    · have hwho := h.refs.sound.apart other who _ process lease.token hother
        hprocess rfl hmine
      subst hwho
      rw [hother] at hprocess
      cases hprocess
      cases hidle
    · exact buildingName_ne_removedName _ _ (hname.symm.trans hremoved)
    · exact h.dead who scratch _ _ other _ lease hprocess trivial hleased
        hother rfl rfl

theorem doomed_kept (hdoomed : Doomed m inode) :
    Doomed ((m.perform who call).become who later) inode where
  allocated := Nat.lt_of_lt_of_le hdoomed.allocated next_perform
  final := by
    intro id hlookup
    rcases lookup_perform hlookup with hfills | ⟨hold, -⟩
    · obtain ⟨snapshot, symlinks, lease, rfl, -, hsource⟩ :=
        hact.fills_tree hfills
      exact hdoomed.building who snapshot symlinks lease [] hprocess hsource
    · exact hdoomed.final id hold
  building := by
    intro other snapshot symlinks lease rest hfound hlookup
    rcases Machine.process_become hfound with ⟨rfl, rfl⟩ | ⟨hne, hold⟩
    · cases hact with
      | makeTree =>
          have hnew : some (Node.directory m.disk.next) =
              some (.directory inode) :=
            (if_pos (And.intro rfl rfl)).symm.trans hlookup
          cases hnew
          exact Nat.lt_irrefl _ hdoomed.allocated
      | fill =>
          exact hdoomed.building other snapshot symlinks lease _ hprocess
            hlookup
    · rw [Machine.process_perform] at hold
      rcases lookup_perform hlookup with hfills | ⟨hbefore, -⟩
      · have hbehind : Behind lease.token snapshotsDir
            (buildingName lease.token) := .inr (.inl rfl)
        rcases hact.fills (h.refs.sound.checked who process hprocess) hfills
          with ⟨mine, hmine, hmineBehind⟩ | hlive
        · rw [hmineBehind.inj hbehind] at hmine
          exact hne (h.refs.sound.apart other who _ process lease.token hold
            hprocess rfl hmine)
        · exact hlive.not_behind hbehind
      · exact hdoomed.building other snapshot symlinks lease rest hold hbefore

theorem doomed_act (hfound :
      ((m.perform who call).become who later).process other = some found)
    (hempties : found.empties? = some inode) :
    Doomed ((m.perform who call).become who later) inode := by
  rcases Machine.process_become hfound with ⟨rfl, rfl⟩ | ⟨-, hold⟩
  · refine h.doomed_kept hprocess hact ?_
    rcases hact.enters hempties with hbefore |
      ⟨-, hidle, dir, name, token, hlookup, hbehind, hcause⟩
    · exact h.doomed other process inode hprocess hbefore
    · exact h.doomed_entered hprocess hlookup hbehind hidle hcause
  · rw [Machine.process_perform] at hold
    exact h.doomed_kept hprocess hact (h.doomed other found inode hold hempties)

/-- A lease of a process after a call that a reaper had a token for before. -/
theorem lease_before {scratch : Scratch} {stage : ReapStage}
    (hreaper : m.process who = some (.reaper scratch stage) ∨
      ∃ reaper, m.process reaper = some (.reaper scratch stage))
    (hleased : scratch.leased = some token)
    (hfound :
      ((m.perform who call).become who later).process other = some found)
    (hlease : found.lease? = some lease) (htoken : lease.token = token) :
    ∃ before, m.process other = some before ∧ before.lease? = some lease := by
  rcases Machine.process_become hfound with ⟨rfl, rfl⟩ | ⟨-, hold⟩
  · rcases hact.leases with hsame | hnone | ⟨job, mine, rfl, hnew, -⟩
    · exact ⟨process, hprocess, hsame ▸ hlease⟩
    · rw [hnone] at hlease
      cases hlease
    · rw [hnew] at hlease
      cases hlease
      subst htoken
      rcases hreaper with hreaper | ⟨reaper, hreaper⟩
      · rw [hreaper] at hprocess
        cases hprocess
      · exact absurd hprocess (h.drawn reaper scratch stage _ other job hreaper
          hleased)
  · rw [Machine.process_perform] at hold
    exact ⟨found, hold, hlease⟩

theorem drawn_act {scratch : Scratch} {stage : ReapStage} {job : Job}
    {reaper : Nat} (hreaper :
      ((m.perform who call).become who later).process reaper =
        some (.reaper scratch stage))
    (hleased : scratch.leased = some token) :
    ((m.perform who call).become who later).process other ≠
      some (.creator job (.drawn token)) := by
  intro hfound
  have hbefore : ∃ before,
      m.process reaper = some (.reaper scratch before) := by
    rcases Machine.process_become hreaper with ⟨rfl, hsame⟩ | ⟨-, hold⟩
    · obtain ⟨before, rfl⟩ := hact.reaper hsame.symm
      exact ⟨before, hprocess⟩
    · rw [Machine.process_perform] at hold
      exact ⟨stage, hold⟩
  obtain ⟨before, hbefore⟩ := hbefore
  rcases Machine.process_become hfound with ⟨rfl, hsame⟩ | ⟨-, hold⟩
  · exact hact.not_drawn job token hsame.symm
  · rw [Machine.process_perform] at hold
    exact h.drawn reaper scratch before token other job hbefore hleased hold

theorem opened_act {scratch : Scratch} {reaper : Nat} (hreaper :
      ((m.perform who call).become who later).process reaper =
        some (.reaper scratch (.opened inode)))
    (hleased : scratch.leased = some token)
    (hfound :
      ((m.perform who call).become who later).process other = some found)
    (hlease : found.lease? = some lease) (htoken : lease.token = token) :
    lease.inode = inode := by
  rcases Machine.process_become hreaper with ⟨rfl, rfl⟩ | ⟨-, hold⟩
  · obtain ⟨stage, rfl⟩ := hact.reaper rfl
    obtain ⟨before, hbefore, hheld⟩ := h.lease_before hprocess hact
      (.inl hprocess) hleased hfound hlease htoken
    cases hact with
    | openLease hmine hlookup =>
        rw [hleased] at hmine
        cases hmine
        have hpath := h.leased other before lease hbefore hheld
        rw [htoken, hlookup] at hpath
        cases hpath
        rfl
  · rw [Machine.process_perform] at hold
    obtain ⟨before, hbefore, hheld⟩ := h.lease_before hprocess hact
      (.inr ⟨reaper, hold⟩) hleased hfound hlease htoken
    exact h.opened reaper scratch inode token other before lease hold hleased
      hbefore hheld htoken

theorem dead_act {scratch : Scratch} {stage : ReapStage} {reaper : Nat}
    (hcalm : ¬ Untimely ((m.perform who call).become who later))
    (hreaper : ((m.perform who call).become who later).process reaper =
      some (.reaper scratch stage)) (hsampled : stage.Sampled)
    (hleased : scratch.leased = some token)
    (hfound :
      ((m.perform who call).become who later).process other = some found)
    (hlease : found.lease? = some lease) : lease.token ≠ token := by
  intro htoken
  have hsame := hreaper
  rcases Machine.process_become hreaper with ⟨rfl, rfl⟩ | ⟨-, hold⟩
  · obtain ⟨start, rfl⟩ := hact.reaper rfl
    obtain ⟨before, hbefore, hheld⟩ := h.lease_before hprocess hact
      (.inl hprocess) hleased hfound hlease htoken
    cases hact with
    | unleased hnone =>
        have hpath := h.leased other before lease hbefore hheld
        rw [htoken, hnone token hleased] at hpath
        cases hpath
    | @hold _ inode hfree =>
        have hinode := h.opened reaper scratch inode token other before lease
          hprocess hleased hbefore hheld htoken
        subst hinode
        rcases Machine.process_become hfound with ⟨rfl, rfl⟩ | ⟨hne, hkept⟩
        · cases hlease
        · unfold Process.lease? at hlease
          split at hlease
          · rename_i job created
            cases hlease
            exact hcalm ⟨reaper, scratch, _, other, job, lease, hsame, hfound,
              rfl⟩
          · rename_i job working work
            cases hlease
            have hlock := h.holds other _ _ hkept rfl
            rw [hfree] at hlock
            cases hlock
          · cases hlease
    | doom =>
        exact h.dead reaper scratch _ token other before lease hprocess trivial
          hleased hbefore hheld htoken
    | reap _ =>
        exact h.dead reaper scratch _ token other before lease hprocess trivial
          hleased hbefore hheld htoken
    | _ => exact False.elim hsampled
  · rw [Machine.process_perform] at hold
    obtain ⟨before, hbefore, hheld⟩ := h.lease_before hprocess hact
      (.inr ⟨reaper, hold⟩) hleased hfound hlease htoken
    exact h.dead reaper scratch stage token other before lease hold hsampled
      hleased hbefore hheld htoken

theorem act
    (hcalm : ¬ Untimely ((m.perform who call).become who later)) :
    Trees P ((m.perform who call).become who later) where
  refs := h.refs.act hprocess hact
  holds _ _ _ hfound hholds := h.holds_act hprocess hact hfound hholds
  plain _ _ _ hlookup := h.plain_act hact hlookup
  single _ _ _ hleft hright := h.single_act hact hleft hright
  canonical := by
    intro other snapshot symlinks stage hfound
    rcases Machine.process_become hfound with ⟨rfl, hsame⟩ | ⟨-, hold⟩
    · obtain ⟨before, rfl⟩ := hact.before hsame.symm
      exact h.canonical other snapshot symlinks before hprocess
    · rw [Machine.process_perform] at hold
      exact h.canonical other snapshot symlinks stage hold
  whole _ _ hlookup := h.whole_act hprocess hact hlookup
  leased _ _ _ hfound hlease := h.leased_act hprocess hact hfound hlease
  filled _ _ _ _ _ hfound := h.filled_act hprocess hact hfound
  doomed _ _ _ hfound hempties := h.doomed_act hprocess hact hfound hempties
  drawn _ _ _ _ _ _ hreaper hleased :=
    h.drawn_act hprocess hact hreaper hleased
  opened _ _ _ _ _ _ _ hreaper hleased hfound hlease htoken :=
    h.opened_act hprocess hact hreaper hleased hfound hlease htoken
  dead _ _ _ _ _ _ _ hreaper hsampled hleased hfound hlease :=
    h.dead_act hprocess hact hcalm hreaper hsampled hleased hfound hlease

end Act

/-- A step that leaves the volume alone and adds idle processes at most. -/
theorem frame (h : Trees P m) (hrefs : Refs next)
    (hdisk : next.disk = m.disk)
    (hlock : ∀ who inode, m.lock inode = some who →
      (next.process who).isSome = true → next.lock inode = some who)
    (hprocesses : ∀ who process, next.process who = some process →
      m.process who = some process ∨ process.Idle P)
    (hdrawn : ∀ who scratch stage token other job,
      next.process who = some (.reaper scratch stage) →
        scratch.leased = some token →
          next.process other ≠ some (.creator job (.drawn token))) :
    Trees P next := by
  have hbusy : ∀ {who process}, next.process who = some process →
      ¬ process.Idle P → m.process who = some process := by
    intro who process hfound hidle
    exact (hprocesses who process hfound).resolve_right hidle
  have hholds : ∀ {process : Process} {inode}, process.holds? = some inode →
      ¬ process.Idle P := by
    intro process inode hsome hidle
    rw [hidle.holds] at hsome
    cases hsome
  have hleases : ∀ {process : Process} {lease}, process.lease? = some lease →
      ¬ process.Idle P := by
    intro process lease hsome hidle
    rw [hidle.lease] at hsome
    cases hsome
  have hempties : ∀ {process : Process} {inode},
      process.empties? = some inode → ¬ process.Idle P := by
    intro process inode hsome hidle
    rw [hidle.empties] at hsome
    cases hsome
  have hstage : ∀ {scratch : Scratch} {stage}, stage ≠ .listed →
      ¬ (Process.reaper scratch stage).Idle P :=
    fun hne hidle => hne (hidle.listed _ _ rfl)
  refine ⟨hrefs, ?_, ?_, ?_, ?_, ?_, ?_, ?_, ?_, hdrawn, ?_, ?_⟩
  · intro who process inode hfound hsome
    refine hlock who inode (h.holds who process inode
      (hbusy hfound (hholds hsome)) hsome) ?_
    rw [hfound]
    rfl
  · rw [hdisk]
    exact h.plain
  · rw [hdisk]
    exact h.single
  · intro who snapshot symlinks stage hfound
    rcases hprocesses who _ hfound with hold | hidle
    · exact h.canonical who snapshot symlinks stage hold
    · exact hidle.canonical snapshot symlinks stage rfl
  · rw [hdisk]
    exact h.whole
  · intro who process lease hfound hsome
    rw [hdisk]
    exact h.leased who process lease (hbusy hfound (hleases hsome)) hsome
  · intro who snapshot symlinks lease rest hfound
    rw [hdisk]
    exact h.filled who snapshot symlinks lease rest
      (hbusy hfound (hleases rfl))
  · intro who process inode hfound hsome
    exact (h.doomed who process inode (hbusy hfound (hempties hsome))
      hsome).frame hdisk fun other snapshot symlinks lease rest hother =>
        hbusy hother (hleases rfl)
  · intro who scratch inode token other process lease hreaper hleased hfound
      hsome
    exact h.opened who scratch inode token other process lease
      (hbusy hreaper (hstage (by simp))) hleased (hbusy hfound (hleases hsome))
      hsome
  · intro who scratch stage token other process lease hreaper hsampled hleased
      hfound hsome
    refine h.dead who scratch stage token other process lease
      (hbusy hreaper (hstage ?_)) hsampled hleased
      (hbusy hfound (hleases hsome)) hsome
    rintro rfl
    exact hsampled

theorem begin (h : Trees P m) (hrefs : Refs (m.become who process))
    (hidle : process.Idle P)
    (hdrawn : ∀ scratch stage token other job,
      process = .reaper scratch stage → scratch.leased = some token →
        m.process other ≠ some (.creator job (.drawn token)))
    (hfresh : ∀ job token, process ≠ .creator job (.drawn token)) :
    Trees P (m.become who process) := by
  refine h.frame hrefs rfl (fun _ _ hlock _ => hlock) ?_ ?_
  · intro other found hfound
    rcases Machine.process_become hfound with ⟨rfl, rfl⟩ | ⟨-, hold⟩
    · exact .inr hidle
    · exact .inl hold
  · intro reaper scratch stage token other job hreaper hleased hfound
    rcases Machine.process_become hfound with ⟨rfl, hsame⟩ | ⟨-, hold⟩
    · exact hfresh job token hsame.symm
    · rcases Machine.process_become hreaper with ⟨rfl, hsame⟩ | ⟨-, hbefore⟩
      · exact hdrawn scratch stage token other job hsame.symm hleased hold
      · exact h.drawn reaper scratch stage token other job hbefore hleased hold

/-- A name that is listed is not the unused one of a process that waits. -/
theorem listed_drawn (h : Trees P m) {scratch : Scratch} {job : Job}
    (hlisted : (m.disk.lookup scratch.dir scratch.name).isSome = true)
    (hleased : scratch.leased = some token) :
    m.process other ≠ some (.creator job (.drawn token)) := by
  intro hother
  obtain ⟨node, hnode⟩ := Option.isSome_iff_exists.mp hlisted
  refine h.refs.sound.unused other _ scratch.dir scratch.name node hother ?_
    (hnode ▸ Volume.lookup_mem)
  cases scratch with
  | building found =>
      cases hleased
      exact .inr (.inl rfl)
  | swap found =>
      cases hleased
      exact .inr (.inr rfl)
  | removed dir found => cases hleased
  | lease found =>
      cases hleased
      exact .inl ⟨rfl, rfl⟩

theorem move (h : Trees P m) (hmove : Move P m next)
    (hcalm : ¬ Untimely next) : Trees P next := by
  have hrefs := h.refs.move hmove
  cases hmove with
  | project symlinks _ hcanonical =>
      refine h.begin hrefs
        ⟨rfl, rfl, rfl, ?_, (fun _ _ hsame => by cases hsame)⟩
        (fun _ _ _ _ _ hsame => by cases hsame)
        (fun _ _ hsame => by cases hsame)
      intro snapshot symlinks stage hsame
      cases hsame
      exact hcanonical
  | set name id _ =>
      exact h.begin hrefs ⟨rfl, rfl, rfl, (fun _ _ _ hsame => by cases hsame),
        (fun _ _ hsame => by cases hsame)⟩
        (fun _ _ _ _ _ hsame => by cases hsame)
        (fun _ _ hsame => by cases hsame)
  | read name _ =>
      exact h.begin hrefs ⟨rfl, rfl, rfl, (fun _ _ _ hsame => by cases hsame),
        (fun _ _ hsame => by cases hsame)⟩
        (fun _ _ _ _ _ hsame => by cases hsame)
        (fun _ _ hsame => by cases hsame)
  | remove target _ =>
      exact h.begin hrefs ⟨rfl, rfl, rfl, (fun _ _ _ hsame => by cases hsame),
        (fun _ _ hsame => by cases hsame)⟩
        (fun _ _ _ _ _ hsame => by cases hsame)
        (fun _ _ hsame => by cases hsame)
  | reap _ _ hlisted =>
      refine h.begin hrefs ⟨rfl, rfl, rfl, (fun _ _ _ hsame => by cases hsame),
        ?_⟩ ?_ (fun _ _ hsame => by cases hsame)
      · intro found stage hsame
        cases hsame
        rfl
      · intro found stage token other job hsame hleased
        cases hsame
        exact h.listed_drawn hlisted hleased
  | @draw who _ _ _ waiting drawn hwaiting hissued hdraw =>
      have hshape : drawn.Idle P ∧
          ∀ scratch stage, drawn ≠ .reaper scratch stage := by
        unfold Process.draw at hdraw
        split at hdraw
        · rename_i job
          cases hdraw
          refine ⟨⟨rfl, rfl, rfl, ?_, (fun _ _ hsame => by cases hsame)⟩,
            (fun _ _ hsame => by cases hsame)⟩
          intro snapshot symlinks stage hsame
          cases hsame
          exact h.canonical who snapshot symlinks _ hwaiting
        · cases hdraw
          exact ⟨⟨rfl, rfl, rfl, (fun _ _ _ hsame => by cases hsame),
            (fun _ _ hsame => by cases hsame)⟩,
            (fun _ _ hsame => by cases hsame)⟩
        · cases hdraw
      refine h.frame hrefs rfl (fun _ _ hlock _ => hlock) ?_ ?_
      · intro other found hfound
        rcases Machine.process_become hfound with ⟨rfl, rfl⟩ | ⟨-, hold⟩
        · exact .inr hshape.1
        · exact .inl hold
      · intro reaper scratch stage token other job hreaper hleased hfound
        rcases Machine.process_become hreaper with ⟨rfl, hsame⟩ | ⟨-, hbefore⟩
        · exact hshape.2 scratch stage hsame.symm
        · rcases Machine.process_become hfound with ⟨rfl, hsame⟩ | ⟨-, hold⟩
          · have htoken := h.refs.sound.sampled reaper scratch stage token
              hbefore hleased
            unfold Process.draw at hdraw
            split at hdraw
            · cases hdraw
              cases hsame
              exact hissued htoken
            · cases hdraw
              cases hsame
            · cases hdraw
          · exact h.drawn reaper scratch stage token other job hbefore hleased
              hold
  | advance hprocess hhonest hplan =>
      exact h.act hprocess (plan_acts hhonest hplan) hcalm
  | kill who =>
      refine h.frame hrefs rfl ?_ ?_ ?_
      · intro other inode hlock hsome
        have hne : other ≠ who := by
          rintro rfl
          simp [Machine.kill] at hsome
        refine (if_neg ?_).trans hlock
        rw [hlock]
        exact fun hsame => hne (Option.some.inj hsame)
      · exact fun other found hfound =>
          .inl (Machine.process_kill hfound).2
      · intro reaper scratch stage token other job hreaper hleased hfound
        exact h.drawn reaper scratch stage token other job
          (Machine.process_kill hreaper).2 hleased
          (Machine.process_kill hfound).2

theorem start : Trees P .start where
  refs := .start
  holds _ _ _ hfound := by cases hfound
  plain _ _ _ hlookup := by cases hlookup
  single _ _ _ hlookup := by cases hlookup
  canonical _ _ _ _ hfound := by cases hfound
  whole _ _ hlookup := by cases hlookup
  leased _ _ _ hfound := by cases hfound
  filled _ _ _ _ _ hfound := by cases hfound
  doomed _ _ _ hfound := by cases hfound
  drawn _ _ _ _ _ _ hreaper := by cases hreaper
  opened _ _ _ _ _ _ _ hreaper := by cases hreaper
  dead _ _ _ _ _ _ _ hreaper := by cases hreaper

end Trees

end TensorFS.Projection
