import TensorFS.Projection.Trees

namespace TensorFS.Projection

open Data

variable {P : Platform} {m next : Machine} {who : Nat} {process : Process}
  {node : Node} {lease : Lease}

/-! Whole trees in every calm run. -/

/-- A step without a crash, after which no reaper holds a lease that its
creator has yet to lock. -/
def CalmStep (P : Platform) (m next : Machine) : Prop :=
  Move P m next ∧ ¬ Untimely next

def CalmRun (P : Platform) (m : Machine) : Prop :=
  Relation.ReflTransGen (CalmStep P) .start m

theorem CalmRun.trees (h : CalmRun P m) : Trees P m := by
  induction h with
  | refl => exact .start
  | tail _ hstep ih => exact ih.move hstep.1 hstep.2

/-- Whatever stands under the name of a snapshot is a whole projection of it,
whoever was killed, failed, raced or reaped on the way. -/
theorem tree_whole (hrun : CalmRun P m) {id : SnapshotId}
    (hlookup : m.disk.lookup snapshotsDir (treeName id) = some node) :
    ∃ inode tree snapshot symlinks, node = .directory inode ∧
      m.content inode = .tree tree ∧ id = P.sha256 snapshot.toBytes ∧
        Canonical P.unicode snapshot ∧ Complete P symlinks snapshot tree :=
  hrun.trees.whole id node hlookup

/-- The next call of a projection when nothing fails.  Its scratch holds the
artifacts of the entries it has placed and nothing else; it takes its name once
that is all of them, and loses it to a whole tree only. -/
inductive Onward (P : Platform) (m : Machine) (snapshot : Snapshot)
    (symlinks : Bool) (lease : Lease) : Work → Call → Stage → Prop where
  | made : Onward P m snapshot symlinks lease .started
      (.makeTree snapshotsDir (buildingName lease.token))
      (.working lease (.filling snapshot.entries))
  | filled {before : List (Text × Entry)} {pair : Text × Entry}
      {rest : List (Text × Entry)} {inode : Nat} {tree : Tree}
      {found : Text × Artifact}
      (hentries : snapshot.entries = before ++ pair :: rest)
      (htree : m.treeAt snapshotsDir (buildingName lease.token) =
        some (inode, tree))
      (hplaced : List.Forall₂ (Projects P symlinks snapshot) before tree)
      (hfound : Projects P symlinks snapshot pair found) :
      Onward P m snapshot symlinks lease (.filling (pair :: rest))
        (.edit inode (.tree (tree ++ [found])))
        (.working lease (.filling rest))
  | named {inode : Nat} {tree : Tree}
      (htree : m.treeAt snapshotsDir (buildingName lease.token) =
        some (inode, tree))
      (hcomplete : Complete P symlinks snapshot tree) :
      Onward P m snapshot symlinks lease (.filling [])
        (.rename snapshotsDir (buildingName lease.token)
          (treeName (P.sha256 snapshot.toBytes)))
        (.clearing lease (.ok ()) .entering)
  | lost {inode : Nat} {tree : Tree} {node : Node}
      (htree : m.treeAt snapshotsDir (buildingName lease.token) =
        some (inode, tree))
      (hcomplete : Complete P symlinks snapshot tree)
      (hlookup : m.disk.lookup snapshotsDir
        (treeName (P.sha256 snapshot.toBytes)) = some node)
      (hwhole : Whole P m.disk (P.sha256 snapshot.toBytes) node) :
      Onward P m snapshot symlinks lease (.filling []) .nothing
        (.working lease .refused)

/-- A projector that meets no fault finds its scratch as it left it, however
slow it is and whatever reapers and removers run meanwhile. -/
theorem projection_undisturbed (hrun : CalmRun P m) {o : Outside}
    {snapshot : Snapshot} {symlinks : Bool} {work : Work}
    (hprocess : m.process who =
      some (.creator (.project snapshot symlinks) (.working lease work)))
    (hwork : work = .started ∨ ∃ rest, work = .filling rest)
    (hfault : o.fault = none) (hhonest : Honest P o.view)
    (hstocked : Stocked symlinks snapshot o.view) :
    ∃ call stage,
      plan P o m (.creator (.project snapshot symlinks) (.working lease work)) =
        some (call, .creator (.project snapshot symlinks) stage) ∧
      Onward P m snapshot symlinks lease work call stage := by
  refine ⟨_, _, rfl, ?_⟩
  change Onward P m snapshot symlinks lease work
    (projectNext P o m snapshot symlinks lease work).1
    (projectNext P o m snapshot symlinks lease work).2
  have h := hrun.trees
  have hcanonical := h.canonical who snapshot symlinks _ hprocess
  rcases hwork with rfl | ⟨rest, rfl⟩
  · have habsent :
        m.disk.lookup snapshotsDir (buildingName lease.token) = none := by
      refine Option.eq_none_iff_forall_ne_some.mpr fun node hnode => ?_
      exact h.refs.sound.unused who _ snapshotsDir _ node hprocess
        (.inl rfl) (hnode ▸ Volume.lookup_mem)
    rw [projectNext, hfault, habsent]
    exact .made
  · obtain ⟨inode, tree, before, hlookup, htree, hentries, hdone⟩ :=
      h.filled who snapshot symlinks lease rest hprocess
    have hbuilding : m.treeAt snapshotsDir (buildingName lease.token) =
        some (inode, tree) := Machine.treeAt_eq_some.mpr ⟨hlookup, htree⟩
    cases rest with
    | cons pair rest =>
        obtain ⟨path, entry⟩ := pair
        have hmem : (path, entry) ∈ snapshot.entries := by
          rw [hentries]
          simp
        obtain ⟨artifact, hartifact⟩ :=
          projectEntry_isSome hcanonical hstocked hmem
        have hplace := @place_next P _ _ _ _ _ hcanonical _ _ artifact hentries
          hdone
        simp only [projectNext, fillNext, hbuilding, hartifact, hfault, hplace]
        exact .filled hentries hbuilding hdone
          ⟨rfl, o.view, hhonest, hartifact⟩
    | nil =>
        have hcomplete : Complete P symlinks snapshot tree := by
          rw [Complete, hentries, List.append_nil]
          exact hdone
        simp only [projectNext, renameTree, hfault, hlookup]
        cases hfinal : m.disk.lookup snapshotsDir
            (treeName (P.sha256 snapshot.toBytes)) with
        | none => exact .named hbuilding hcomplete
        | some node =>
            have hwhole := h.whole _ _ hfinal
            obtain ⟨old, -, -, -, rfl, -⟩ := hwhole
            simp only
            split
            · exact .named hbuilding hcomplete
            · exact .lost hbuilding hcomplete hfinal (h.whole _ _ hfinal)

/-! Runs without reapers are calm. -/

def Unreaped (m : Machine) : Prop :=
  ∀ who scratch stage, m.process who ≠ some (.reaper scratch stage)

theorem Unreaped.calm (h : Unreaped m) : ¬ Untimely m := by
  rintro ⟨who, scratch, inode, _, _, _, hreaper, -⟩
  exact h who scratch _ hreaper

theorem Unreaped.become (h : Unreaped m)
    (hne : ∀ scratch stage, process ≠ .reaper scratch stage) :
    Unreaped (m.become who process) := by
  intro other scratch stage hfound
  rcases Machine.process_become hfound with ⟨rfl, hsame⟩ | ⟨-, hold⟩
  · exact hne scratch stage hsame.symm
  · exact h other scratch stage hold

theorem Unreaped.advance {leaf : Text} (h : Unreaped m)
    (hnext : advance P leaf who m = some next) : Unreaped next := by
  obtain ⟨process, hprocess, hnext⟩ := Option.bind_eq_some_iff.mp hnext
  obtain ⟨⟨call, later⟩, hplan, rfl⟩ := Option.map_eq_some_iff.mp hnext
  have hact := plan_acts (P := P) (fun _ _ hview => by cases hview) hplan
  refine Unreaped.become ?_ fun scratch stage hlater => ?_
  · intro other scratch stage hfound
    rw [Machine.process_perform] at hfound
    exact h other scratch stage hfound
  · obtain ⟨before, rfl⟩ := hact.reaper hlater
    exact h who scratch before hprocess

/-! Runs in which no lease is being made are calm. -/

/-- No creator has just drawn its token or made its lease. -/
def Underway (m : Machine) : Prop :=
  ∀ who job, (∀ token, m.process who ≠ some (.creator job (.drawn token))) ∧
    ∀ lease, m.process who ≠ some (.creator job (.created lease))

theorem Underway.calm (h : Underway m) : ¬ Untimely m := by
  rintro ⟨_, _, _, other, job, lease, _, hcreated, -⟩
  exact (h other job).2 lease hcreated

theorem Underway.become (h : Underway m)
    (hdrawn : ∀ job token, process ≠ .creator job (.drawn token))
    (hcreated : ∀ job lease, process ≠ .creator job (.created lease)) :
    Underway (m.become who process) := by
  intro other job
  constructor
  · intro token hfound
    rcases Machine.process_become hfound with ⟨-, hsame⟩ | ⟨-, hold⟩
    · exact hdrawn job token hsame.symm
    · exact (h other job).1 token hold
  · intro lease hfound
    rcases Machine.process_become hfound with ⟨-, hsame⟩ | ⟨-, hold⟩
    · exact hcreated job lease hsame.symm
    · exact (h other job).2 lease hold

theorem Underway.advance {leaf : Text} (h : Underway m)
    (hnext : advance P leaf who m = some next) : Underway next := by
  obtain ⟨process, hprocess, hnext⟩ := Option.bind_eq_some_iff.mp hnext
  obtain ⟨⟨call, later⟩, hplan, rfl⟩ := Option.map_eq_some_iff.mp hnext
  have hact := plan_acts (P := P) (fun _ _ hview => by cases hview) hplan
  have hperformed : Underway (m.perform who call) := by
    intro other job
    rw [Machine.process_perform]
    exact h other job
  refine hperformed.become ?_ ?_
  · rintro job token rfl
    cases hact
  · rintro job lease rfl
    cases hact
    exact (h who job).1 _ hprocess

/-- The calls of one process in a row are calm while something that keeps them
so is preserved. -/
theorem drive_calm {Kept : Machine → Prop} {leaf : Text} {count : Nat}
    (hcalm : ∀ m, Kept m → ¬ Untimely m)
    (hadvance : ∀ m next, Kept m → advance P leaf who m = some next →
      Kept next) (h : Kept m) :
    Relation.ReflTransGen (CalmStep P) m (drive P leaf who count m) ∧
      Kept (drive P leaf who count m) := by
  induction count generalizing m with
  | zero => exact ⟨.refl, h⟩
  | succ count ih =>
      rw [drive]
      split
      · rename_i next hnext
        have hafter := hadvance m next h hnext
        obtain ⟨hsteps, hlast⟩ := ih hafter
        exact ⟨.head ⟨advance_move hnext, hcalm next hafter⟩ hsteps, hlast⟩
      · exact ⟨.refl, h⟩

theorem Unreaped.drive {leaf : Text} {count : Nat} (h : Unreaped m) :
    Relation.ReflTransGen (CalmStep P) m (drive P leaf who count m) ∧
      Unreaped (drive P leaf who count m) :=
  drive_calm (fun _ => Unreaped.calm) (fun _ _ => Unreaped.advance) h

theorem Underway.drive {leaf : Text} {count : Nat} (h : Underway m) :
    Relation.ReflTransGen (CalmStep P) m (drive P leaf who count m) ∧
      Underway (drive P leaf who count m) :=
  drive_calm (fun _ => Underway.calm) (fun _ _ => Underway.advance) h

theorem drive_process {leaf : Text} {count other : Nat} (hne : other ≠ who) :
    (drive P leaf who count m).process other = m.process other := by
  induction count generalizing m with
  | zero => rfl
  | succ count ih =>
      rw [drive]
      split
      · rename_i next hnext
        obtain ⟨process, _, hnext⟩ := Option.bind_eq_some_iff.mp hnext
        obtain ⟨⟨call, later⟩, _, rfl⟩ := Option.map_eq_some_iff.mp hnext
        rw [ih]
        exact (Function.update_of_ne hne _ _).trans
          (by rw [Machine.process_perform])
      · rfl

/-! A file and its alias, projected on an empty store. -/

namespace AliasTree

def platform : Platform := ⟨asciiUnicode, sha256, fun _ => none⟩

def project : Job := .project aliasSnapshot true

def mine : Text := scratchToken 1 0 0

def begun : Machine := Machine.start.become 0 (.creator project .asked)

def waiting : Machine := drive platform [] 0 1 begun

def drawn : Machine :=
  { waiting with issued := mine :: waiting.issued }.become 0
    (.creator project (.drawn mine))

def theirs : Text := scratchToken 2 0 0

def id : SnapshotId := sha256 aliasSnapshot.toBytes

/-- The first entry is placed. -/
def filling : Machine := drive platform [] 0 4 drawn

/-- A reaper has come to the scratch and left it. -/
def spared : Machine :=
  drive platform [] 1 2 (filling.become 1 (.reaper (.building mine) .listed))

def removing : Machine :=
  drive platform [] 2 1 (spared.become 2 (.remover (.tree id) .asked))

def claiming : Machine :=
  { removing with issued := theirs :: removing.issued }.become 2
    (.remover (.tree id) (.drawn theirs))

/-- A remover has come too early for the tree. -/
def missed : Machine := drive platform [] 2 1 claiming

def named : Machine := drive platform [] 0 3 missed

theorem canonical : Canonical asciiUnicode aliasSnapshot := by
  refine @SnapshotBuilder.finish_canonical asciiUnicode aliasBuilder _ ?_ ?_
  · decide
  · decide

theorem begun_calm : CalmStep platform .start begun ∧ Unreaped begun := by
  have hstart : Unreaped .start := fun _ _ _ hfound => by cases hfound
  have hbegun : Unreaped begun :=
    hstart.become fun _ _ hsame => by cases hsame
  exact ⟨⟨.project true rfl canonical, hbegun.calm⟩, hbegun⟩

theorem drawn_move : Move platform waiting drawn := by
  obtain ⟨hwaiting, hissued⟩ :
      waiting.process 0 = some (.creator project .absent) ∧
        scratchToken 1 0 0 ∉ waiting.issued := by
    decide +kernel
  exact @Move.draw platform waiting 0 1 0 0 _ _ hwaiting hissued rfl

theorem drawn_calm : CalmRun platform drawn ∧ Unreaped drawn := by
  obtain ⟨hbegun, hcalm⟩ := begun_calm
  have hwaiting : Relation.ReflTransGen (CalmStep platform) begun waiting ∧
      Unreaped waiting := hcalm.drive
  have hdrawn : Unreaped drawn :=
    Unreaped.become (fun who scratch stage => hwaiting.2 who scratch stage)
      fun _ _ hsame => by cases hsame
  exact ⟨.tail (.head hbegun hwaiting.1) ⟨drawn_move, hdrawn.calm⟩, hdrawn⟩

/-- What the projector, the reaper and the remover pass through. -/
theorem missed_at :
    filling.process 0 = some (.creator project
        (.working ⟨mine, 3⟩ (.filling (aliasSnapshot.entries.drop 1)))) ∧
      missed.process 0 = some (.creator project
        (.working ⟨mine, 3⟩ (.filling (aliasSnapshot.entries.drop 1)))) ∧
      filling.process 1 = none ∧
      (filling.disk.lookup (Scratch.building mine).dir
        (Scratch.building mine).name).isSome = true ∧
      spared.process 2 = none ∧
      removing.process 2 = some (.remover (.tree id) .named) ∧
      scratchToken 2 0 0 ∉ removing.issued := by
  decide +kernel

theorem filling_underway : Underway filling := by
  intro who job
  by_cases hwho : who = 0
  · subst hwho
    rw [missed_at.1]
    exact ⟨(fun _ h => by cases h), (fun _ h => by cases h)⟩
  · have hnone : filling.process who = none := by
      rw [filling, drive_process hwho, drawn]
      change Function.update waiting.process 0 _ who = none
      rw [Function.update_of_ne hwho, waiting, drive_process hwho, begun]
      exact Function.update_of_ne hwho _ _
    rw [hnone]
    exact ⟨(fun _ h => by cases h), (fun _ h => by cases h)⟩

theorem missed_calm : CalmRun platform missed ∧ Underway missed := by
  obtain ⟨-, -, hreaper, hlookup, hremover, hnamed, hissued⟩ := missed_at
  have hfilling : CalmRun platform filling :=
    drawn_calm.1.trans drawn_calm.2.drive.1
  have hlisted : Underway
      (filling.become 1 (.reaper (.building mine) .listed)) :=
    filling_underway.become (fun _ _ h => by cases h) fun _ _ h => by cases h
  have hreap : CalmStep platform filling
      (filling.become 1 (.reaper (.building mine) .listed)) :=
    ⟨.reap hreaper (fun _ => rfl) hlookup, hlisted.calm⟩
  have hspared : Relation.ReflTransGen (CalmStep platform)
      (filling.become 1 (.reaper (.building mine) .listed)) spared ∧
        Underway spared := hlisted.drive
  have hasked : Underway (spared.become 2 (.remover (.tree id) .asked)) :=
    hspared.2.become (fun _ _ h => by cases h) fun _ _ h => by cases h
  have hremove : CalmStep platform spared
      (spared.become 2 (.remover (.tree id) .asked)) :=
    ⟨.remove _ hremover, hasked.calm⟩
  have hremoving : Relation.ReflTransGen (CalmStep platform)
      (spared.become 2 (.remover (.tree id) .asked)) removing ∧
        Underway removing := hasked.drive
  have hclaiming : Underway claiming :=
    Underway.become (fun who job => hremoving.2 who job)
      (fun _ _ h => by cases h) fun _ _ h => by cases h
  have hdraw : CalmStep platform removing claiming :=
    ⟨@Move.draw platform removing 2 2 0 0 _ _ hnamed hissued rfl,
      hclaiming.calm⟩
  have hmissed : Relation.ReflTransGen (CalmStep platform) claiming missed ∧
      Underway missed := hclaiming.drive
  have hbefore : CalmRun platform removing :=
    (((hfilling.tail hreap).trans hspared.1).tail hremove).trans hremoving.1
  exact ⟨(hbefore.tail hdraw).trans hmissed.1, hmissed.2⟩

theorem named_calm : CalmRun platform named :=
  missed_calm.1.trans missed_calm.2.drive.1

theorem projected_whole :
    named.process 1 = some (.reaper (.building mine) .finished) ∧
    named.process 2 = some (.remover (.tree id) (.answered (.ok .absent))) ∧
    ∃ inode tree snapshot symlinks,
      Node.directory 4 = .directory inode ∧ named.content inode = .tree tree ∧
        id = sha256 snapshot.toBytes ∧ Canonical asciiUnicode snapshot ∧
          Complete platform symlinks snapshot tree := by
  obtain ⟨hreaper, hremover, htree⟩ :
      named.process 1 = some (.reaper (.building mine) .finished) ∧
        named.process 2 = some (.remover (.tree id) (.answered (.ok .absent))) ∧
        named.disk.lookup snapshotsDir (treeName id) = some (.directory 4) := by
    decide +kernel
  exact ⟨hreaper, hremover, tree_whole named_calm htree⟩

theorem onward : ∃ call stage,
    plan platform ⟨none, fun _ => none, []⟩ missed
        (.creator project (.working ⟨mine, 3⟩
          (.filling (aliasSnapshot.entries.drop 1)))) =
      some (call, .creator project stage) ∧
    Onward platform missed aliasSnapshot true ⟨mine, 3⟩
      (.filling (aliasSnapshot.entries.drop 1)) call stage := by
  obtain ⟨-, hprocess, -⟩ := missed_at
  exact projection_undisturbed missed_calm.1 hprocess (.inr ⟨_, rfl⟩) rfl
    (fun _ _ hview => by cases hview) fun hcopies => by cases hcopies

/-! A reaper holds the lease before its creator does.  It takes the lease file
away later, and another one then finds the scratch without a lease. -/

def created : Machine := drive platform [] 0 1 drawn

def sampled : Machine :=
  drive platform [] 1 3 (created.become 1 (.reaper (.lease mine) .listed))

def filled : Machine := drive platform [] 0 5 sampled

def unleased : Machine := drive platform [] 1 1 filled

def torn : Machine :=
  drive platform "d/b".toList 2 3
    (unleased.become 2 (.reaper (.building mine) .listed))

def final : Machine := drive platform [] 0 1 torn

theorem final_at :
    final.treeAt snapshotsDir (treeName (sha256 aliasSnapshot.toBytes)) =
        some (4, [("d".toList, .directory), ("d/a".toList,
          .link (relativeObjectTarget "d/a".toList aliasDigest))]) ∧
      created.process 1 = none ∧
      (created.disk.lookup (Scratch.lease mine).dir
        (Scratch.lease mine).name).isSome = true ∧
      unleased.process 2 = none ∧
      (unleased.disk.lookup (Scratch.building mine).dir
        (Scratch.building mine).name).isSome = true := by
  decide +kernel

theorem final_moves :
    Relation.ReflTransGen (Move platform) .start final := by
  have hdrawn : Relation.ReflTransGen (Move platform) .start drawn :=
    drawn_calm.1.lift (fun m => m) fun _ _ hstep => hstep.1
  have hcreated : Relation.ReflTransGen (Move platform) drawn created :=
    drive_moves
  obtain ⟨-, hfirst, hleased, hsecond, hbuilt⟩ := final_at
  have hlease : Move platform created
      (created.become 1 (.reaper (.lease mine) .listed)) :=
    .reap hfirst (fun _ => rfl) hleased
  have hunleased : Relation.ReflTransGen (Move platform)
      (created.become 1 (.reaper (.lease mine) .listed)) unleased :=
    drive_moves.trans (drive_moves.trans drive_moves)
  have hbuilding : Move platform unleased
      (unleased.become 2 (.reaper (.building mine) .listed)) :=
    .reap hsecond (fun _ => rfl) hbuilt
  have hfinal : Relation.ReflTransGen (Move platform)
      (unleased.become 2 (.reaper (.building mine) .listed)) final :=
    drive_moves.trans drive_moves
  exact (hdrawn.trans (hcreated.tail hlease)).trans
    ((hunleased.tail hbuilding).trans hfinal)

/-- Without calm, a tree under its final name need not be whole. -/
theorem torn_final : ∃ m, Relation.ReflTransGen (Move platform) .start m ∧
    ∃ inode tree, m.treeAt snapshotsDir
        (treeName (sha256 aliasSnapshot.toBytes)) = some (inode, tree) ∧
      ∀ symlinks, ¬ Complete platform symlinks aliasSnapshot tree := by
  refine ⟨final, final_moves, _, _, final_at.1, fun symlinks hcomplete => ?_⟩
  have hlength := hcomplete.length_eq
  simp [aliasSnapshot] at hlength

end AliasTree

end TensorFS.Projection
