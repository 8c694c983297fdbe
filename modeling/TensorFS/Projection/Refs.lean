import TensorFS.Projection.Sound

namespace TensorFS.Projection

open Data

variable {P : Platform} {m next : Machine} {who other : Nat}
  {process later : Process} {call : Call} {dir : Nat} {name token : Text}
  {node : Node} {id : SnapshotId} {inode : Nat}

/-! Refs as a register for each name.  A ref is a file that was written whole
and synced under a private name and then renamed, so no reader and no crash
finds a part of one. -/

theorem trim_line {text : Text}
    (h : ∀ c ∈ text, LayoutMorphism.isWhiteSpace c = false) :
    LayoutMorphism.trim (text ++ ['\n']) = text := by
  have hkeep : ∀ line : Text,
      (∀ c ∈ line, LayoutMorphism.isWhiteSpace c = false) →
        line.dropWhile LayoutMorphism.isWhiteSpace = line := by
    intro line hline
    cases line with
    | nil => rfl
    | cons c line =>
        rw [List.dropWhile_cons, if_neg (by simp [hline c List.mem_cons_self])]
  cases text with
  | nil => decide
  | cons c text =>
      have hhead : ¬ LayoutMorphism.isWhiteSpace c = true := by
        simp [h c List.mem_cons_self]
      have hend : LayoutMorphism.isWhiteSpace '\n' = true := by decide
      rw [LayoutMorphism.trim, List.cons_append, List.dropWhile_cons,
        if_neg hhead, ← List.cons_append, List.reverse_append,
        List.reverse_singleton, List.singleton_append, List.dropWhile_cons,
        if_pos hend, hkeep _ fun d hd => h d (List.mem_reverse.mp hd),
        List.reverse_reverse]

theorem digitChar_solid : ∀ d < 16,
    LayoutMorphism.isWhiteSpace (Nat.digitChar d) = false := by
  decide

/-- A ref reads back as the id it was written for. -/
theorem parseRef_refBytes (id : SnapshotId) :
    parseRef (refBytes id) = some id := by
  have hsolid : ∀ c ∈ Install.toHex id,
      LayoutMorphism.isWhiteSpace c = false := by
    intro c hc
    simp only [Install.toHex, Go.hexEncode, List.mem_flatMap, List.mem_cons,
      List.not_mem_nil, or_false] at hc
    obtain ⟨b, -, hc⟩ := hc
    have hb := b.toNat_lt
    rcases hc with rfl | rfl
    · exact digitChar_solid _ (by omega)
    · exact digitChar_solid _ (by omega)
  rw [parseRef, refBytes, Text.fromUtf8_utf8, Option.bind_some,
    trim_line hsolid]
  exact parseDigits_eq_some.mpr (spelled_hexEncode id.bytes).1

/-! What holds of the files behind refs. -/

/-- A file that holds one id whole, whatever crashes follow. -/
structure RefFile (disk : Volume Text Content) (inode : Nat)
    (id : SnapshotId) : Prop where
  allocated : inode < disk.next
  content : (disk.inode inode).content = .bytes (refBytes id)
  synced : (disk.inode inode).synced = true

/-- The private name of a setter has stood for its file and for nothing
else. -/
structure Staged (disk : Volume Text Content) (token : Text) (inode : Nat) :
    Prop where
  held : some (.file inode) ∈ disk.values refsDir (swapName token)
  only : ∀ node, some node ∈ disk.values refsDir (swapName token) →
    node = .file inode

/-- What a process may count on about the files it works on. -/
def Process.RefOk (disk : Volume Text Content) : Process → Prop
  | .creator (.set _ _) (.working lease (.staged inode)) =>
      Staged disk lease.token inode ∧
        (∃ bytes, (disk.inode inode).content = .bytes bytes) ∧
          (disk.inode inode).synced = false
  | .creator (.set _ id) (.working lease (.written inode)) =>
      Staged disk lease.token inode ∧
        (disk.inode inode).content = .bytes (refBytes id) ∧
          (disk.inode inode).synced = false
  | .creator (.set _ id) (.working lease (.synced inode)) =>
      Staged disk lease.token inode ∧ RefFile disk inode id
  | .reader _ (.opened inode) => ∃ id, RefFile disk inode id
  | .reader _ (.answered (.error error)) =>
      ∀ name, error ≠ .unreadableRef name
  | _ => True

structure Refs (m : Machine) : Prop where
  sound : Sound m
  refs : ∀ name, isRefName name = true → ∀ node,
    some node ∈ m.disk.values refsDir name →
      ∃ inode id, node = .file inode ∧ RefFile m.disk inode id
  swaps : ∀ left right inode,
    some (.file inode) ∈ m.disk.values refsDir (swapName left) →
      some (.file inode) ∈ m.disk.values refsDir (swapName right) →
        left = right
  process : ∀ who process, m.process who = some process → process.RefOk m.disk

namespace Acts

/-- A call that changes an inode changes a tree's or the setter's own. -/
theorem edits (h : Acts P m process call later)
    (hinode : call.inode? = some inode) :
    (∃ tree, m.content inode = .tree tree) ∨
      ∃ name id lease,
        process = .creator (.set name id) (.working lease (.staged inode)) ∨
          process =
            .creator (.set name id) (.working lease (.written inode)) := by
  have hwalks : ∀ {dir name walk left}, Walks m dir name walk call left →
      ∃ tree, m.content inode = .tree tree := by
    intro dir name walk left hwalk
    cases hwalk with
    | erase hcontent =>
        cases hinode
        exact ⟨_, hcontent⟩
    | _ => cases hinode
  cases h with
  | fill hhonest htree _ _ =>
      cases hinode
      exact .inl ⟨_, (Machine.treeAt_eq_some.mp htree).2⟩
  | tear htree =>
      cases hinode
      exact .inl ⟨_, (Machine.treeAt_eq_some.mp htree).2⟩
  | write =>
      cases hinode
      exact .inr ⟨_, _, _, .inl rfl⟩
  | cut =>
      cases hinode
      exact .inr ⟨_, _, _, .inl rfl⟩
  | sync =>
      cases hinode
      exact .inr ⟨_, _, _, .inr rfl⟩
  | clear hwalk => exact .inl (hwalks hwalk)
  | cleared hwalk => exact .inl (hwalks hwalk)
  | empty hwalk => exact .inl (hwalks hwalk)
  | emptied hwalk => exact .inl (hwalks hwalk)
  | reap hwalk => exact .inl (hwalks hwalk)
  | reaped hwalk => exact .inl (hwalks hwalk)
  | _ => cases hinode

/-- Only a swap gives a ref's name to a file: the one that was staged. -/
theorem fills_ref (h : Acts P m process call later)
    (hname : isRefName name = true) (hfills : call.Fills m refsDir name node) :
    ∃ id lease inode,
      process = .creator (.set name id) (.working lease (.synced inode)) ∧
        m.disk.lookup refsDir (swapName lease.token) = some node := by
  have hlive : Live refsDir name := .inl ⟨rfl, hname⟩
  cases h with
  | create => exact absurd hfills.1 (by decide)
  | makeTree => exact absurd hfills.1 (by decide)
  | finish => exact absurd hfills.1 (by decide)
  | stage =>
      obtain ⟨-, rfl, -⟩ := hfills
      exact absurd (.inr (.inr (.inl rfl))) hlive.not_behind
  | swap =>
      obtain ⟨-, rfl, hnode⟩ := hfills
      exact ⟨_, _, _, rfl, hnode⟩
  | claim =>
      obtain ⟨-, rfl, -⟩ := hfills
      exact absurd (.inr (.inr (.inr rfl))) hlive.not_behind
  | clear hwalk => exact absurd hfills hwalk.not_fills
  | cleared hwalk => exact absurd hfills hwalk.not_fills
  | empty hwalk => exact absurd hfills hwalk.not_fills
  | emptied hwalk => exact absurd hfills hwalk.not_fills
  | reap hwalk => exact absurd hfills hwalk.not_fills
  | reaped hwalk => exact absurd hfills hwalk.not_fills
  | _ => exact absurd hfills id

/-- Only the making of its file gives a private name to one. -/
theorem fills_swap (h : Acts P m process call later)
    (hchecked : process.Checked)
    (hfills : call.Fills m refsDir (swapName token) node) :
    node = .file m.disk.next ∧ process.token? = some token := by
  cases h with
  | create => exact absurd hfills.1 (by decide)
  | makeTree => exact absurd hfills.1 (by decide)
  | finish => exact absurd hfills.1 (by decide)
  | stage =>
      obtain ⟨-, hname, rfl⟩ := hfills
      exact ⟨rfl, congrArg some (swapName_inj hname).symm⟩
  | swap =>
      obtain ⟨-, rfl, -⟩ := hfills
      exact absurd (dotted_iff token).2.1 (isRefName_head hchecked)
  | claim =>
      exact absurd hfills.2.1 (swapName_ne_removedName _ _)
  | clear hwalk => exact absurd hfills hwalk.not_fills
  | cleared hwalk => exact absurd hfills hwalk.not_fills
  | empty hwalk => exact absurd hfills hwalk.not_fills
  | emptied hwalk => exact absurd hfills hwalk.not_fills
  | reap hwalk => exact absurd hfills hwalk.not_fills
  | reaped hwalk => exact absurd hfills hwalk.not_fills
  | _ => exact absurd hfills id

end Acts

namespace Refs

variable (h : Refs m)
include h

/-- The files a setter still writes are its own, and not yet synced. -/
theorem edits (hprocess : m.process who = some process)
    (hact : Acts P m process call later) (hinode : call.inode? = some inode) :
    (∃ tree, m.content inode = .tree tree) ∨
      ∃ token, process.token? = some token ∧ Staged m.disk token inode ∧
        (m.disk.inode inode).synced = false := by
  rcases hact.edits hinode with htree | ⟨name, id, lease, rfl | rfl⟩
  · exact .inl htree
  · obtain ⟨hstaged, -, hsynced⟩ := h.process who _ hprocess
    exact .inr ⟨_, rfl, hstaged, hsynced⟩
  · obtain ⟨hstaged, -, hsynced⟩ := h.process who _ hprocess
    exact .inr ⟨_, rfl, hstaged, hsynced⟩

theorem refFile_inode (hprocess : m.process who = some process)
    (hact : Acts P m process call later) (hfile : RefFile m.disk inode id) :
    (m.perform who call).disk.inode inode = m.disk.inode inode := by
  refine inode_perform hfile.allocated fun hinode => ?_
  rcases h.edits hprocess hact hinode with ⟨tree, htree⟩ | ⟨_, -, -, hsynced⟩
  · have hbytes := hfile.content.symm.trans htree
    cases hbytes
  · rw [hfile.synced] at hsynced
    cases hsynced

theorem refFile_act (hprocess : m.process who = some process)
    (hact : Acts P m process call later) (hfile : RefFile m.disk inode id) :
    RefFile (m.perform who call).disk inode id := by
  have hsame := h.refFile_inode hprocess hact hfile
  constructor
  · exact Nat.lt_of_lt_of_le hfile.allocated next_perform
  · exact (congrArg Inode.content hsame).trans hfile.content
  · exact (congrArg Inode.synced hsame).trans hfile.synced

/-- No other process touches the file a setter has staged. -/
theorem staged_inode (hprocess : m.process who = some process)
    (hact : Acts P m process call later) {found : Process}
    (hfound : m.process other = some found) (hne : other ≠ who)
    (htoken : found.token? = some token) (hstaged : Staged m.disk token inode)
    (hbytes : ∃ bytes, m.content inode = .bytes bytes) :
    (m.perform who call).disk.inode inode = m.disk.inode inode := by
  refine inode_perform (h.sound.allocated refsDir _ _ hstaged.held)
    fun hinode => ?_
  rcases h.edits hprocess hact hinode with ⟨tree, htree⟩ |
    ⟨mine, hmine, hown, -⟩
  · obtain ⟨bytes, hbytes⟩ := hbytes
    rw [hbytes] at htree
    cases htree
  · rw [h.swaps mine token inode hown.held hstaged.held] at hmine
    exact hne (h.sound.apart other who found process token hfound hprocess
      htoken hmine)

theorem staged_act (hprocess : m.process who = some process)
    (hact : Acts P m process call later) {found : Process}
    (hfound : m.process other = some found) (hne : other ≠ who)
    (htoken : found.token? = some token) (hstaged : Staged m.disk token inode) :
    Staged (m.perform who call).disk token inode where
  held := values_perform hstaged.held
  only := by
    intro node hmem
    rcases mem_values_perform hmem with hfills | hold
    · have hbehind : Behind token refsDir (swapName token) :=
        .inr (.inr (.inl rfl))
      rcases hact.fills (h.sound.checked who process hprocess) hfills with
        ⟨mine, hmine, hmineBehind⟩ | hlive
      · rw [hmineBehind.inj hbehind] at hmine
        exact absurd (h.sound.apart other who found process token hfound
          hprocess htoken hmine) hne
      · exact absurd hbehind hlive.not_behind
    · exact hstaged.only node hold

/-- What another process counts on outlasts a call. -/
theorem refOk_other (hprocess : m.process who = some process)
    (hact : Acts P m process call later) {found : Process}
    (hfound : m.process other = some found) (hne : other ≠ who) :
    found.RefOk (m.perform who call).disk := by
  have hok := h.process other found hfound
  unfold Process.RefOk at hok ⊢
  split
  · obtain ⟨hstaged, ⟨bytes, hbytes⟩, hsynced⟩ := hok
    have hsame := h.staged_inode hprocess hact hfound hne rfl hstaged
      ⟨bytes, hbytes⟩
    exact ⟨h.staged_act hprocess hact hfound hne rfl hstaged,
      ⟨bytes, (congrArg Inode.content hsame).trans hbytes⟩,
      (congrArg Inode.synced hsame).trans hsynced⟩
  · obtain ⟨hstaged, hbytes, hsynced⟩ := hok
    have hsame := h.staged_inode hprocess hact hfound hne rfl hstaged
      ⟨_, hbytes⟩
    exact ⟨h.staged_act hprocess hact hfound hne rfl hstaged,
      (congrArg Inode.content hsame).trans hbytes,
      (congrArg Inode.synced hsame).trans hsynced⟩
  · exact ⟨h.staged_act hprocess hact hfound hne rfl hok.1,
      h.refFile_act hprocess hact hok.2⟩
  · obtain ⟨id, hfile⟩ := hok
    exact ⟨id, h.refFile_act hprocess hact hfile⟩
  · exact hok
  · trivial

/-- What a process counts on after its own call. -/
theorem refOk_own (hprocess : m.process who = some process)
    (hact : Acts P m process call later) :
    later.RefOk (m.perform who call).disk := by
  have hok := h.process who process hprocess
  cases hact with
  | @stage name id lease _ =>
      refine ⟨⟨?_, ?_⟩, ⟨[], ?_⟩, ?_⟩
      · exact Volume.mem_values_create.mpr (.inl ⟨rfl, rfl, rfl⟩)
      · intro node hmem
        rcases Volume.mem_values_create.mp hmem with ⟨-, -, hnode⟩ | hold
        · exact Option.some.inj hnode
        · exact absurd hold (h.sound.unused who _ refsDir _ node hprocess
            (.inr rfl))
      · exact congrArg Inode.content (@inode_makeFile m who _ _)
      · exact congrArg Inode.synced (@inode_makeFile m who _ _)
  | write =>
      obtain ⟨hstaged, -, -⟩ := hok
      exact ⟨⟨hstaged.held, hstaged.only⟩,
        congrArg Inode.content (@inode_edit m who _ _),
        congrArg Inode.synced (@inode_edit m who _ _)⟩
  | @sync name id lease inode =>
      obtain ⟨hstaged, hbytes, -⟩ := hok
      refine ⟨⟨hstaged.held, hstaged.only⟩, ?_, ?_, ?_⟩
      · exact h.sound.allocated refsDir _ _ hstaged.held
      · exact (congrArg Inode.content (@inode_sync m who _)).trans hbytes
      · exact congrArg Inode.synced (@inode_sync m who _)
  | openRef hname hlookup =>
      obtain ⟨inode, id, hnode, hfile⟩ :=
        h.refs _ hname _ (hlookup ▸ Volume.lookup_mem)
      cases hnode
      exact ⟨id, hfile.allocated, hfile.content, hfile.synced⟩
  | unread hcontent hparse =>
      obtain ⟨id, hfile⟩ := hok
      have hbytes := hfile.content.symm.trans hcontent
      cases hbytes
      rw [parseRef_refBytes] at hparse
      cases hparse
  | failed herror =>
      intro name hsame
      rcases herror with rfl | rfl
      · cases hsame
      · cases hsame
  | @refuse job lease work => cases job <;> trivial
  | @take job lease _ => cases job <;> trivial
  | @create job token _ => cases job <;> trivial
  | @named job _ => cases job <;> trivial
  | @again job token => cases job <;> trivial
  | @fail job stage error => cases job <;> trivial
  | @leave job lease outcome => cases job <;> trivial
  | @giveUp job lease work => cases job <;> trivial
  | @clear job lease outcome walk later call _ => cases job <;> trivial
  | @cleared job lease outcome walk call _ => cases job <;> trivial
  | @unlock job lease outcome => cases job <;> trivial
  | @unlease job lease outcome => cases job <;> trivial
  | _ => trivial

theorem act (hprocess : m.process who = some process)
    (hact : Acts P m process call later) :
    Refs ((m.perform who call).become who later) where
  sound := h.sound.act hprocess hact
  refs := by
    intro name hname node hmem
    rcases mem_values_perform hmem with hfills | hold
    · obtain ⟨id, lease, inode, rfl, hlookup⟩ := hact.fills_ref hname hfills
      obtain ⟨hstaged, hfile⟩ := h.process who _ hprocess
      exact ⟨inode, id, hstaged.only node (hlookup ▸ Volume.lookup_mem),
        h.refFile_act hprocess hact hfile⟩
    · obtain ⟨inode, id, hnode, hfile⟩ := h.refs name hname node hold
      exact ⟨inode, id, hnode, h.refFile_act hprocess hact hfile⟩
  swaps := by
    intro left right inode hleft hright
    have hchecked := h.sound.checked who process hprocess
    have hfresh : ∀ token, some (.file m.disk.next) ∉
        m.disk.values refsDir (swapName token) := fun token hmem =>
      Nat.lt_irrefl _ (h.sound.allocated refsDir _ _ hmem)
    rcases mem_values_perform hleft with hfills | holdLeft
    · obtain ⟨hnode, htoken⟩ := hact.fills_swap hchecked hfills
      cases hnode
      rcases mem_values_perform hright with hfills | holdRight
      · obtain ⟨-, hsame⟩ := hact.fills_swap hchecked hfills
        exact Option.some.inj (htoken.symm.trans hsame)
      · exact absurd holdRight (hfresh right)
    · rcases mem_values_perform hright with hfills | holdRight
      · obtain ⟨hnode, -⟩ := hact.fills_swap hchecked hfills
        cases hnode
        exact absurd holdLeft (hfresh left)
      · exact h.swaps left right inode holdLeft holdRight
  process := by
    intro other found hfound
    rcases Machine.process_become hfound with ⟨rfl, rfl⟩ | ⟨hne, hold⟩
    · exact h.refOk_own hprocess hact
    · rw [Machine.process_perform] at hold
      exact h.refOk_other hprocess hact hold hne

omit h in
theorem frame (h : Refs m) (hsound : Sound next) (hdisk : next.disk = m.disk)
    (hprocess : ∀ who found, next.process who = some found →
      found.RefOk m.disk) :
    Refs next := by
  refine ⟨hsound, ?_, ?_, fun who found hfound => ?_⟩
  · rw [hdisk]
    exact h.refs
  · rw [hdisk]
    exact h.swaps
  · rw [hdisk]
    exact hprocess who found hfound

theorem begin (hsound : Sound (m.become who process))
    (hok : process.RefOk m.disk) : Refs (m.become who process) := by
  refine h.frame hsound rfl fun other found hfound => ?_
  rcases Machine.process_become hfound with ⟨rfl, rfl⟩ | ⟨-, hold⟩
  · exact hok
  · exact h.process other found hold

theorem move (hmove : Move P m next) : Refs next := by
  have hsound := h.sound.move hmove
  cases hmove with
  | project symlinks _ _ => exact h.begin hsound trivial
  | set name id _ => exact h.begin hsound trivial
  | read name _ => exact h.begin hsound trivial
  | remove target _ => exact h.begin hsound trivial
  | reap _ _ _ => exact h.begin hsound trivial
  | draw hwaiting hissued hdraw =>
      refine h.frame hsound rfl fun other found hfound => ?_
      rcases Machine.process_become hfound with ⟨rfl, rfl⟩ | ⟨-, hold⟩
      · unfold Process.draw at hdraw
        split at hdraw
        · rename_i job
          cases hdraw
          cases job <;> trivial
        · cases hdraw
          trivial
        · cases hdraw
      · exact h.process other found hold
  | advance hprocess hhonest hplan =>
      exact h.act hprocess (plan_acts hhonest hplan)
  | kill who =>
      exact h.frame hsound rfl fun other found hfound =>
        h.process other found (Machine.process_kill hfound).2

theorem crash {disk : Volume Text Content} (hcrash : m.disk.Crash disk) :
    Refs (m.reboot disk) where
  sound := h.sound.crash hcrash
  refs := by
    intro name hname node hmem
    obtain ⟨inode, id, hnode, hfile⟩ :=
      h.refs name hname node (hcrash.mem_values hmem)
    have hsame := hcrash.inode inode hfile.synced
    refine ⟨inode, id, hnode, ?_, ?_, ?_⟩
    · change inode < disk.next
      rw [hcrash.next]
      exact hfile.allocated
    · exact (congrArg Inode.content hsame).trans hfile.content
    · exact (congrArg Inode.synced hsame).trans hfile.synced
  swaps left right inode hleft hright :=
    h.swaps left right inode (hcrash.mem_values hleft)
      (hcrash.mem_values hright)
  process _ _ hfound := by cases hfound

theorem step (hstep : Step P m next) : Refs next := by
  cases hstep with
  | move hmove => exact h.move hmove
  | crash hcrash => exact h.crash hcrash

end Refs

theorem Refs.start : Refs .start where
  sound := .start
  refs _ _ _ hmem := by simp [Volume.values, Machine.start] at hmem
  swaps _ _ _ hmem := by simp [Volume.values, Machine.start] at hmem
  process _ _ hfound := by cases hfound

theorem Refs.run (h : Reachable P m) : Refs m := by
  induction h with
  | refl => exact .start
  | tail _ hstep ih => exact ih.step hstep

end TensorFS.Projection
