import TensorFS.Data.Register
import TensorFS.Projection.Refs

namespace TensorFS.Projection

open Data

variable {P : Platform} {m next : Machine} {who other : Nat}
  {process later : Process} {call : Call} {dir : Nat} {name token : Text}
  {node : Node} {id : SnapshotId} {inode : Nat}
  {reg left : Register Text SnapshotId}

/-! The refs refine a register for each name: a set and a removal take effect
when they rename, a read when it opens the file. -/

/-- The id under a node. -/
def refOf (disk : Volume Text Content) : Option Node → Option SnapshotId
  | some (.file inode) =>
      match (disk.inode inode).content with
      | .bytes bytes => parseRef bytes
      | .tree _ => none
  | _ => none

def Machine.readRef (m : Machine) (name : Text) : Option SnapshotId :=
  refOf m.disk (m.disk.lookup refsDir name)

theorem RefFile.refOf {disk : Volume Text Content}
    (h : RefFile disk inode id) :
    refOf disk (some (.file inode)) = some id := by
  simp only [Projection.refOf, h.content]
  exact parseRef_refBytes id

theorem lookup_same (hdrop : ¬ call.Drops dir name)
    (hfill : ∀ node, ¬ call.Fills m dir name node) :
    (m.perform who call).disk.lookup dir name = m.disk.lookup dir name := by
  apply Option.ext
  intro node
  constructor
  · intro h
    rcases lookup_perform h with hfills | ⟨hold, -⟩
    · exact absurd hfills (hfill node)
    · exact hold
  · exact fun h => lookup_kept h hdrop hfill

theorem values_same (hdrop : ¬ call.Drops dir name)
    (hfill : ∀ node, ¬ call.Fills m dir name node) :
    (m.perform who call).disk.values dir name = m.disk.values dir name := by
  cases call with
  | makeFile at' key =>
      exact Volume.values_write.trans
        (if_neg fun heq => hfill _ ⟨heq.1, heq.2, rfl⟩)
  | makeTree at' key =>
      exact Volume.values_write.trans
        (if_neg fun heq => hfill _ ⟨heq.1, heq.2, rfl⟩)
  | rename at' source target =>
      simp only [Machine.perform, Machine.onDisk, Volume.rename]
      split
      · rename_i found hlookup
        refine Volume.values_write.trans ((if_neg hdrop).trans ?_)
        exact Volume.values_write.trans
          (if_neg fun heq => hfill found ⟨heq.1, heq.2, hlookup⟩)
      · rfl
  | unlink at' key => exact Volume.values_write.trans (if_neg hdrop)
  | _ => rfl

theorem Walks.drops {at' : Nat} {key : Text} {walk : Walk}
    {rest : Option Walk} (h : Walks m at' key walk call rest)
    (hdrop : call.Drops dir name) : dir = at' ∧ name = key := by
  cases h with
  | file => exact hdrop
  | directory => exact hdrop
  | _ => exact absurd hdrop id

/-- What scratch names a walk is after. -/
theorem Job.scratch_behind (job : Job) (token : Text) :
    Behind token (job.scratch token).1 (job.scratch token).2 := by
  cases job with
  | project snapshot symlinks => exact .inr (.inl rfl)
  | set name id => exact .inr (.inr (.inl rfl))

theorem Scratch.behind (scratch : Scratch) :
    ∃ token, Behind token scratch.dir scratch.name := by
  cases scratch with
  | building token => exact ⟨token, .inr (.inl rfl)⟩
  | swap token => exact ⟨token, .inr (.inr (.inl rfl))⟩
  | removed dir token => exact ⟨token, .inr (.inr (.inr rfl))⟩
  | lease token => exact ⟨token, .inl ⟨rfl, rfl⟩⟩

namespace Acts

/-- A live name is taken away by the removal of what it is or by nothing. -/
theorem drops (h : Acts P m process call later)
    (hdrop : call.Drops dir name) :
    (∃ token, Behind token dir name) ∨
      ∃ target token, process = .remover target (.drawn token) ∧
        call = .rename target.dir target.name (removedName token) ∧
          dir = target.dir ∧ name = target.name := by
  cases h with
  | finish =>
      obtain ⟨rfl, rfl⟩ := hdrop
      exact .inl ⟨_, .inr (.inl rfl)⟩
  | swap =>
      obtain ⟨rfl, rfl⟩ := hdrop
      exact .inl ⟨_, .inr (.inr (.inl rfl))⟩
  | claim => exact .inr ⟨_, _, rfl, rfl, hdrop⟩
  | unlease => exact .inl ⟨_, .inl hdrop⟩
  | @clear job lease _ _ _ _ hwalk =>
      obtain ⟨rfl, rfl⟩ := hwalk.drops hdrop
      exact .inl ⟨_, job.scratch_behind lease.token⟩
  | @cleared job lease _ _ _ hwalk =>
      obtain ⟨rfl, rfl⟩ := hwalk.drops hdrop
      exact .inl ⟨_, job.scratch_behind lease.token⟩
  | empty hwalk =>
      obtain ⟨rfl, rfl⟩ := hwalk.drops hdrop
      exact .inl ⟨_, .inr (.inr (.inr rfl))⟩
  | emptied hwalk =>
      obtain ⟨rfl, rfl⟩ := hwalk.drops hdrop
      exact .inl ⟨_, .inr (.inr (.inr rfl))⟩
  | @reap scratch _ _ _ hwalk =>
      obtain ⟨rfl, rfl⟩ := hwalk.drops hdrop
      exact .inl scratch.behind
  | @reaped scratch _ _ hwalk =>
      obtain ⟨rfl, rfl⟩ := hwalk.drops hdrop
      exact .inl scratch.behind
  | _ => exact absurd hdrop id

/-- The three ways a call is about the refs. -/
theorem on_refs (h : Acts P m process call later) :
    (∃ name id lease inode,
      process = .creator (.set name id) (.working lease (.synced inode)) ∧
        call = .rename refsDir (swapName lease.token) name) ∨
      (∃ name token, process = .remover (.ref name) (.drawn token) ∧
        call = .rename refsDir name (removedName token)) ∨
      ∀ name, isRefName name = true →
        ¬ call.Drops refsDir name ∧
          ∀ node, ¬ call.Fills m refsDir name node := by
  have hlive : ∀ name, isRefName name = true → Live refsDir name :=
    fun name hname => .inl ⟨rfl, hname⟩
  by_cases hdrops : ∃ name, isRefName name = true ∧ call.Drops refsDir name
  · obtain ⟨name, hname, hdrop⟩ := hdrops
    rcases h.drops hdrop with ⟨token, hbehind⟩ |
      ⟨target, token, rfl, rfl, hdir, rfl⟩
    · exact absurd hbehind (hlive name hname).not_behind
    · cases target with
      | tree id =>
          have hne : refsDir ≠ snapshotsDir := by decide
          exact absurd hdir hne
      | ref name => exact .inr (.inl ⟨name, token, rfl, rfl⟩)
  · by_cases hfills : ∃ name node, isRefName name = true ∧
        call.Fills m refsDir name node
    · obtain ⟨name, node, hname, hfill⟩ := hfills
      obtain ⟨id, lease, inode, rfl, -⟩ := h.fills_ref hname hfill
      cases h with
      | swap => exact .inl ⟨_, _, _, _, rfl, rfl⟩
      | _ => exact absurd hfill fun h => h
    · exact .inr (.inr fun name hname =>
        ⟨fun hdrop => hdrops ⟨name, hname, hdrop⟩,
          fun node hfill => hfills ⟨name, node, hname, hfill⟩⟩)

end Acts

/-! The simulation. -/

def Stage.Succeeded : Stage → Prop
  | .clearing _ (.ok ()) _ | .unlocking _ (.ok ()) | .unleasing _ (.ok ())
  | .answered (.ok ()) => True
  | _ => False

/-- What a process has seen of the register, or done to it. -/
def Process.Shown (disk : Volume Text Content)
    (reg : Register Text SnapshotId) (who : Nat) : Process → Prop
  | .reader _ (.opened inode) =>
      reg.seen who = some (refOf disk (some (.file inode)))
  | .reader _ (.answered (.ok found)) => reg.seen who = some found
  | .creator (.set name id) stage => stage.Succeeded → (name, id) ∈ reg.sets
  | _ => True

/-- The names and what they may stand for after a crash. -/
structure View (disk : Volume Text Content)
    (reg : Register Text SnapshotId) : Prop where
  value : ∀ name, isRefName name = true →
    refOf disk (disk.lookup refsDir name) = reg.value name
  values : ∀ name, isRefName name = true →
    ∀ found ∈ disk.values refsDir name, refOf disk found ∈ reg.values name

structure Shows (m : Machine) (reg : Register Text SnapshotId) : Prop where
  view : View m.disk reg
  faithful : reg.Faithful
  shown : ∀ who process, m.process who = some process →
    process.Shown m.disk reg who

/-- The operation on the register that a step stands for. -/
inductive Stands (m next : Machine) (reg : Register Text SnapshotId) :
    Register Text SnapshotId → Prop where
  | nothing : Stands m next reg reg
  | set {who : Nat} {name : Text} {id : SnapshotId} {lease : Lease}
      {inode : Nat}
      (hprocess : m.process who = some
        (.creator (.set name id) (.working lease (.synced inode)))) :
      Stands m next reg (reg.set name id)
  | remove {who : Nat} {name token : Text}
      (hprocess : m.process who =
        some (.remover (.ref name) (.drawn token))) :
      Stands m next reg (reg.remove name)
  | look {who : Nat} {name : Text}
      (hprocess : m.process who = some (.reader name .asked)) :
      Stands m next reg (reg.look who name)
  | crash {disk : Volume Text Content} {left : Register Text SnapshotId}
      (hcrash : m.disk.Crash disk) (hnext : next = m.reboot disk)
      (hleft : reg.Crash left) : Stands m next reg left

section Steps

theorem refOf_act (hrefs : Refs m) (hprocess : m.process who = some process)
    (hact : Acts P m process call later) (hname : isRefName name = true)
    {found : Option Node} (hmem : found ∈ m.disk.values refsDir name) :
    refOf (m.perform who call).disk found = refOf m.disk found := by
  cases found with
  | none => rfl
  | some node =>
      obtain ⟨inode, id, rfl, hfile⟩ := hrefs.refs name hname node hmem
      rw [hfile.refOf, (hrefs.refFile_act hprocess hact hfile).refOf]

theorem View.quiet (h : View m.disk reg) (hrefs : Refs m)
    (hprocess : m.process who = some process)
    (hact : Acts P m process call later)
    (hquiet : ∀ name, isRefName name = true →
      ¬ call.Drops refsDir name ∧ ∀ node, ¬ call.Fills m refsDir name node) :
    View (m.perform who call).disk reg where
  value := by
    intro name hname
    obtain ⟨hdrop, hfill⟩ := hquiet name hname
    rw [lookup_same hdrop hfill,
      refOf_act hrefs hprocess hact hname Volume.lookup_mem]
    exact h.value name hname
  values := by
    intro name hname found hmem
    obtain ⟨hdrop, hfill⟩ := hquiet name hname
    rw [values_same hdrop hfill] at hmem
    rw [refOf_act hrefs hprocess hact hname hmem]
    exact h.values name hname found hmem

/-- What another process has seen outlasts a call. -/
theorem Process.Shown.kept {found : Process} (hrefs : Refs m)
    (hprocess : m.process who = some process)
    (hact : Acts P m process call later)
    (hfound : m.process other = some found)
    (h : found.Shown m.disk reg other) (hsets : ∀ pair ∈ reg.sets,
      pair ∈ left.sets) (hseen : left.seen other = reg.seen other) :
    found.Shown (m.perform who call).disk left other := by
  have hok := hrefs.process other found hfound
  cases found with
  | creator job stage =>
      cases job with
      | project snapshot symlinks => trivial
      | set name id => exact fun hdone => hsets _ (h hdone)
  | remover target stage => trivial
  | reaper scratch stage => trivial
  | reader name stage =>
      cases stage with
      | asked => trivial
      | opened inode =>
          obtain ⟨id, hfile⟩ := hok
          change left.seen other = _
          rw [hseen, (hrefs.refFile_act hprocess hact hfile).refOf]
          exact h.trans (congrArg some hfile.refOf)
      | answered found =>
          cases found with
          | error error => trivial
          | ok found => exact hseen.trans h

theorem isRefName_ne_swapName (hname : isRefName name = true) :
    name ≠ swapName token := by
  rintro rfl
  exact isRefName_head hname (dotted_iff token).2.1

theorem isRefName_ne_removedName (hname : isRefName name = true) :
    name ≠ removedName token := by
  rintro rfl
  exact isRefName_head hname (dotted_iff token).2.2.1

theorem View.swap (h : View m.disk reg) (hrefs : Refs m) {lease : Lease}
    (hprocess : m.process who =
      some (.creator (.set name id) (.working lease (.synced inode))))
    (hact : Acts P m
      (.creator (.set name id) (.working lease (.synced inode)))
      (.rename refsDir (swapName lease.token) name) later)
    (hstaged : m.disk.lookup refsDir (swapName lease.token) =
      some (.file inode)) :
    View (m.perform who (.rename refsDir (swapName lease.token) name)).disk
      (reg.set name id) := by
  obtain ⟨-, hfile⟩ := hrefs.process who _ hprocess
  have hnew : refOf (m.perform who
      (.rename refsDir (swapName lease.token) name)).disk
        (some (.file inode)) = some id :=
    (hrefs.refFile_act hprocess hact hfile).refOf
  constructor
  · intro other hother
    have hlookup := @Volume.lookup_rename _ _ m.disk refsDir refsDir other _
      (swapName lease.token) name _ hstaged
    rw [if_neg fun heq => isRefName_ne_swapName hother heq.2] at hlookup
    by_cases heq : other = name
    · subst heq
      rw [if_pos ⟨rfl, rfl⟩] at hlookup
      change refOf _ ((m.disk.rename refsDir _ _).lookup refsDir _) =
        (reg.put other (some id)).value other
      rw [hlookup, Register.value_put_self]
      exact hnew
    · rw [if_neg fun hboth => heq hboth.2] at hlookup
      change refOf _ ((m.disk.rename refsDir _ _).lookup refsDir _) =
        (reg.put name (some id)).value other
      rw [hlookup, Register.value_put_of_ne heq, ← h.value other hother]
      exact refOf_act hrefs hprocess hact hother Volume.lookup_mem
  · intro other hother found hmem
    change _ ∈ (reg.put name (some id)).values other
    rcases Volume.mem_values_rename hmem with ⟨-, hname, -⟩ |
      ⟨-, rfl, rfl⟩ | hold
    · exact absurd hname (isRefName_ne_swapName hother)
    · rw [Register.values_put_self, hstaged]
      exact List.mem_cons.mpr (.inl hnew)
    · rw [refOf_act hrefs hprocess hact hother hold]
      have hbefore := h.values other hother found hold
      by_cases heq : other = name
      · subst heq
        rw [Register.values_put_self]
        exact List.mem_cons_of_mem _ hbefore
      · rw [Register.values_put_of_ne heq]
        exact hbefore

theorem View.claim (h : View m.disk reg) (hrefs : Refs m)
    (hprocess : m.process who = some (.remover (.ref name) (.drawn token)))
    (hact : Acts P m (.remover (.ref name) (.drawn token))
      (.rename refsDir name (removedName token)) later)
    (hlookup : m.disk.lookup refsDir name = some node) :
    View (m.perform who (.rename refsDir name (removedName token))).disk
      (reg.remove name) := by
  constructor
  · intro other hother
    have hafter := @Volume.lookup_rename _ _ m.disk refsDir refsDir other _
      name (removedName token) _ hlookup
    change refOf _ ((m.disk.rename refsDir _ _).lookup refsDir _) =
      (reg.put name none).value other
    by_cases heq : other = name
    · subst heq
      rw [if_pos ⟨rfl, rfl⟩] at hafter
      rw [hafter, Register.value_put_self]
      rfl
    · rw [if_neg fun hboth => heq hboth.2,
        if_neg fun hboth => isRefName_ne_removedName hother hboth.2] at hafter
      rw [hafter, Register.value_put_of_ne heq, ← h.value other hother]
      exact refOf_act hrefs hprocess hact hother Volume.lookup_mem
  · intro other hother found hmem
    change _ ∈ (reg.put name none).values other
    rcases Volume.mem_values_rename hmem with ⟨-, rfl, rfl⟩ |
      ⟨-, hname, -⟩ | hold
    · rw [Register.values_put_self]
      exact List.mem_cons_self
    · exact absurd hname (isRefName_ne_removedName hother)
    · rw [refOf_act hrefs hprocess hact hother hold]
      have hbefore := h.values other hother found hold
      by_cases heq : other = name
      · subst heq
        rw [Register.values_put_self]
        exact List.mem_cons_of_mem _ hbefore
      · rw [Register.values_put_of_ne heq]
        exact hbefore

theorem Acts.creator {job : Job} {stage : Stage}
    (h : Acts P m (.creator job stage) call later) :
    ∃ after, later = .creator job after := by
  cases h <;> exact ⟨_, rfl⟩

/-- An outcome is carried to the end. -/
theorem Acts.succeeded {job : Job} {stage next : Stage}
    (h : Acts P m (.creator job stage) call (.creator job next))
    (hjob : ∃ name id, job = .set name id) (hdone : next.Succeeded) :
    stage.Succeeded ∨ ∃ name id lease inode node, job = .set name id ∧
      stage = .working lease (.synced inode) ∧
        call = .rename refsDir (swapName lease.token) name ∧
          m.disk.lookup refsDir (swapName lease.token) = some node := by
  obtain ⟨name, id, rfl⟩ := hjob
  cases h with
  | swap hstaged => exact .inr ⟨_, _, _, _, _, rfl, rfl, rfl, hstaged⟩
  | @clear job lease outcome walk later call _ =>
      cases outcome with
      | ok done => exact .inl trivial
      | error error => exact False.elim hdone
  | @cleared job lease outcome walk call _ =>
      cases outcome with
      | ok done => exact .inl trivial
      | error error => exact False.elim hdone
  | @unlock job lease outcome =>
      cases outcome with
      | ok done => exact .inl trivial
      | error error => exact False.elim hdone
  | @unlease job lease outcome =>
      cases outcome with
      | ok done => exact .inl trivial
      | error error => exact False.elim hdone
  | @leave job lease outcome =>
      cases outcome with
      | ok done => exact .inl trivial
      | error error => exact False.elim hdone
  | _ => exact False.elim hdone

/-- A call that is not about the refs changes the register at most by what a
reader has seen. -/
theorem Shows.rest (h : Shows m reg) (hrefs : Refs m)
    (hprocess : m.process who = some process)
    (hact : Acts P m process call later)
    (hquiet : ∀ name, isRefName name = true →
      ¬ call.Drops refsDir name ∧ ∀ node, ¬ call.Fills m refsDir name node) :
    ∃ left, Stands m ((m.perform who call).become who later) reg left ∧
      Shows ((m.perform who call).become who later) left := by
  have hview := h.view.quiet hrefs hprocess hact hquiet
  have hmine := h.shown who process hprocess
  have hothers : ∀ left : Register Text SnapshotId, left.sets = reg.sets →
      (∀ other, other ≠ who → left.seen other = reg.seen other) →
        later.Shown (m.perform who call).disk left who →
          ∀ other found,
            ((m.perform who call).become who later).process other =
              some found →
                found.Shown (m.perform who call).disk left other := by
    intro left hsets hseen hlater other found hfound
    rcases Machine.process_become hfound with ⟨rfl, rfl⟩ | ⟨hne, hold⟩
    · exact hlater
    · rw [Machine.process_perform] at hold
      exact Process.Shown.kept hrefs hprocess hact hold
        (h.shown other found hold) (fun pair hpair => hsets ▸ hpair)
        (hseen other hne)
  have hstay : later.Shown (m.perform who call).disk reg who →
      ∃ left, Stands m ((m.perform who call).become who later) reg left ∧
        Shows ((m.perform who call).become who later) left := fun hlater =>
    ⟨reg, .nothing, hview, h.faithful,
      hothers reg rfl (fun _ _ => rfl) hlater⟩
  have hlook : ∀ name, process = .reader name .asked →
      later.Shown (m.perform who call).disk (reg.look who name) who →
        ∃ left, Stands m ((m.perform who call).become who later) reg left ∧
          Shows ((m.perform who call).become who later) left := by
    rintro name rfl hlater
    exact ⟨reg.look who name, .look hprocess, ⟨hview.value, hview.values⟩,
      h.faithful.look who name, hothers _ rfl
        (fun other hne => Function.update_of_ne hne ..) hlater⟩
  cases process with
  | creator job stage =>
      obtain ⟨after, rfl⟩ := hact.creator
      cases job with
      | project snapshot symlinks => exact hstay trivial
      | set name id =>
          refine hstay fun hdone => ?_
          rcases hact.succeeded ⟨name, id, rfl⟩ hdone with hbefore |
            ⟨_, _, lease, inode, node, hjob, rfl, rfl, hstaged⟩
          · exact hmine hbefore
          · cases hjob
            have hname := hrefs.sound.checked who _ hprocess
            exact absurd ⟨rfl, rfl, hstaged⟩ ((hquiet name hname).2 node)
  | remover target stage =>
      refine hstay ?_
      cases hact <;> trivial
  | reaper scratch stage =>
      refine hstay ?_
      cases hact <;> trivial
  | reader name stage =>
      cases hact with
      | openRef hname hlookup =>
          refine hlook name rfl ?_
          refine (Function.update_self ..).trans (congrArg some ?_)
          rw [← h.view.value name hname, hlookup]
          rfl
      | missing hname hlookup =>
          refine hlook name rfl ?_
          refine (Function.update_self ..).trans (congrArg some ?_)
          rw [← h.view.value name hname, hlookup]
          rfl
      | @read _ inode bytes id hcontent hparse =>
          refine hstay (hmine.trans (congrArg some ?_))
          have hbytes : (m.disk.inode inode).content = .bytes bytes := hcontent
          simp only [refOf, hbytes]
          exact hparse
      | unread hcontent hparse => exact hstay trivial
      | failed herror => exact hstay trivial

theorem Shows.act (h : Shows m reg) (hrefs : Refs m)
    (hprocess : m.process who = some process)
    (hact : Acts P m process call later) :
    ∃ left, Stands m ((m.perform who call).become who later) reg left ∧
      Shows ((m.perform who call).become who later) left := by
  rcases hact.on_refs with ⟨name, id, lease, inode, rfl, rfl⟩ |
    ⟨name, token, rfl, rfl⟩ | hquiet
  · have hswapped := hact
    obtain ⟨hstaged, hfile⟩ := hrefs.process who _ hprocess
    cases hact with
    | swap hlookup =>
        have hnode := hstaged.only _ (hlookup ▸ Volume.lookup_mem)
        rw [hnode] at hlookup
        refine ⟨reg.set name id, .set hprocess,
          h.view.swap hrefs hprocess hswapped hlookup,
          h.faithful.set name id, fun other found hfound => ?_⟩
        rcases Machine.process_become hfound with ⟨rfl, rfl⟩ | ⟨-, hold⟩
        · exact fun _ => List.mem_cons_self
        · rw [Machine.process_perform] at hold
          exact Process.Shown.kept hrefs hprocess hswapped hold
            (h.shown other found hold)
            (fun pair hpair => List.mem_cons_of_mem _ hpair) rfl
  · have hclaimed := hact
    cases hact with
    | claim hlookup =>
        refine ⟨reg.remove name, .remove hprocess,
          h.view.claim hrefs hprocess hclaimed hlookup,
          h.faithful.remove name, fun other found hfound => ?_⟩
        rcases Machine.process_become hfound with ⟨rfl, rfl⟩ | ⟨-, hold⟩
        · trivial
        · rw [Machine.process_perform] at hold
          exact Process.Shown.kept hrefs hprocess hclaimed hold
            (h.shown other found hold) (fun _ hpair => hpair) rfl
  · exact h.rest hrefs hprocess hact hquiet

theorem Shows.frame (h : Shows m reg) (hdisk : next.disk = m.disk)
    (hshown : ∀ who found, next.process who = some found →
      found.Shown m.disk reg who) : Shows next reg := by
  refine ⟨?_, h.faithful, fun who found hfound => ?_⟩
  · rw [hdisk]
    exact h.view
  · rw [hdisk]
    exact hshown who found hfound

theorem Shows.begin (h : Shows m reg) (hshown : process.Shown m.disk reg who) :
    Shows (m.become who process) reg := by
  refine h.frame rfl fun other found hfound => ?_
  rcases Machine.process_become hfound with ⟨rfl, rfl⟩ | ⟨-, hold⟩
  · exact hshown
  · exact h.shown other found hold

theorem Shows.move (h : Shows m reg) (hrefs : Refs m)
    (hmove : Move P m next) :
    ∃ left, Stands m next reg left ∧ Shows next left := by
  cases hmove with
  | project symlinks _ _ => exact ⟨reg, .nothing, h.begin trivial⟩
  | set name id _ =>
      exact ⟨reg, .nothing, h.begin fun hdone => False.elim hdone⟩
  | read name _ => exact ⟨reg, .nothing, h.begin trivial⟩
  | remove target _ => exact ⟨reg, .nothing, h.begin trivial⟩
  | reap _ _ _ => exact ⟨reg, .nothing, h.begin trivial⟩
  | draw hwaiting hissued hdraw =>
      refine ⟨reg, .nothing, h.frame rfl fun other found hfound => ?_⟩
      rcases Machine.process_become hfound with ⟨rfl, rfl⟩ | ⟨-, hold⟩
      · unfold Process.draw at hdraw
        split at hdraw
        · rename_i job
          cases hdraw
          cases job with
          | project snapshot symlinks => trivial
          | set name id => exact fun hdone => False.elim hdone
        · cases hdraw
          trivial
        · cases hdraw
      · exact h.shown other found hold
  | advance hprocess hhonest hplan =>
      exact h.act hrefs hprocess (plan_acts hhonest hplan)
  | kill who =>
      exact ⟨reg, .nothing, h.frame rfl fun other found hfound =>
        h.shown other found (Machine.process_kill hfound).2⟩

/-- What a crash leaves, as a register. -/
def recovered (disk : Volume Text Content) (reg : Register Text SnapshotId) :
    Register Text SnapshotId where
  value name :=
    if isRefName name = true then refOf disk (disk.lookup refsDir name)
    else reg.value name
  past _ := []
  sets := reg.sets
  seen := reg.seen

theorem Shows.crash (h : Shows m reg) (hrefs : Refs m)
    {disk : Volume Text Content} (hcrash : m.disk.Crash disk) :
    reg.Crash (recovered disk reg) ∧
      Shows (m.reboot disk) (recovered disk reg) := by
  have hcrashed : reg.Crash (recovered disk reg) := by
    refine ⟨fun name => ?_, fun _ => rfl, rfl⟩
    by_cases hname : isRefName name = true
    · have hvalue : (recovered disk reg).value name =
          refOf disk (disk.lookup refsDir name) := if_pos hname
      have hmem := hcrash.lookup refsDir name
      have hsame : refOf disk (disk.lookup refsDir name) =
          refOf m.disk (disk.lookup refsDir name) := by
        cases hlookup : disk.lookup refsDir name with
        | none => rfl
        | some node =>
            obtain ⟨inode, id, rfl, hfile⟩ :=
              hrefs.refs name hname node (hlookup ▸ hmem)
            simp only [refOf, hcrash.inode inode hfile.synced]
      rw [hvalue, hsame]
      exact h.view.values name hname _ hmem
    · have hvalue : (recovered disk reg).value name = reg.value name :=
        if_neg hname
      rw [hvalue]
      exact List.mem_cons_self
  refine ⟨hcrashed, ⟨fun name hname => (if_pos hname).symm, ?_⟩,
    h.faithful.crash hcrashed, fun _ _ hfound => by cases hfound⟩
  intro name hname found hmem
  change found ∈ disk.values refsDir name at hmem
  rw [hcrash.values] at hmem
  rw [List.mem_singleton.mp hmem]
  exact List.mem_cons.mpr (.inl (if_pos hname).symm)

theorem Shows.step (h : Shows m reg) (hrefs : Refs m)
    (hstep : Step P m next) :
    ∃ left, Stands m next reg left ∧ Shows next left := by
  cases hstep with
  | move hmove => exact h.move hrefs hmove
  | crash hcrash =>
      obtain ⟨hcrashed, hshows⟩ := h.crash hrefs hcrash
      exact ⟨_, .crash hcrash rfl hcrashed, hshows⟩

end Steps

/-- A run of the processes and the run of the register it stands for. -/
inductive Refined (P : Platform) :
    Machine → Register Text SnapshotId → Prop where
  | start : Refined P .start .empty
  | step {m next : Machine} {reg left : Register Text SnapshotId}
      (hrun : Refined P m reg) (hstep : Step P m next)
      (hstands : Stands m next reg left) (hshows : Shows next left) :
      Refined P next left

theorem Shows.start : Shows .start .empty where
  view := {
    value := fun _ _ => rfl
    values := fun _ _ found hmem => by
      simp only [Volume.values, Machine.start, List.mem_singleton] at hmem
      subst hmem
      exact List.mem_cons_self }
  faithful := .empty
  shown _ _ hfound := by cases hfound

/-- Every run of projections, sets, reads, removals, reaps, kills and crashes
is a run of a register for each ref: at its end each ref names what the register
holds, each read answers what the register held when it opened the ref, whoever
was told its set went through has set it, and no ref is ever unreadable. -/
theorem refs_linear (hreach : Reachable P m) :
    ∃ reg : Register Text SnapshotId, Refined P m reg ∧ reg.Faithful ∧
      (∀ name, isRefName name = true → m.readRef name = reg.value name) ∧
      (∀ who name found,
        m.process who = some (.reader name (.answered (.ok found))) →
          reg.seen who = some found) ∧
      (∀ who name id,
        m.process who = some (.creator (.set name id) (.answered (.ok ()))) →
          (name, id) ∈ reg.sets) ∧
      ∀ who name found,
        m.process who ≠
          some (.reader name (.answered (.error (.unreadableRef found)))) := by
  have hrun : ∃ reg, Refined P m reg ∧ Shows m reg := by
    induction hreach with
    | refl => exact ⟨_, .start, .start⟩
    | tail hsteps hstep ih =>
        obtain ⟨reg, hrun, hshows⟩ := ih
        obtain ⟨left, hstands, hleft⟩ := hshows.step (Refs.run hsteps) hstep
        exact ⟨left, .step hrun hstep hstands hleft, hleft⟩
  obtain ⟨reg, hrun, hshows⟩ := hrun
  refine ⟨reg, hrun, hshows.faithful, hshows.view.value, ?_, ?_, ?_⟩
  · exact fun who name found hprocess => hshows.shown who _ hprocess
  · exact fun who name id hprocess => hshows.shown who _ hprocess trivial
  · exact fun who name found hprocess =>
      (Refs.run hreach).process who _ hprocess found rfl

/-! Runs of one process that meets no fault. -/

def advance (P : Platform) (leaf : Text) (who : Nat) (m : Machine) :
    Option Machine :=
  (m.process who).bind fun process =>
    (plan P ⟨none, fun _ => none, leaf⟩ m process).map fun next =>
      (m.perform who next.1).become who next.2

def drive (P : Platform) (leaf : Text) (who : Nat) : Nat → Machine → Machine
  | 0, m => m
  | count + 1, m =>
      match advance P leaf who m with
      | some next => drive P leaf who count next
      | none => m

theorem advance_move {leaf : Text} (h : advance P leaf who m = some next) :
    Move P m next := by
  obtain ⟨process, hprocess, hnext⟩ := Option.bind_eq_some_iff.mp h
  obtain ⟨⟨call, later⟩, hplan, rfl⟩ := Option.map_eq_some_iff.mp hnext
  exact .advance hprocess (fun _ _ hview => by cases hview) hplan

theorem drive_moves {leaf : Text} {count : Nat} :
    Relation.ReflTransGen (Move P) m (drive P leaf who count m) := by
  induction count generalizing m with
  | zero => exact .refl
  | succ count ih =>
      rw [drive]
      split
      · exact .head (advance_move ‹_›) ih
      · exact .refl

/-! A ref set on an empty store, read while it is removed, and brought back by a
crash. -/

namespace MainRef

def platform : Platform := ⟨asciiUnicode, sha256, fun _ => none⟩

def refName : Text := "main".toList

def release : SnapshotId := sha256 []

def mine : Text := scratchToken 1 0 0

def theirs : Text := scratchToken 2 0 0

def waiting : Machine :=
  drive platform [] 0 1
    (Machine.start.become 0 (.creator (.set refName release) .asked))

def drawn : Machine :=
  { waiting with issued := mine :: waiting.issued }.become 0
    (.creator (.set refName release) (.drawn mine))

def answered : Machine := drive platform [] 0 12 drawn

/-- A reader has opened the ref. -/
def opened : Machine :=
  drive platform [] 1 1 (answered.become 1 (.reader refName .asked))

def removing : Machine :=
  drive platform [] 2 1 (opened.become 2 (.remover (.ref refName) .asked))

def claiming : Machine :=
  { removing with issued := theirs :: removing.issued }.become 2
    (.remover (.ref refName) (.drawn theirs))

def removed : Machine := drive platform [] 2 8 claiming

/-- The reader answers with what it opened. -/
def served : Machine := drive platform [] 1 1 removed

/-- The disk after a crash that lost the removal. -/
def revived : Volume Text Content :=
  served.disk.keeping refsDir refName (answered.disk.lookup refsDir refName)

def reread : Machine :=
  drive platform [] 3 2
    ((served.reboot revived).become 3 (.reader refName .asked))

theorem served_moves :
    Relation.ReflTransGen (Move platform) .start served := by
  obtain ⟨hwaiting, hfirst, hreader, hremover, hremoving, hsecond⟩ :
      waiting.process 0 = some (.creator (.set refName release) .absent) ∧
        scratchToken 1 0 0 ∉ waiting.issued ∧
        answered.process 1 = none ∧ opened.process 2 = none ∧
        removing.process 2 = some (.remover (.ref refName) .named) ∧
        scratchToken 2 0 0 ∉ removing.issued := by
    decide +kernel
  have hbegun : Move platform .start (Machine.start.become 0
      (.creator (.set refName release) .asked)) := .set _ _ rfl
  have hdrawn : Move platform waiting drawn :=
    @Move.draw platform waiting 0 1 0 0 _ _ hwaiting hfirst rfl
  have hread : Move platform answered
      (answered.become 1 (.reader refName .asked)) := .read _ hreader
  have hremove : Move platform opened
      (opened.become 2 (.remover (.ref refName) .asked)) := .remove _ hremover
  have hclaiming : Move platform removing claiming :=
    @Move.draw platform removing 2 2 0 0 _ _ hremoving hsecond rfl
  have hanswered : Relation.ReflTransGen (Move platform) .start answered :=
    ((Relation.ReflTransGen.single hbegun).trans drive_moves).trans
      (.head hdrawn drive_moves)
  have hopened : Relation.ReflTransGen (Move platform) answered opened :=
    .head hread drive_moves
  have hclaimed : Relation.ReflTransGen (Move platform) opened removing :=
    .head hremove drive_moves
  have hremoved : Relation.ReflTransGen (Move platform) removing removed :=
    .head hclaiming drive_moves
  exact (((hanswered.trans hopened).trans hclaimed).trans hremoved).trans
    drive_moves

theorem served_reachable : Reachable platform served :=
  served_moves.lift (fun m => m) fun _ _ => Step.move

/-- What the run leaves; the crash may keep the entry the ref had. -/
theorem run_at :
    served.process 0 =
        some (.creator (.set refName release) (.answered (.ok ()))) ∧
      served.process 1 =
        some (.reader refName (.answered (.ok (some release)))) ∧
      served.readRef refName = none ∧
      answered.disk.lookup refsDir refName ∈
        served.disk.values refsDir refName ∧
      reread.process 3 =
        some (.reader refName (.answered (.ok (some release)))) ∧
      reread.readRef refName = some release := by
  decide +kernel

theorem revived_crash : served.disk.Crash revived := by
  obtain ⟨-, -, -, hkept, -⟩ := run_at
  exact Volume.crash_keeping hkept

theorem reread_reachable : Reachable platform reread := by
  have hread : Move platform (served.reboot revived)
      ((served.reboot revived).become 3 (.reader refName .asked)) :=
    .read _ rfl
  have hmoves : Relation.ReflTransGen (Move platform)
      (served.reboot revived) reread := .head hread drive_moves
  exact (served_reachable.tail (.crash revived_crash)).trans
    (hmoves.lift (fun m => m) fun _ _ => Step.move)

theorem run_linear :
    (∃ reg : Register Text SnapshotId, reg.Faithful ∧
        (refName, release) ∈ reg.sets ∧ reg.seen 1 = some (some release) ∧
          reg.value refName = none) ∧
      ∃ reg : Register Text SnapshotId, reg.Faithful ∧
        reg.seen 3 = some (some release) ∧ reg.value refName = some release := by
  have hname : isRefName refName = true := by decide
  obtain ⟨hset, hread, hgone, -, hreread, hback⟩ := run_at
  obtain ⟨reg, -, hfaithful, hvalue, hseen, hsets, -⟩ :=
    refs_linear served_reachable
  obtain ⟨left, -, hleft, hvalues, hlast, -⟩ := refs_linear reread_reachable
  exact ⟨⟨reg, hfaithful, hsets 0 refName release hset,
      hseen 1 refName (some release) hread,
      (hvalue refName hname).symm.trans hgone⟩,
    left, hleft, hlast 3 refName (some release) hreread,
      (hvalues refName hname).symm.trans hback⟩

end MainRef

end TensorFS.Projection
