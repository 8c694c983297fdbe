import TensorFS.Projection.Acts
import Mathlib.Logic.Relation

namespace TensorFS.Projection

open Data

variable {P : Platform} {m next : Machine} {who other : Nat}
  {process later : Process} {call : Call} {dir : Nat} {name token : Text}
  {node : Node}

/-! Names of scratch artifacts, and the tokens behind them. -/

/-- The names a token stands behind. -/
def Behind (token : Text) (dir : Nat) (name : Text) : Prop :=
  (dir = tmpDir ∧ name = leaseName token) ∨ name = buildingName token ∨
    name = swapName token ∨ name = removedName token

/-- The names a reader may follow. -/
def Live (dir : Nat) (name : Text) : Prop :=
  (dir = refsDir ∧ isRefName name = true) ∨
    (dir = snapshotsDir ∧ ∃ id, name = treeName id)

theorem buildingName_inj {left right : Text}
    (h : buildingName left = buildingName right) : left = right := by
  unfold buildingName at h
  exact List.append_cancel_left h

theorem swapName_inj {left right : Text} (h : swapName left = swapName right) :
    left = right := by
  unfold swapName at h
  exact List.append_cancel_left h

theorem removedName_inj {left right : Text}
    (h : removedName left = removedName right) : left = right := by
  unfold removedName at h
  exact List.append_cancel_left h

theorem leaseName_inj {left right : Text}
    (h : leaseName left = leaseName right) : left = right := by
  unfold leaseName at h
  exact List.append_cancel_left (List.append_cancel_right h)

theorem buildingName_ne_swapName (left right : Text) :
    buildingName left ≠ swapName right := by
  unfold buildingName swapName
  simp

theorem buildingName_ne_removedName (left right : Text) :
    buildingName left ≠ removedName right := by
  unfold buildingName removedName
  simp

theorem swapName_ne_removedName (left right : Text) :
    swapName left ≠ removedName right := by
  unfold swapName removedName
  simp

/-- Scratch names other than a lease's start with a dot. -/
theorem dotted_iff (token : Text) :
    (buildingName token).head? = some '.' ∧
      (swapName token).head? = some '.' ∧
        (removedName token).head? = some '.' ∧
          (leaseName token).head? = some 'b' := by
  unfold buildingName swapName removedName leaseName
  simp

theorem isRefName_head (h : isRefName name = true) :
    name.head? ≠ some '.' := by
  intro hhead
  simp [isRefName, hhead] at h

theorem treeName_head (id : SnapshotId) : (treeName id).head? ≠ some '.' := by
  intro hhead
  exact (toHex_plain (List.mem_of_head? hhead)).2 rfl

theorem Behind.inj {left right : Text} (hleft : Behind left dir name)
    (hright : Behind right dir name) : left = right := by
  have hl := dotted_iff left
  have hr := dotted_iff right
  rcases hleft with ⟨-, rfl⟩ | rfl | rfl | rfl
  · rcases hright with ⟨-, hname⟩ | hname | hname | hname
    · exact leaseName_inj hname
    all_goals simp [hname, hr] at hl
  · rcases hright with ⟨-, hname⟩ | hname | hname | hname
    · simp [hname, hr] at hl
    · exact buildingName_inj hname
    · exact absurd hname (buildingName_ne_swapName _ _)
    · exact absurd hname (buildingName_ne_removedName _ _)
  · rcases hright with ⟨-, hname⟩ | hname | hname | hname
    · simp [hname, hr] at hl
    · exact absurd hname.symm (buildingName_ne_swapName _ _)
    · exact swapName_inj hname
    · exact absurd hname (swapName_ne_removedName _ _)
  · rcases hright with ⟨-, hname⟩ | hname | hname | hname
    · simp [hname, hr] at hl
    · exact absurd hname.symm (buildingName_ne_removedName _ _)
    · exact absurd hname.symm (swapName_ne_removedName _ _)
    · exact removedName_inj hname

theorem Live.not_behind (h : Live dir name) : ¬ Behind token dir name := by
  have hdots := dotted_iff token
  have hplain : name.head? ≠ some '.' := by
    rcases h with ⟨-, hname⟩ | ⟨-, id, rfl⟩
    · exact isRefName_head hname
    · exact treeName_head id
  rintro (⟨hdir, -⟩ | rfl | rfl | rfl)
  · rcases h with ⟨hrefs, -⟩ | ⟨hsnapshots, -⟩
    · exact absurd (hdir.symm.trans hrefs) (by decide)
    · exact absurd (hdir.symm.trans hsnapshots) (by decide)
  · exact hplain hdots.1
  · exact hplain hdots.2.1
  · exact hplain hdots.2.2.1

/-! What the calls do to names and inodes. -/

/-- The name a call gives to a node. -/
def Call.Fills (m : Machine) : Call → Nat → Text → Node → Prop
  | .makeFile at' key, dir, name, node =>
      dir = at' ∧ name = key ∧ node = .file m.disk.next
  | .makeTree at' key, dir, name, node =>
      dir = at' ∧ name = key ∧ node = .directory m.disk.next
  | .rename at' source target, dir, name, node =>
      dir = at' ∧ name = target ∧ m.disk.lookup at' source = some node
  | _, _, _, _ => False

/-- Whether a call takes a name away. -/
def Call.Drops : Call → Nat → Text → Prop
  | .rename at' source _, dir, name => dir = at' ∧ name = source
  | .unlink at' key, dir, name => dir = at' ∧ name = key
  | _, _, _ => False

theorem mem_values_perform
    (h : some node ∈ (m.perform who call).disk.values dir name) :
    call.Fills m dir name node ∨ some node ∈ m.disk.values dir name := by
  cases call with
  | makeFile at' key =>
      rcases Volume.mem_values_create.mp h with ⟨hdir, hname, hnode⟩ | hold
      · exact .inl ⟨hdir, hname, Option.some.inj hnode⟩
      · exact .inr hold
  | makeTree at' key =>
      rcases Volume.mem_values_write.mp h with ⟨hdir, hname, hnode⟩ | hold
      · exact .inl ⟨hdir, hname, Option.some.inj hnode⟩
      · exact .inr hold
  | rename at' source target =>
      rcases Volume.mem_values_rename h with ⟨-, -, hnode⟩ |
        ⟨hdir, hname, hnode⟩ | hold
      · cases hnode
      · exact .inl ⟨hdir, hname, hnode.symm⟩
      · exact .inr hold
  | unlink at' key =>
      rcases Volume.mem_values_write.mp h with ⟨-, -, hnode⟩ | hold
      · cases hnode
      · exact .inr hold
  | _ => exact .inr h

/-- Without a sync or a crash nothing a name stood for is forgotten. -/
theorem values_perform {value : Option Node}
    (h : value ∈ m.disk.values dir name) :
    value ∈ (m.perform who call).disk.values dir name := by
  cases call with
  | makeFile at' key => exact Volume.mem_values_create.mpr (.inr h)
  | makeTree at' key => exact Volume.mem_values_write.mpr (.inr h)
  | rename at' source target =>
      simp only [Machine.perform, Machine.onDisk, Volume.rename]
      split
      · exact Volume.mem_values_write.mpr
          (.inr (Volume.mem_values_write.mpr (.inr h)))
      · exact h
  | unlink at' key => exact Volume.mem_values_write.mpr (.inr h)
  | _ => exact h

/-- What a name stands for after a call. -/
theorem lookup_perform
    (h : (m.perform who call).disk.lookup dir name = some node) :
    call.Fills m dir name node ∨
      (m.disk.lookup dir name = some node ∧ ¬ call.Drops dir name) := by
  cases call with
  | makeFile at' key =>
      by_cases heq : dir = at' ∧ name = key
      · exact .inl ⟨heq.1, heq.2, Option.some.inj (h.symm.trans (if_pos heq))⟩
      · exact .inr ⟨(if_neg heq).symm.trans h, id⟩
  | makeTree at' key =>
      by_cases heq : dir = at' ∧ name = key
      · exact .inl ⟨heq.1, heq.2, Option.some.inj (h.symm.trans (if_pos heq))⟩
      · exact .inr ⟨(if_neg heq).symm.trans h, id⟩
  | rename at' source target =>
      cases hsource : m.disk.lookup at' source with
      | none =>
          have hsame : (m.perform who (.rename at' source target)).disk =
              m.disk := by
            simp only [Machine.perform, Machine.onDisk, Volume.rename, hsource]
          rw [hsame] at h
          refine .inr ⟨h, ?_⟩
          rintro ⟨rfl, rfl⟩
          rw [hsource] at h
          cases h
      | some found =>
          have hafter := (Volume.lookup_rename hsource).symm.trans h
          split at hafter
          · cases hafter
          · rename_i hne
            split at hafter
            · rename_i heq
              exact .inl ⟨heq.1, heq.2, hsource.trans hafter⟩
            · exact .inr ⟨hafter, hne⟩
  | unlink at' key =>
      by_cases heq : dir = at' ∧ name = key
      · have hnone := h.symm.trans (if_pos heq)
        cases hnone
      · exact .inr ⟨(if_neg heq).symm.trans h, heq⟩
  | _ => exact .inr ⟨h, id⟩

theorem lookup_kept (h : m.disk.lookup dir name = some node)
    (hdrop : ¬ call.Drops dir name)
    (hfill : ∀ found, ¬ call.Fills m dir name found) :
    (m.perform who call).disk.lookup dir name = some node := by
  cases call with
  | makeFile at' key =>
      exact (if_neg fun heq => hfill _ ⟨heq.1, heq.2, rfl⟩).trans h
  | makeTree at' key =>
      exact (if_neg fun heq => hfill _ ⟨heq.1, heq.2, rfl⟩).trans h
  | rename at' source target =>
      cases hsource : m.disk.lookup at' source with
      | none =>
          simp only [Machine.perform, Machine.onDisk, Volume.rename, hsource]
          exact h
      | some found =>
          refine (Volume.lookup_rename hsource).trans ?_
          have hsourceName : ¬ (dir = at' ∧ name = source) := hdrop
          rw [if_neg hsourceName,
            if_neg fun heq => hfill found ⟨heq.1, heq.2, hsource⟩]
          exact h
  | unlink at' key => exact (if_neg hdrop).trans h
  | _ => exact h

theorem next_perform : m.disk.next ≤ (m.perform who call).disk.next := by
  cases call with
  | makeFile at' key => exact Nat.le_succ _
  | makeTree at' key => exact Nat.le_succ _
  | rename at' source target =>
      simp only [Machine.perform, Machine.onDisk, Volume.next_rename]
      exact Nat.le_refl _
  | _ => exact Nat.le_refl _

/-- The inode whose content or state a call changes. -/
def Call.inode? : Call → Option Nat
  | .edit inode _ | .sync inode => some inode
  | _ => none

theorem inode_perform {inode : Nat} (hlt : inode < m.disk.next)
    (hne : call.inode? ≠ some inode) :
    (m.perform who call).disk.inode inode = m.disk.inode inode := by
  cases call with
  | makeFile at' key => exact Function.update_of_ne (Nat.ne_of_lt hlt) _ _
  | makeTree at' key => exact Function.update_of_ne (Nat.ne_of_lt hlt) _ _
  | edit found content =>
      exact Function.update_of_ne (fun heq => hne (congrArg some heq.symm)) _ _
  | sync found =>
      exact Function.update_of_ne (fun heq => hne (congrArg some heq.symm)) _ _
  | rename at' source target =>
      simp only [Machine.perform, Machine.onDisk, Volume.inode_rename]
  | _ => rfl

theorem inode_edit {inode : Nat} {content : Content} :
    (m.perform who (.edit inode content)).disk.inode inode =
      ⟨content, false, 0⟩ :=
  Function.update_self ..

theorem inode_sync {inode : Nat} :
    (m.perform who (.sync inode)).disk.inode inode =
      { m.disk.inode inode with synced := true } :=
  Function.update_self ..

theorem inode_makeFile {at' : Nat} {key : Text} :
    (m.perform who (.makeFile at' key)).disk.inode m.disk.next =
      ⟨.bytes [], false, 0⟩ :=
  Function.update_self ..

theorem inode_makeTree {at' : Nat} {key : Text} :
    (m.perform who (.makeTree at' key)).disk.inode m.disk.next =
      ⟨.tree [], false, 0⟩ :=
  Function.update_self ..

/-! Tokens. -/

namespace Process

/-- The token of a process that has one. -/
def token? : Process → Option Text
  | .creator _ (.drawn token) => some token
  | .creator _ (.created lease) | .creator _ (.working lease _)
  | .creator _ (.clearing lease _ _) | .creator _ (.unlocking lease _)
  | .creator _ (.unleasing lease _) => some lease.token
  | .remover _ (.drawn token) | .remover _ (.claimed token _) => some token
  | _ => none

/-- The names that nothing has had yet. -/
def Unused : Process → Nat → Text → Prop
  | .creator _ (.drawn token), dir, name =>
      (dir = tmpDir ∧ name = leaseName token) ∨ name = buildingName token ∨
        name = swapName token
  | .creator _ (.created lease), _, name
  | .creator _ (.working lease .started), _, name =>
      name = buildingName lease.token ∨ name = swapName lease.token
  | .remover _ (.drawn token), _, name => name = removedName token
  | _, _, _ => False

/-- A ref's name has been checked once the process has gone on. -/
def Checked : Process → Prop
  | .creator _ .asked | .creator _ (.answered _) => True
  | .creator (.set name _) _ => isRefName name = true
  | .remover _ .asked | .remover _ (.answered _) => True
  | .remover (.ref name) _ => isRefName name = true
  | _ => True

theorem Unused.behind (h : process.Unused dir name) :
    ∃ token, process.token? = some token ∧ Behind token dir name := by
  unfold Unused at h
  split at h
  · exact ⟨_, rfl, h.imp_right (Or.imp_right .inl)⟩
  · exact ⟨_, rfl, .inr (h.imp_right .inl)⟩
  · exact ⟨_, rfl, .inr (h.imp_right .inl)⟩
  · exact ⟨_, rfl, .inr (.inr (.inr h))⟩
  · exact absurd h id

end Process

theorem Walks.not_fills {at' : Nat} {key : Text} {walk : Walk}
    {left : Option Walk} (h : Walks m at' key walk call left) :
    ¬ call.Fills m dir name node := by
  cases h <;> exact id

namespace Acts

variable (h : Acts P m process call later)
include h

theorem reaper {scratch : Scratch} {stage : ReapStage}
    (hlater : later = .reaper scratch stage) :
    ∃ before, process = .reaper scratch before := by
  cases h <;> cases hlater <;> exact ⟨_, rfl⟩

theorem token_eq : later.token? = process.token? ∨ later.token? = none := by
  cases h
  all_goals first
    | exact .inl rfl
    | exact .inr rfl

theorem checked (hchecked : process.Checked) : later.Checked := by
  cases h with
  | named hname =>
      rename_i job
      cases job with
      | project => trivial
      | set name id => exact hname name id rfl
  | name hname =>
      rename_i target
      cases target with
      | tree id => trivial
      | ref name => exact hname name rfl
  | again => rename_i job token; cases job <;> exact hchecked
  | create => rename_i job token _; cases job <;> exact hchecked
  | take => rename_i job lease _; cases job <;> exact hchecked
  | giveUp => rename_i job lease work; cases job <;> exact hchecked
  | refuse => rename_i job lease work; cases job <;> exact hchecked
  | clear => rename_i job _ _ _ _ _; cases job <;> exact hchecked
  | cleared => rename_i job _ _ _ _; cases job <;> exact hchecked
  | unlock => rename_i job _ _; cases job <;> exact hchecked
  | claim => rename_i target _ _ _; cases target <;> exact hchecked
  | empty => rename_i target _ _ _ _; cases target <;> exact hchecked
  | _ => first
    | exact hchecked
    | trivial

theorem fills (hchecked : process.Checked)
    (hfills : call.Fills m dir name node) :
    (∃ token, process.token? = some token ∧ Behind token dir name) ∨
      Live dir name := by
  cases h with
  | create =>
      obtain ⟨rfl, rfl, -⟩ := hfills
      exact .inl ⟨_, rfl, .inl ⟨rfl, rfl⟩⟩
  | makeTree =>
      obtain ⟨rfl, rfl, -⟩ := hfills
      exact .inl ⟨_, rfl, .inr (.inl rfl)⟩
  | stage =>
      obtain ⟨rfl, rfl, -⟩ := hfills
      exact .inl ⟨_, rfl, .inr (.inr (.inl rfl))⟩
  | finish =>
      obtain ⟨rfl, rfl, -⟩ := hfills
      exact .inr (.inr ⟨rfl, _, rfl⟩)
  | swap =>
      obtain ⟨rfl, rfl, -⟩ := hfills
      exact .inr (.inl ⟨rfl, hchecked⟩)
  | claim =>
      obtain ⟨-, rfl, -⟩ := hfills
      exact .inl ⟨_, rfl, .inr (.inr (.inr rfl))⟩
  | clear hwalk => exact absurd hfills hwalk.not_fills
  | cleared hwalk => exact absurd hfills hwalk.not_fills
  | empty hwalk => exact absurd hfills hwalk.not_fills
  | emptied hwalk => exact absurd hfills hwalk.not_fills
  | reap hwalk => exact absurd hfills hwalk.not_fills
  | reaped hwalk => exact absurd hfills hwalk.not_fills
  | _ => exact absurd hfills id

/-- What is unused after a call was so before, and the call left it. -/
theorem unused (hunused : later.Unused dir name) :
    process.Unused dir name ∧ ∀ node, ¬ call.Fills m dir name node := by
  cases h with
  | @create job token _ =>
      refine ⟨.inr hunused, ?_⟩
      rintro node ⟨-, rfl, -⟩
      obtain ⟨hbuilding, hswap, -, hlease⟩ := dotted_iff token
      rcases hunused with hname | hname
      · rw [hname, hbuilding] at hlease
        cases hlease
      · rw [hname, hswap] at hlease
        cases hlease
  | take => exact ⟨hunused, fun _ => id⟩
  | _ => exact absurd hunused id

end Acts

/-! Invariants of every run. -/

structure Sound (m : Machine) : Prop where
  roots : 3 ≤ m.disk.next
  allocated : m.disk.Named fun _ _ node => node.inode < m.disk.next
  issued : m.disk.Named fun dir name _ =>
    ∀ token, Behind token dir name → token ∈ m.issued
  tokens : ∀ who process token, m.process who = some process →
    process.token? = some token → token ∈ m.issued
  apart : ∀ who other left right token, m.process who = some left →
    m.process other = some right → left.token? = some token →
      right.token? = some token → who = other
  unused : ∀ who process dir name node, m.process who = some process →
    process.Unused dir name → some node ∉ m.disk.values dir name
  checked : ∀ who process, m.process who = some process → process.Checked
  sampled : ∀ who scratch stage token,
    m.process who = some (.reaper scratch stage) →
      scratch.leased = some token → token ∈ m.issued

namespace Machine

theorem process_perform : (m.perform who call).process = m.process := by
  cases call <;> rfl

theorem issued_perform : (m.perform who call).issued = m.issued := by
  cases call <;> rfl

theorem process_become {found : Process}
    (h : (m.become who process).process other = some found) :
    (other = who ∧ found = process) ∨
      (other ≠ who ∧ m.process other = some found) := by
  by_cases heq : other = who
  · subst heq
    have hsame : process = found := by simpa [become] using h
    exact .inl ⟨rfl, hsame.symm⟩
  · exact .inr ⟨heq, by simpa [become, heq] using h⟩

theorem process_kill {found : Process}
    (h : (m.kill who).process other = some found) :
    other ≠ who ∧ m.process other = some found := by
  by_cases heq : other = who
  · subst heq
    simp [kill] at h
  · exact ⟨heq, by simpa [kill, heq] using h⟩

end Machine

namespace Sound

theorem lookup_lt (h : Sound m) (hlookup : m.disk.lookup dir name = some node) :
    node.inode < m.disk.next :=
  h.allocated dir name node (hlookup ▸ Volume.lookup_mem)

/-- A node that a call names was there before or has just been made. -/
theorem fills_allocated (h : Sound m) (hfills : call.Fills m dir name node) :
    node.inode < (m.perform who call).disk.next := by
  cases call with
  | makeFile at' key =>
      obtain ⟨-, -, rfl⟩ := hfills
      exact Nat.lt_succ_self _
  | makeTree at' key =>
      obtain ⟨-, -, rfl⟩ := hfills
      exact Nat.lt_succ_self _
  | rename at' source target =>
      obtain ⟨-, -, hlookup⟩ := hfills
      exact Nat.lt_of_lt_of_le
        (h.allocated at' source node (hlookup ▸ Volume.lookup_mem))
        next_perform
  | _ => exact absurd hfills id

theorem act (h : Sound m) (hprocess : m.process who = some process)
    (hact : Acts P m process call later) :
    Sound ((m.perform who call).become who later) where
  roots := Nat.le_trans h.roots next_perform
  allocated := by
    intro dir name node hmem
    rcases mem_values_perform hmem with hfills | hold
    · exact h.fills_allocated hfills
    · exact Nat.lt_of_lt_of_le (h.allocated dir name node hold) next_perform
  issued := by
    intro dir name node hmem token hbehind
    change token ∈ (m.perform who call).issued
    rw [Machine.issued_perform]
    rcases mem_values_perform hmem with hfills | hold
    · rcases hact.fills (h.checked who process hprocess) hfills with
        ⟨found, htoken, hfound⟩ | hlive
      · rw [hbehind.inj hfound]
        exact h.tokens who process found hprocess htoken
      · exact absurd hbehind hlive.not_behind
    · exact h.issued dir name node hold token hbehind
  tokens := by
    intro other found token hfound htoken
    change token ∈ (m.perform who call).issued
    rw [Machine.issued_perform]
    rcases Machine.process_become hfound with ⟨rfl, rfl⟩ | ⟨-, hold⟩
    · rcases hact.token_eq with hsame | hnone
      · exact h.tokens other process token hprocess (hsame ▸ htoken)
      · rw [hnone] at htoken
        cases htoken
    · rw [Machine.process_perform] at hold
      exact h.tokens other found token hold htoken
  apart := by
    intro first second left right token hleft hright htoken hsame
    have hback : ∀ other found,
        ((m.perform who call).become who later).process other = some found →
          found.token? = some token →
            ∃ before, m.process other = some before ∧
              before.token? = some token := by
      intro other found hfound hhas
      rcases Machine.process_become hfound with ⟨rfl, rfl⟩ | ⟨-, hold⟩
      · rcases hact.token_eq with hkept | hnone
        · exact ⟨process, hprocess, hkept ▸ hhas⟩
        · rw [hnone] at hhas
          cases hhas
      · rw [Machine.process_perform] at hold
        exact ⟨found, hold, hhas⟩
    obtain ⟨before, hbefore, hfirst⟩ := hback first left hleft htoken
    obtain ⟨after, hafter, hsecond⟩ := hback second right hright hsame
    exact h.apart first second before after token hbefore hafter hfirst hsecond
  unused := by
    intro other found dir name node hfound hunused hmem
    rcases Machine.process_become hfound with ⟨rfl, rfl⟩ | ⟨hne, hold⟩
    · obtain ⟨hbefore, hleft⟩ := hact.unused hunused
      rcases mem_values_perform hmem with hfills | hkept
      · exact hleft node hfills
      · exact h.unused other process dir name node hprocess hbefore hkept
    · rw [Machine.process_perform] at hold
      rcases mem_values_perform hmem with hfills | hkept
      · obtain ⟨token, htoken, hbehind⟩ := hunused.behind
        rcases hact.fills (h.checked who process hprocess) hfills with
          ⟨mine, hmine, hfound⟩ | hlive
        · rw [hfound.inj hbehind] at hmine
          exact hne (h.apart other who found process token hold hprocess htoken
            hmine)
        · exact absurd hbehind hlive.not_behind
      · exact h.unused other found dir name node hold hunused hkept
  checked := by
    intro other found hfound
    rcases Machine.process_become hfound with ⟨rfl, rfl⟩ | ⟨-, hold⟩
    · exact hact.checked (h.checked other process hprocess)
    · rw [Machine.process_perform] at hold
      exact h.checked other found hold
  sampled := by
    intro other scratch stage token hfound hleased
    change token ∈ (m.perform who call).issued
    rw [Machine.issued_perform]
    rcases Machine.process_become hfound with ⟨rfl, rfl⟩ | ⟨-, hold⟩
    · obtain ⟨before, rfl⟩ := hact.reaper rfl
      exact h.sampled other scratch before token hprocess hleased
    · rw [Machine.process_perform] at hold
      exact h.sampled other scratch stage token hold hleased

/-- A process that has just begun holds nothing. -/
theorem begin (h : Sound m) (htoken : process.token? = none)
    (hchecked : process.Checked)
    (hsampled : ∀ scratch stage token, process = .reaper scratch stage →
      scratch.leased = some token → token ∈ m.issued) :
    Sound (m.become who process) where
  roots := h.roots
  allocated := h.allocated
  issued := h.issued
  tokens := by
    intro other found token hfound hhas
    rcases Machine.process_become hfound with ⟨rfl, rfl⟩ | ⟨-, hold⟩
    · rw [htoken] at hhas
      cases hhas
    · exact h.tokens other found token hold hhas
  apart := by
    intro first second left right token hleft hright hfirst hsecond
    rcases Machine.process_become hleft with ⟨rfl, rfl⟩ | ⟨-, hleft⟩
    · rw [htoken] at hfirst
      cases hfirst
    · rcases Machine.process_become hright with ⟨rfl, rfl⟩ | ⟨-, hright⟩
      · rw [htoken] at hsecond
        cases hsecond
      · exact h.apart first second left right token hleft hright hfirst hsecond
  unused := by
    intro other found dir name node hfound hunused
    rcases Machine.process_become hfound with ⟨rfl, rfl⟩ | ⟨-, hold⟩
    · obtain ⟨token, hhas, -⟩ := hunused.behind
      rw [htoken] at hhas
      cases hhas
    · exact h.unused other found dir name node hold hunused
  checked := by
    intro other found hfound
    rcases Machine.process_become hfound with ⟨rfl, rfl⟩ | ⟨-, hold⟩
    · exact hchecked
    · exact h.checked other found hold
  sampled := by
    intro other scratch stage token hfound hleased
    rcases Machine.process_become hfound with ⟨rfl, hsame⟩ | ⟨-, hold⟩
    · exact hsampled scratch stage token hsame.symm hleased
    · exact h.sampled other scratch stage token hold hleased

theorem draw (h : Sound m) {waiting drawn : Process}
    (hwaiting : m.process who = some waiting) (hissued : token ∉ m.issued)
    (hdraw : waiting.draw token = some drawn) :
    Sound ({ m with issued := token :: m.issued }.become who drawn) := by
  have hhas : drawn.token? = some token ∧ drawn.Checked ∧
      ∀ scratch stage, drawn ≠ .reaper scratch stage := by
    have hchecked := h.checked who waiting hwaiting
    unfold Process.draw at hdraw
    split at hdraw
    · rename_i job
      cases hdraw
      refine ⟨rfl, ?_, fun _ _ => by simp⟩
      cases job <;> exact hchecked
    · rename_i target
      cases hdraw
      refine ⟨rfl, ?_, fun _ _ => by simp⟩
      cases target <;> exact hchecked
    · cases hdraw
  obtain ⟨htoken, hchecked, hreaper⟩ := hhas
  have hfresh : ∀ other found, m.process other = some found →
      found.token? ≠ some token :=
    fun other found hfound hsame =>
      hissued (h.tokens other found token hfound hsame)
  constructor
  · exact h.roots
  · exact h.allocated
  · intro dir name node hmem found hbehind
    exact List.mem_cons_of_mem _ (h.issued dir name node hmem found hbehind)
  · intro other found mine hfound hmine
    rcases Machine.process_become hfound with ⟨rfl, rfl⟩ | ⟨-, hold⟩
    · rw [htoken] at hmine
      cases hmine
      exact List.mem_cons_self
    · exact List.mem_cons_of_mem _ (h.tokens other found mine hold hmine)
  · intro first second left right mine hleft hright hfirst hsecond
    rcases Machine.process_become hleft with ⟨rfl, rfl⟩ | ⟨-, holdLeft⟩
    · rcases Machine.process_become hright with ⟨rfl, rfl⟩ | ⟨-, holdRight⟩
      · rfl
      · rw [htoken] at hfirst
        cases hfirst
        exact absurd hsecond (hfresh second right holdRight)
    · rcases Machine.process_become hright with ⟨rfl, rfl⟩ | ⟨-, holdRight⟩
      · rw [htoken] at hsecond
        cases hsecond
        exact absurd hfirst (hfresh first left holdLeft)
      · exact h.apart first second left right mine holdLeft holdRight hfirst
          hsecond
  · intro other found dir name node hfound hunused hmem
    rcases Machine.process_become hfound with ⟨rfl, rfl⟩ | ⟨-, hold⟩
    · obtain ⟨mine, hmine, hbehind⟩ := hunused.behind
      rw [htoken] at hmine
      cases hmine
      exact hissued (h.issued dir name node hmem token hbehind)
    · exact h.unused other found dir name node hold hunused hmem
  · intro other found hfound
    rcases Machine.process_become hfound with ⟨rfl, rfl⟩ | ⟨-, hold⟩
    · exact hchecked
    · exact h.checked other found hold
  · intro other scratch stage mine hfound hleased
    rcases Machine.process_become hfound with ⟨rfl, hsame⟩ | ⟨-, hold⟩
    · exact absurd hsame.symm (hreaper scratch stage)
    · exact List.mem_cons_of_mem _
        (h.sampled other scratch stage mine hold hleased)

theorem kill (h : Sound m) : Sound (m.kill who) where
  roots := h.roots
  allocated := h.allocated
  issued := h.issued
  tokens other found token hfound :=
    h.tokens other found token (Machine.process_kill hfound).2
  apart first second left right token hleft hright :=
    h.apart first second left right token (Machine.process_kill hleft).2
      (Machine.process_kill hright).2
  unused other found dir name node hfound :=
    h.unused other found dir name node (Machine.process_kill hfound).2
  checked other found hfound :=
    h.checked other found (Machine.process_kill hfound).2
  sampled other scratch stage token hfound :=
    h.sampled other scratch stage token (Machine.process_kill hfound).2

theorem crash (h : Sound m) {disk : Volume Text Content}
    (hcrash : m.disk.Crash disk) : Sound (m.reboot disk) where
  roots := by
    change 3 ≤ disk.next
    rw [hcrash.next]
    exact h.roots
  allocated := by
    intro dir name node hmem
    change node.inode < disk.next
    rw [hcrash.next]
    exact h.allocated dir name node (hcrash.mem_values hmem)
  issued dir name node hmem :=
    h.issued dir name node (hcrash.mem_values hmem)
  tokens _ _ _ hfound := by cases hfound
  apart _ _ _ _ _ hfound := by cases hfound
  unused _ _ _ _ _ hfound := by cases hfound
  checked _ _ hfound := by cases hfound
  sampled _ _ _ _ hfound := by cases hfound

/-- The token of a name that is listed has been issued. -/
theorem listed (h : Sound m) {scratch : Scratch}
    (hlisted : (m.disk.lookup scratch.dir scratch.name).isSome = true)
    (hleased : scratch.leased = some token) : token ∈ m.issued := by
  obtain ⟨node, hnode⟩ := Option.isSome_iff_exists.mp hlisted
  refine h.issued scratch.dir scratch.name node (hnode ▸ Volume.lookup_mem)
    token ?_
  cases scratch with
  | building found =>
      cases hleased
      exact .inr (.inl rfl)
  | swap found =>
      cases hleased
      exact .inr (.inr (.inl rfl))
  | removed dir found => cases hleased
  | lease found =>
      cases hleased
      exact .inl ⟨rfl, rfl⟩

theorem move (h : Sound m) (hmove : Move P m next) : Sound next := by
  cases hmove with
  | project symlinks _ _ =>
      exact h.begin rfl trivial fun _ _ _ hsame => by cases hsame
  | set name id _ => exact h.begin rfl trivial fun _ _ _ hsame => by cases hsame
  | read name _ => exact h.begin rfl trivial fun _ _ _ hsame => by cases hsame
  | remove target _ =>
      exact h.begin rfl trivial fun _ _ _ hsame => by cases hsame
  | reap _ _ hlisted =>
      refine h.begin rfl trivial fun scratch stage token hsame hleased => ?_
      cases hsame
      exact h.listed hlisted hleased
  | draw hwaiting hissued hdraw => exact h.draw hwaiting hissued hdraw
  | advance hprocess hhonest hplan =>
      exact h.act hprocess (plan_acts hhonest hplan)
  | kill who => exact h.kill

theorem start : Sound .start where
  roots := Nat.le_refl 3
  allocated _ _ _ hmem := by simp [Volume.values, Machine.start] at hmem
  issued _ _ _ hmem := by simp [Volume.values, Machine.start] at hmem
  tokens _ _ _ hfound := by cases hfound
  apart _ _ _ _ _ hfound := by cases hfound
  unused _ _ _ _ _ hfound := by cases hfound
  checked _ _ hfound := by cases hfound
  sampled _ _ _ _ hfound := by cases hfound

end Sound

end TensorFS.Projection
