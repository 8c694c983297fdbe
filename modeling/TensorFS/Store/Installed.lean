import TensorFS.Store.Sound

namespace TensorFS.Install

open Data

variable {P : Platform}

/-! The invariant of all processes on one store, in any run. -/

@[simp] def Stage.pending : Stage → Prop
  | .created _ | .leased _ => True
  | _ => False

@[simp] def Stage.leases : Stage → Prop
  | .leased _ | .flushed | .fanned | .housed | .readOnly | .linked
  | .leafSynced | .parentSynced | .sealed | .refused | .dropping _ => True
  | _ => False

@[simp] def Stage.durable : Stage → Prop
  | .flushed | .fanned | .housed | .readOnly | .linked | .leafSynced
  | .parentSynced | .sealed | .refused | .rehashing | .reading _
  | .unlinking _ | .returned _ => True
  | _ => False

@[simp] def Stage.error : Stage → Option StoreError
  | .dropping error | .failing error | .failed error => some error
  | _ => none

/-- The errors that name damage to a resident object. -/
def StoreError.Damage : StoreError → Prop
  | .corruptObject _ _ | .notARegularFile _ => True
  | _ => False

namespace ObjectWriter

def LengthOk (writer : ObjectWriter) : Prop :=
  ∀ expected length, writer.expecting = some (expected, length) →
    writer.written = length

def DigestOk (P : Platform) (writer : ObjectWriter) : Prop :=
  ∀ expected length, writer.expecting = some (expected, length) →
    writer.digest P = expected

end ObjectWriter

/-- What has been checked against the expectation. -/
@[simp] def Stage.Matches (P : Platform) (writer : ObjectWriter) : Stage → Prop
  | .flushed => writer.LengthOk
  | .fanned | .housed | .readOnly | .linked | .leafSynced | .parentSynced
  | .sealed | .refused | .rehashing | .reading _ | .unlinking _
  | .returned _ => writer.LengthOk ∧ writer.DigestOk P
  | _ => True

structure WriterOk (P : Platform) (m : Machine) (who : Nat)
    (writer : ObjectWriter) (stage : Stage) : Prop where
  issued : writer.path ∈ m.issued
  allocated : writer.inode < m.disk.next
  temp : ∀ value ∈ m.disk.values tmpDir writer.path,
    value = none ∨ value = some (.file writer.inode)
  pending : stage.pending → (m.disk.inode writer.inode).synced = false ∧
    (m.disk.inode writer.inode).content = writer.hashed
  durable : stage.durable → (m.disk.inode writer.inode).synced = true ∧
    (m.disk.inode writer.inode).content = writer.hashed
  lease : stage.leases → m.lock writer.inode = some who
  reading : ∀ inode, stage = .reading inode → inode < m.disk.next ∧
    (m.disk.inode inode).synced = true ∧
      P.sha256 (m.disk.inode inode).content = writer.digest P
  matched : stage.Matches P writer
  error : ∀ error, stage.error = some error → ¬ error.Damage

def ReclaimStage.identity? : ReclaimStage → Option TempIdentity
  | .listed identity | .opened identity | .locked identity
  | .checked identity => some identity
  | _ => none

def ReclaimStage.holds : ReclaimStage → Option Nat
  | .locked identity | .checked identity => some identity.inode
  | .closing inode _ => some inode
  | _ => none

structure CollectorOk (m : Machine) (who : Nat) (name : Text)
    (stage : ReclaimStage) : Prop where
  issued : name ∈ m.issued
  temp : ∀ identity, stage.identity? = some identity →
    ∀ value ∈ m.disk.values tmpDir name,
      value = none ∨ value = some (.file identity.inode)
  lease : ∀ inode, stage.holds = some inode → m.lock inode = some who

def ProcessOk (P : Platform) (m : Machine) (who : Nat) : Process → Prop
  | .writer writer stage => WriterOk P m who writer stage
  | .collector name stage => CollectorOk m who name stage
  | .remover _ _ => True

/-- The process table and the clock do not matter to a process. -/
theorem ProcessOk.congr {m next : Machine} {who : Nat} {process : Process}
    (h : ProcessOk P m who process) (hdisk : next.disk = m.disk)
    (hlock : next.lock = m.lock) (hissued : next.issued = m.issued) :
    ProcessOk P next who process := by
  cases m
  cases next
  cases hdisk
  cases hlock
  cases hissued
  cases process with
  | writer writer stage =>
      exact ⟨h.issued, h.allocated, h.temp, h.pending, h.durable, h.lease,
        h.reading, h.matched, h.error⟩
  | collector name stage => exact ⟨h.issued, h.temp, h.lease⟩
  | remover digest stage => trivial

def Process.temp? : Process → Option Nat
  | .writer admission _ => some admission.inode
  | _ => none

def Machine.temp? (m : Machine) (who : Nat) : Option Nat :=
  (m.process who).bind Process.temp?

structure Inv (P : Platform) (m : Machine) : Prop where
  sound : Sound P m.disk m.issued
  process : ∀ who process, m.process who = some process →
    ProcessOk P m who process
  distinct : ∀ who other inode, m.temp? who = some inode →
    m.temp? other = some inode → who = other

theorem Inv.allocated {m : Machine} (h : Inv P m) {who inode : Nat}
    (htemp : m.temp? who = some inode) : inode < m.disk.next := by
  obtain ⟨process, hprocess, hinode⟩ := Option.bind_eq_some_iff.mp htemp
  cases process with
  | writer writer stage =>
      cases hinode
      exact WriterOk.allocated (h.process who _ hprocess)
  | collector name stage => cases hinode
  | remover digest stage => cases hinode

/-- What a step of one process leaves alone for the others. -/
structure Keeps (m : Machine) (who : Nat) (disk : Volume Text Bytes)
    (lock : Nat → Option Nat) : Prop where
  values : ∀ name ∈ m.issued, ∀ value ∈ disk.values tmpDir name,
    value = none ∨ value ∈ m.disk.values tmpDir name
  synced : ∀ inode < m.disk.next, (m.disk.inode inode).synced = true →
    disk.inode inode = m.disk.inode inode
  temps : ∀ other inode, other ≠ who → m.temp? other = some inode →
    disk.inode inode = m.disk.inode inode
  next : m.disk.next ≤ disk.next
  lock : ∀ inode other, other ≠ who → m.lock inode = some other →
    lock inode = some other

/-- The machine after a step of one process. -/
def Machine.moved (m : Machine) (who : Nat) (disk : Volume Text Bytes)
    (lock : Nat → Option Nat) (issued : List Text) (process : Process) :
    Machine :=
  { m with
    disk := disk
    lock := lock
    issued := issued
    process := Function.update m.process who (some process) }

section Moved

variable {m : Machine} {who other : Nat} {disk : Volume Text Bytes}
  {lock : Nat → Option Nat} {issued : List Text} {process moving : Process}

theorem ProcessOk.keep (h : ProcessOk P m other process)
    (hkeeps : Keeps m who disk lock) (hne : other ≠ who)
    (hprocess : m.process other = some process)
    (hissued : ∀ name ∈ m.issued, name ∈ issued) :
    ProcessOk P (m.moved who disk lock issued moving) other process := by
  cases process with
  | writer writer stage =>
      have htemp : m.temp? other = some writer.inode := by
        rw [Machine.temp?, hprocess]
        rfl
      have hinode : (m.moved who disk lock issued moving).disk.inode
          writer.inode = m.disk.inode writer.inode :=
        hkeeps.temps other writer.inode hne htemp
      refine ⟨hissued _ h.issued, Nat.lt_of_lt_of_le h.allocated hkeeps.next,
        ?_, ?_, ?_, ?_, ?_, h.matched, h.error⟩
      · intro value hvalue
        rcases hkeeps.values _ h.issued value hvalue with hnone | hold
        · exact .inl hnone
        · exact h.temp value hold
      · intro hstage
        rw [hinode]
        exact h.pending hstage
      · intro hstage
        rw [hinode]
        exact h.durable hstage
      · exact fun hstage => hkeeps.lock _ _ hne (h.lease hstage)
      · intro inode hstage
        obtain ⟨hlt, hreading⟩ := h.reading inode hstage
        have hsame : (m.moved who disk lock issued moving).disk.inode inode =
            m.disk.inode inode := hkeeps.synced inode hlt hreading.1
        rw [hsame]
        exact ⟨Nat.lt_of_lt_of_le hlt hkeeps.next, hreading⟩
  | collector name stage =>
      refine ⟨hissued _ h.issued, ?_, ?_⟩
      · intro identity hstage value hvalue
        rcases hkeeps.values _ h.issued value hvalue with hnone | hold
        · exact .inl hnone
        · exact h.temp identity hstage value hold
      · exact fun inode hstage => hkeeps.lock _ _ hne (h.lease inode hstage)
  | remover digest stage => trivial

theorem temp?_moved :
    (m.moved who disk lock issued moving).temp? other =
      if other = who then moving.temp? else m.temp? other := by
  simp only [Machine.temp?, Machine.moved, Function.update_apply]
  split <;> rfl

/-- One step keeps the invariant when the disk stays sound, the others are left
alone and the mover is in order. -/
theorem Inv.moved (h : Inv P m) (hsound : Sound P disk issued)
    (hkeeps : Keeps m who disk lock)
    (hissued : ∀ name ∈ m.issued, name ∈ issued)
    (hmoving : ProcessOk P (m.moved who disk lock issued moving) who moving)
    (htemp : ∀ inode, moving.temp? = some inode →
      m.temp? who = some inode ∨
        ∀ other, other ≠ who → m.temp? other ≠ some inode) :
    Inv P (m.moved who disk lock issued moving) := by
  refine ⟨hsound, ?_, ?_⟩
  · intro other process hprocess
    by_cases heq : other = who
    · subst heq
      have hsame : moving = process := by
        simpa [Machine.moved] using hprocess
      exact hsame ▸ hmoving
    · have hold : m.process other = some process := by
        simpa [Machine.moved, Function.update_of_ne heq] using hprocess
      exact (h.process other process hold).keep hkeeps heq hold hissued
  · intro first second inode hfirst hsecond
    rw [temp?_moved] at hfirst hsecond
    have hown : ∀ other, other ≠ who → moving.temp? = some inode →
        m.temp? other ≠ some inode := by
      intro other hne hmoves hother
      rcases htemp inode hmoves with hmine | hfresh
      · exact hne (h.distinct other who inode hother hmine)
      · exact hfresh other hne hother
    by_cases hf : first = who
    · by_cases hs : second = who
      · exact hf.trans hs.symm
      · rw [if_pos hf] at hfirst
        rw [if_neg hs] at hsecond
        exact absurd hsecond (hown second hs hfirst)
    · by_cases hs : second = who
      · rw [if_neg hf] at hfirst
        rw [if_pos hs] at hsecond
        exact absurd hfirst (hown first hf hsecond)
      · rw [if_neg hf] at hfirst
        rw [if_neg hs] at hsecond
        exact h.distinct first second inode hfirst hsecond

/-- The stages that the same facts about the writer's file hold in. -/
structure Stage.Turn (P : Platform) (writer : ObjectWriter)
    (stage later : Stage) : Prop where
  pending : later.pending → stage.pending
  durable : later.durable → stage.durable
  leases : later.leases → stage.leases
  reading : ∀ inode, later ≠ .reading inode
  matched : stage.Matches P writer → later.Matches P writer
  error : ∀ error, later.error = some error → ¬ error.Damage

theorem Stage.Turn.giveUp {writer : ObjectWriter} {stage : Stage}
    (hleases : stage.leases) {error : StoreError} (herror : ¬ error.Damage) :
    stage.Turn P writer (.dropping error) where
  pending := False.elim
  durable := False.elim
  leases _ := hleases
  reading _ := by simp
  matched _ := trivial
  error found hfound := by
    cases hfound
    exact herror

variable {writer : ObjectWriter} {stage later : Stage}

/-- A step that moves names only. -/
theorem Inv.turn (h : Inv P m)
    (hprocess : m.process who = some (.writer writer stage))
    (hturn : stage.Turn P writer later) (hsound : Sound P disk m.issued)
    (hkeeps : Keeps m who disk m.lock) (hinode : disk.inode = m.disk.inode) :
    Inv P (m.moved who disk m.lock m.issued (.writer writer later)) := by
  have hok : WriterOk P m who writer stage := h.process who _ hprocess
  have htemp : m.temp? who = some writer.inode := by
    rw [Machine.temp?, hprocess]
    rfl
  refine h.moved hsound hkeeps (fun _ hname => hname) ?_ ?_
  · refine ⟨hok.issued, Nat.lt_of_lt_of_le hok.allocated hkeeps.next, ?_, ?_,
      ?_, fun hstage => hok.lease (hturn.leases hstage),
      fun inode heq => absurd heq (hturn.reading inode),
      hturn.matched hok.matched, hturn.error⟩
    · intro value hvalue
      rcases hkeeps.values _ hok.issued value hvalue with hnone | hold
      · exact .inl hnone
      · exact hok.temp value hold
    · intro hstage
      have hpending := hok.pending (hturn.pending hstage)
      rwa [← hinode] at hpending
    · intro hstage
      have hdurable := hok.durable (hturn.durable hstage)
      rwa [← hinode] at hdurable
  · rintro inode ⟨⟩
    exact .inl htemp

theorem Keeps.same : Keeps m who m.disk m.lock :=
  ⟨fun _ _ _ hmem => .inr hmem, fun _ _ _ => rfl, fun _ _ _ _ => rfl,
    Nat.le_refl _, fun _ _ _ h => h⟩

theorem Keeps.relock (hlock : ∀ inode other, other ≠ who →
    m.lock inode = some other → lock inode = some other) :
    Keeps m who m.disk lock :=
  ⟨fun _ _ _ hmem => .inr hmem, fun _ _ _ => rfl, fun _ _ _ _ => rfl,
    Nat.le_refl _, hlock⟩

theorem Keeps.release {inode : Nat} (h : m.lock inode = some who) :
    Keeps m who m.disk (m.release inode).lock := by
  refine Keeps.relock ?_
  intro other holder hne hlock
  refine (Function.update_of_ne ?_ _ _).trans hlock
  rintro rfl
  rw [h] at hlock
  exact hne (Option.some.inj hlock).symm

theorem Keeps.acquire {inode : Nat} (h : m.lock inode = none) :
    Keeps m who m.disk (m.acquire inode who).lock := by
  refine Keeps.relock ?_
  intro other holder hne hlock
  refine (Function.update_of_ne ?_ _ _).trans hlock
  rintro rfl
  rw [h] at hlock
  cases hlock

/-- A write of a name is invisible in the temp directory or unlinks there. -/
theorem Keeps.write {dir : Nat} {name : Text} {value : Option Node}
    (h : dir ≠ tmpDir ∨ value = none) :
    Keeps m who (m.disk.write dir name value) m.lock := by
  refine ⟨?_, fun _ _ _ => rfl, fun _ _ _ _ => rfl, Nat.le_refl _,
    fun _ _ _ hlock => hlock⟩
  intro name' _ found hfound
  rcases Volume.mem_values_write.mp hfound with ⟨hdir, -, rfl⟩ | hold
  · exact .inl (h.resolve_left fun hne => hne hdir.symm)
  · exact .inr hold

theorem Keeps.makeDirectory {dir : Nat} {name : Text} (h : dir ≠ tmpDir) :
    Keeps m who (m.disk.makeDirectory dir name) m.lock := by
  refine ⟨?_, fun _ _ _ => rfl, fun _ _ _ _ => rfl, Nat.le_succ _,
    fun _ _ _ hlock => hlock⟩
  intro name' _ found hfound
  rcases Volume.mem_values_makeDirectory.mp hfound with ⟨hdir, -, -⟩ | hold
  · exact absurd hdir.symm h
  · exact .inr hold

theorem Keeps.syncDirectory {dir : Nat} :
    Keeps m who (m.disk.syncDirectory dir) m.lock :=
  ⟨fun _ _ _ hmem => .inr (Volume.mem_values_syncDirectory hmem),
    fun _ _ _ => rfl, fun _ _ _ _ => rfl, Nat.le_refl _, fun _ _ _ h => h⟩

/-- The writer's own file while no object path can name it. -/
theorem Keeps.own (h : Inv P m) {inode : Nat}
    (htemp : m.temp? who = some inode)
    (hopen : (m.disk.inode inode).synced = false) {later : Inode Bytes} :
    Keeps m who { m.disk with
      inode := Function.update m.disk.inode inode later } m.lock := by
  refine ⟨fun _ _ _ hmem => .inr hmem, ?_, ?_, Nat.le_refl _,
    fun _ _ _ hlock => hlock⟩
  · intro other _ hsynced
    apply Function.update_of_ne
    rintro rfl
    rw [hopen] at hsynced
    cases hsynced
  · intro other at' hne hother
    apply Function.update_of_ne
    rintro rfl
    exact hne (h.distinct other who at' hother htemp)

theorem Sound.own (h : Sound P m.disk m.issued) {inode : Nat}
    (hopen : (m.disk.inode inode).synced = false) {later : Inode Bytes} :
    Sound P { m.disk with
      inode := Function.update m.disk.inode inode later } m.issued := by
  refine h.shrink (fun _ _ _ hmem => .inr hmem) ?_ rfl
  intro other hsynced
  apply Function.update_of_ne
  rintro rfl
  rw [hopen] at hsynced
  cases hsynced

/-- The directories that an object's path leads through. -/
theorem Sound.directoryAt (h : Sound P m.disk m.issued) {path : List Text}
    {dir : Nat} (hpath : m.disk.directoryAt sha256Dir path = some dir) :
    dir ≠ tmpDir ∧ dir < m.disk.next := by
  refine Volume.directoryAt_named
    (Q := fun dir => dir ≠ tmpDir ∧ dir < m.disk.next) hpath
    ⟨by decide, Nat.lt_of_lt_of_le (by decide) h.roots⟩ ?_
  rintro dir name node hmem below rfl
  obtain ⟨hroot, hlt, -⟩ := h.directories dir name _ hmem below rfl
  exact ⟨Nat.ne_of_gt (Nat.lt_of_lt_of_le (by decide) hroot), hlt⟩

variable {error : StoreError} {next : Machine}

theorem Inv.become (h : Inv P m)
    (hprocess : m.process who = some (.writer writer stage))
    (hturn : stage.Turn P writer later) :
    Inv P (m.become who (.writer writer later)) :=
  h.turn hprocess hturn h.sound Keeps.same rfl

theorem Inv.giveUp (h : Inv P m)
    (hprocess : m.process who = some (.writer writer stage))
    (hleases : stage.leases) (herror : ¬ error.Damage) :
    Inv P (giveUp m who writer error) :=
  h.become hprocess (Stage.Turn.giveUp hleases herror)

theorem Inv.fanOut (h : Inv P m)
    (hprocess : m.process who = some (.writer writer stage))
    (hturn : stage.Turn P writer later) (hleases : stage.leases)
    {above : List Text} {name : Text} (hname : name.length ≤ 2) :
    Inv P (fanOut m who writer above name later) := by
  unfold Install.fanOut
  split
  · exact h.giveUp hprocess hleases id
  · rename_i made hmade
    obtain ⟨dir, hdir, hensure⟩ := Option.bind_eq_some_iff.mp hmade
    obtain ⟨hne, hlt⟩ := h.sound.directoryAt hdir
    unfold Machine.ensureDirectory at hensure
    split at hensure
    · cases hensure
      exact h.turn hprocess hturn (h.sound.makeDirectory hne hlt hname)
        (Keeps.makeDirectory hne) rfl
    · cases hensure
      exact h.become hprocess hturn
    · cases hensure

theorem Inv.syncAbove (h : Inv P m)
    (hprocess : m.process who = some (.writer writer stage))
    (hturn : stage.Turn P writer later) (hleases : stage.leases)
    {path : List Text} :
    Inv P (syncAbove m who writer path later) := by
  unfold Install.syncAbove
  split
  · exact h.giveUp hprocess hleases id
  · rename_i dir hdir
    exact h.turn hprocess hturn h.sound.syncDirectory Keeps.syncDirectory rfl

theorem Inv.hardLink (h : Inv P m)
    (hprocess : m.process who = some (.writer writer .readOnly)) :
    Inv P (hardLink P m who writer) := by
  have hok : WriterOk P m who writer .readOnly := h.process who _ hprocess
  unfold Install.hardLink
  split
  · rename_i node dir hnode hdir
    obtain ⟨hne, hlt⟩ := h.sound.directoryAt hdir
    split
    · exact h.become hprocess (by constructor <;> simp)
    · have hfile : node = .file writer.inode := by
        simpa [hnode] using hok.temp _ Volume.lookup_mem
      obtain ⟨hsynced, hcontent⟩ := hok.durable trivial
      subst hfile
      refine h.turn hprocess (by constructor <;> simp) ?_
        (Keeps.write (.inl hne)) rfl
      exact h.sound.link hne hlt hok.allocated hsynced
        (by rw [hcontent]; rfl)
  · exact h.giveUp hprocess trivial id

theorem Sound.openObject (h : Sound P m.disk m.issued) {digest : ObjectDigest}
    {inode : Nat} (hopen : m.openObject digest = .ok inode) :
    inode < m.disk.next ∧ (m.disk.inode inode).synced = true ∧
      P.sha256 (m.disk.inode inode).content = digest := by
  unfold Machine.openObject at hopen
  split at hopen
  · rename_i found hnode
    cases hopen
    obtain ⟨dir, hdir, hlookup⟩ := Option.bind_eq_some_iff.mp hnode
    have hmem : some (.file inode) ∈ m.disk.values dir (toHex digest) :=
      hlookup ▸ Volume.lookup_mem
    obtain ⟨hsynced, hname⟩ := h.whole dir _ _ hmem inode rfl
      (h.directoryAt hdir).1
    exact ⟨h.files dir _ _ hmem inode rfl, hsynced, toHex_inj hname⟩
  · cases hopen
  · cases hopen

/-- Nothing but a file is ever at an object's path. -/
theorem Sound.openObject_error (h : Sound P m.disk m.issued)
    {digest : ObjectDigest} (hopen : m.openObject digest = .error error) :
    error = .missing digest := by
  unfold Machine.openObject at hopen
  split at hopen
  · cases hopen
  · rename_i found hnode
    obtain ⟨dir, hdir, hlookup⟩ := Option.bind_eq_some_iff.mp hnode
    obtain ⟨-, -, hlength⟩ := h.directories dir _ _
      (hlookup ▸ Volume.lookup_mem) found rfl
    rw [length_toHex] at hlength
    omega
  · cases hopen
    rfl

theorem Inv.release (h : Inv P m)
    (hprocess : m.process who = some (.writer writer stage))
    (hleases : stage.leases) (hturn : stage.Turn P writer later)
    (hfree : ¬ later.leases) :
    Inv P ((m.release writer.inode).become who (.writer writer later)) := by
  have hok : WriterOk P m who writer stage := h.process who _ hprocess
  have htemp : m.temp? who = some writer.inode := by
    rw [Machine.temp?, hprocess]
    rfl
  refine h.moved h.sound (Keeps.release (hok.lease hleases))
    (fun _ hname => hname) ?_ ?_
  · exact ⟨hok.issued, hok.allocated, hok.temp,
      fun hstage => hok.pending (hturn.pending hstage),
      fun hstage => hok.durable (hturn.durable hstage),
      fun hstage => absurd hstage hfree,
      fun inode heq => absurd heq (hturn.reading inode),
      hturn.matched hok.matched, hturn.error⟩
  · rintro inode ⟨⟩
    exact .inl htemp

theorem Inv.unlinkTemp (h : Inv P m)
    (hprocess : m.process who = some (.writer writer stage))
    (hturn : stage.Turn P writer later) :
    Inv P ((m.onDisk (m.disk.unlink tmpDir writer.path)).become who
      (.writer writer later)) := by
  exact h.turn hprocess hturn h.sound.unlink (Keeps.write (.inr rfl)) rfl

theorem Inv.acquire (h : Inv P m) {blocks : List Bytes}
    (hprocess : m.process who = some (.writer writer (.created blocks)))
    (hfree : m.lock writer.inode = none) :
    Inv P ((m.acquire writer.inode who).become who
      (.writer writer (.leased blocks))) := by
  have hok : WriterOk P m who writer (.created blocks) :=
    h.process who _ hprocess
  have htemp : m.temp? who = some writer.inode := by
    rw [Machine.temp?, hprocess]
    rfl
  refine h.moved h.sound (Keeps.acquire hfree) (fun _ hname => hname) ?_ ?_
  · exact ⟨hok.issued, hok.allocated, hok.temp, fun _ => hok.pending trivial,
      False.elim, fun _ => Function.update_self .., by simp, trivial, by simp⟩
  · rintro inode ⟨⟩
    exact .inl htemp

theorem Inv.writeBlock (h : Inv P m) {blocks rest : List Bytes}
    (hprocess : m.process who = some (.writer writer (.leased blocks)))
    (block : Bytes) :
    Inv P ((m.onDisk (writeBlock m writer block)).become who
      (.writer { writer with hashed := writer.hashed ++ block }
        (.leased rest))) := by
  have hok : WriterOk P m who writer (.leased blocks) :=
    h.process who _ hprocess
  have htemp : m.temp? who = some writer.inode := by
    rw [Machine.temp?, hprocess]
    rfl
  obtain ⟨hopen, hcontent⟩ := hok.pending trivial
  refine h.moved (h.sound.own hopen) (Keeps.own h htemp hopen)
    (fun _ hname => hname) ?_ ?_
  · refine ⟨hok.issued, hok.allocated, hok.temp, fun _ => ?_, False.elim,
      fun _ => hok.lease trivial, by simp, trivial, by simp⟩
    simp [Machine.moved, Machine.onDisk, Install.writeBlock, Volume.edit,
      hcontent]
  · rintro inode ⟨⟩
    exact .inl htemp

theorem Inv.flush (h : Inv P m)
    (hprocess : m.process who = some (.writer writer (.leased [])))
    (hlength : writer.LengthOk) :
    Inv P ((m.onDisk (m.disk.sync writer.inode)).become who
      (.writer writer .flushed)) := by
  have hok : WriterOk P m who writer (.leased []) := h.process who _ hprocess
  have htemp : m.temp? who = some writer.inode := by
    rw [Machine.temp?, hprocess]
    rfl
  obtain ⟨hopen, hcontent⟩ := hok.pending trivial
  refine h.moved (h.sound.own hopen) (Keeps.own h htemp hopen)
    (fun _ hname => hname) ?_ ?_
  · refine ⟨hok.issued, hok.allocated, hok.temp, False.elim, fun _ => ?_,
      fun _ => hok.lease trivial, by simp, hlength, by simp⟩
    simp [Machine.moved, Machine.onDisk, Volume.sync, hcontent]
  · rintro inode ⟨⟩
    exact .inl htemp

theorem Inv.rehash (h : Inv P m) {inode : Nat}
    (hprocess : m.process who = some (.writer writer .rehashing))
    (hopen : m.openObject (writer.digest P) = .ok inode) :
    Inv P (m.become who (.writer writer (.reading inode))) := by
  have hok : WriterOk P m who writer .rehashing := h.process who _ hprocess
  have htemp : m.temp? who = some writer.inode := by
    rw [Machine.temp?, hprocess]
    rfl
  refine h.moved h.sound Keeps.same (fun _ hname => hname) ?_ ?_
  · refine ⟨hok.issued, hok.allocated, hok.temp, False.elim,
      fun _ => hok.durable trivial, False.elim, ?_, hok.matched, by simp⟩
    rintro found ⟨⟩
    exact h.sound.openObject hopen
  · rintro inode ⟨⟩
    exact .inl htemp

/-- Each call of an admission keeps the invariant. -/
theorem Inv.advanceWriter (h : Inv P m)
    (hprocess : m.process who = some (.writer writer stage))
    (hnext : advanceWriter P m who writer stage = some next) : Inv P next := by
  have hok : WriterOk P m who writer stage := h.process who _ hprocess
  cases stage with
  | created blocks =>
      simp only [Install.advanceWriter, Option.some.injEq] at hnext
      subst hnext
      split
      · rename_i hfree
        exact h.acquire hprocess hfree
      · exact h.become hprocess (by constructor <;> simp [StoreError.Damage])
  | leased blocks =>
      cases blocks with
      | nil =>
          simp only [Install.advanceWriter, Option.some.injEq] at hnext
          subst hnext
          split
          · rename_i expected length hexpecting
            split
            · exact h.giveUp hprocess trivial id
            · rename_i hlength
              apply h.flush hprocess
              intro found size hfound
              rw [hexpecting] at hfound
              cases hfound
              exact not_not.mp hlength
          · rename_i hexpecting
            apply h.flush hprocess
            intro found size hfound
            rw [hexpecting] at hfound
            cases hfound
      | cons block blocks =>
          cases hnext
          exact h.writeBlock hprocess block
  | flushed =>
      have hfan : writer.DigestOk P → Inv P (Install.fanOut m who writer []
          ((toHex (writer.digest P)).take 2) .fanned) := by
        intro hdigest
        refine h.fanOut hprocess ?_ trivial (List.length_take_le _ _)
        constructor <;> simp [hdigest]
      simp only [Install.advanceWriter, Option.some.injEq] at hnext
      subst hnext
      split
      · rename_i expected length hexpecting
        split
        · exact h.giveUp hprocess trivial id
        · rename_i hdigest
          apply hfan
          intro found size hfound
          rw [hexpecting] at hfound
          cases hfound
          exact not_not.mp hdigest
      · rename_i hexpecting
        apply hfan
        intro found size hfound
        rw [hexpecting] at hfound
        cases hfound
  | fanned =>
      cases hnext
      exact h.fanOut hprocess (by constructor <;> simp) trivial
        (List.length_take_le _ _)
  | housed =>
      simp only [Install.advanceWriter, Option.some.injEq] at hnext
      subst hnext
      split
      · exact h.become hprocess (by constructor <;> simp)
      · exact h.giveUp hprocess trivial id
  | readOnly =>
      cases hnext
      exact h.hardLink hprocess
  | linked =>
      cases hnext
      exact h.syncAbove hprocess (by constructor <;> simp) trivial
  | leafSynced =>
      cases hnext
      exact h.syncAbove hprocess (by constructor <;> simp) trivial
  | parentSynced =>
      cases hnext
      exact h.syncAbove hprocess (by constructor <;> simp) trivial
  | sealed =>
      cases hnext
      exact h.release hprocess trivial (by constructor <;> simp) id
  | refused =>
      cases hnext
      exact h.release hprocess trivial (by constructor <;> simp) id
  | rehashing =>
      simp only [Install.advanceWriter, Option.some.injEq] at hnext
      subst hnext
      split
      · rename_i inode hopen
        exact h.rehash hprocess hopen
      · rename_i error hopen
        have herror := h.sound.openObject_error hopen
        subst herror
        exact h.become hprocess (by constructor <;> simp [StoreError.Damage])
  | reading inode =>
      obtain ⟨-, -, hhash⟩ := hok.reading inode rfl
      simp only [Install.advanceWriter, if_pos hhash, Option.some.injEq]
        at hnext
      subst hnext
      exact h.become hprocess (by constructor <;> simp)
  | unlinking preexisting =>
      cases hnext
      exact h.unlinkTemp hprocess (by constructor <;> simp)
  | dropping error =>
      cases hnext
      exact h.release hprocess trivial
        (by constructor <;> simp [hok.error error rfl]) id
  | failing error =>
      cases hnext
      exact h.unlinkTemp hprocess
        (by constructor <;> simp [hok.error error rfl])
  | returned object => cases hnext
  | failed error => cases hnext

theorem Inv.faultWriter (h : Inv P m) {torn : Nat}
    (hprocess : m.process who = some (.writer writer stage))
    (hnext : faultWriter m who torn writer stage = some next) :
    Inv P next := by
  have hok : WriterOk P m who writer stage := h.process who _ hprocess
  have hio : ¬ StoreError.io.Damage := id
  cases stage with
  | created blocks =>
      cases hnext
      exact h.become hprocess (by constructor <;> simp [hio])
  | leased blocks =>
      cases blocks with
      | nil =>
          cases hnext
          exact h.giveUp hprocess trivial hio
      | cons block blocks =>
          cases hnext
          -- what a torn write left behind is never looked at again
          obtain ⟨hopen, -⟩ := hok.pending trivial
          have htemp : m.temp? who = some writer.inode := by
            rw [Machine.temp?, hprocess]
            rfl
          refine h.moved (h.sound.own hopen) (Keeps.own h htemp hopen)
            (fun _ hname => hname) ?_ ?_
          · exact ⟨hok.issued, hok.allocated, hok.temp, False.elim, False.elim,
              fun _ => hok.lease trivial, by simp, trivial, by simp [hio]⟩
          · rintro inode ⟨⟩
            exact .inl htemp
  | rehashing =>
      cases hnext
      exact h.become hprocess (by constructor <;> simp [hio])
  | reading inode =>
      cases hnext
      exact h.become hprocess (by constructor <;> simp [hio])
  | unlinking preexisting =>
      cases hnext
      exact h.become hprocess (by constructor <;> simp)
  | failing error =>
      cases hnext
      exact h.become hprocess
        (by constructor <;> simp [hok.error error rfl])
  | sealed => cases hnext
  | refused => cases hnext
  | dropping error => cases hnext
  | returned object => cases hnext
  | failed error => cases hnext
  | _ =>
      cases hnext
      exact h.giveUp hprocess trivial hio

section Collector

variable {name : Text} {stage later : ReclaimStage}

theorem Inv.collector (h : Inv P m)
    (hprocess : m.process who = some (.collector name stage))
    (hsound : Sound P disk m.issued) (hkeeps : Keeps m who disk lock)
    (hidentity : ∀ identity, later.identity? = some identity →
      stage.identity? = some identity)
    (hholds : ∀ inode, later.holds = some inode → lock inode = some who) :
    Inv P (m.moved who disk lock m.issued (.collector name later)) := by
  have hok : CollectorOk m who name stage := h.process who _ hprocess
  refine h.moved hsound hkeeps (fun _ hname => hname) ?_
    (by simp [Process.temp?])
  refine ⟨hok.issued, ?_, hholds⟩
  intro identity hlater value hvalue
  rcases hkeeps.values name hok.issued value hvalue with hnone | hold
  · exact .inl hnone
  · exact hok.temp identity (hidentity identity hlater) value hold

theorem Inv.advanceCollector (h : Inv P m)
    (hprocess : m.process who = some (.collector name stage))
    (hnext : advanceCollector m who name stage = some next) : Inv P next := by
  have hok : CollectorOk m who name stage := h.process who _ hprocess
  cases stage with
  | listed identity =>
      cases hnext
      refine h.collector hprocess h.sound Keeps.same ?_ ?_
      · split <;> simp [ReclaimStage.identity?]
      · split <;> simp [ReclaimStage.holds]
  | opened identity =>
      simp only [Install.advanceCollector, Option.some.injEq] at hnext
      subst hnext
      split
      · rename_i hfree
        refine h.collector hprocess h.sound (Keeps.acquire hfree)
          (by simp [ReclaimStage.identity?]) ?_
        rintro inode ⟨⟩
        exact Function.update_self ..
      · exact h.collector hprocess h.sound Keeps.same
          (by simp [ReclaimStage.identity?]) (by simp [ReclaimStage.holds])
  | locked identity =>
      cases hnext
      have hlock := hok.lease identity.inode rfl
      refine h.collector hprocess h.sound Keeps.same ?_ ?_
      · split <;> simp [ReclaimStage.identity?]
      · split <;> simp [ReclaimStage.holds, hlock]
  | checked identity =>
      have hlock := hok.lease identity.inode rfl
      simp only [Install.advanceCollector, Option.some.injEq] at hnext
      subst hnext
      split
      · refine h.collector hprocess h.sound.unlink (Keeps.write (.inr rfl))
          (by simp [ReclaimStage.identity?]) ?_
        rintro inode ⟨⟩
        exact hlock
      · exact h.collector hprocess h.sound Keeps.same
          (by simp [ReclaimStage.identity?])
          (by simp [ReclaimStage.holds, hlock])
  | closing inode deleted =>
      cases hnext
      exact h.collector hprocess h.sound (Keeps.release (hok.lease inode rfl))
        (by simp [ReclaimStage.identity?]) (by simp [ReclaimStage.holds])
  | finished deleted => cases hnext

theorem Inv.faultCollector (h : Inv P m)
    (hprocess : m.process who = some (.collector name stage))
    (hnext : faultCollector m who name stage = some next) : Inv P next := by
  have hok : CollectorOk m who name stage := h.process who _ hprocess
  cases stage with
  | listed identity =>
      cases hnext
      exact h.collector hprocess h.sound Keeps.same
        (by simp [ReclaimStage.identity?]) (by simp [ReclaimStage.holds])
  | opened identity =>
      cases hnext
      exact h.collector hprocess h.sound Keeps.same
        (by simp [ReclaimStage.identity?]) (by simp [ReclaimStage.holds])
  | locked identity =>
      cases hnext
      exact h.collector hprocess h.sound Keeps.same
        (by simp [ReclaimStage.identity?])
        (by simp [ReclaimStage.holds, hok.lease identity.inode rfl])
  | checked identity =>
      cases hnext
      exact h.collector hprocess h.sound Keeps.same
        (by simp [ReclaimStage.identity?])
        (by simp [ReclaimStage.holds, hok.lease identity.inode rfl])
  | closing inode deleted => cases hnext
  | finished deleted => cases hnext

end Collector

section Remover

variable {digest : ObjectDigest} {stage later : RemovalStage}

theorem Inv.remover (h : Inv P m) (hsound : Sound P disk m.issued)
    (hkeeps : Keeps m who disk m.lock) :
    Inv P (m.moved who disk m.lock m.issued (.remover digest later)) :=
  h.moved hsound hkeeps (fun _ hname => hname) trivial (by simp [Process.temp?])

theorem Inv.advanceRemover (h : Inv P m)
    (hnext : advanceRemover m who digest stage = some next) : Inv P next := by
  cases stage with
  | asked =>
      cases hnext
      exact h.remover h.sound Keeps.same
  | found =>
      simp only [Install.advanceRemover, Option.some.injEq] at hnext
      subst hnext
      split
      · split
        · exact h.remover h.sound.unlink (Keeps.write (.inr rfl))
        · exact h.remover h.sound Keeps.same
      · exact h.remover h.sound Keeps.same
  | unlinked =>
      simp only [Install.advanceRemover, Option.some.injEq] at hnext
      subst hnext
      split
      · exact h.remover h.sound.syncDirectory Keeps.syncDirectory
      · exact h.remover h.sound Keeps.same
  | answered removed => cases hnext

end Remover

theorem Inv.advance (h : Inv P m) (hnext : advance P m who = some next) :
    Inv P next := by
  unfold Install.advance at hnext
  split at hnext
  · rename_i hprocess
    exact h.advanceWriter hprocess hnext
  · rename_i hprocess
    exact h.advanceCollector hprocess hnext
  · exact h.advanceRemover hnext
  · cases hnext

theorem Inv.fault (h : Inv P m) {torn : Nat}
    (hnext : fault m who torn = some next) : Inv P next := by
  unfold Install.fault at hnext
  split at hnext
  · rename_i hprocess
    exact h.faultWriter hprocess hnext
  · rename_i hprocess
    exact h.faultCollector hprocess hnext
  · rename_i digest stage hprocess
    cases stage with
    | answered removed => cases hnext
    | _ =>
        cases hnext
        exact h.remover h.sound Keeps.same
  · cases hnext

theorem Keeps.create {path : Text} (hfresh : path ∉ m.issued) (h : Inv P m) :
    Keeps m who (m.disk.create tmpDir path [] m.clock) m.lock := by
  have hold : ∀ {inode}, inode < m.disk.next →
      (m.disk.create tmpDir path [] m.clock).inode inode =
        m.disk.inode inode :=
    fun hlt => Function.update_of_ne (Nat.ne_of_lt hlt) _ _
  refine ⟨?_, fun inode hlt _ => hold hlt, ?_, Nat.le_succ _,
    fun _ _ _ hlock => hlock⟩
  · intro name hname found hfound
    rcases Volume.mem_values_create.mp hfound with ⟨-, rfl, -⟩ | hmem
    · exact absurd hname hfresh
    · exact .inr hmem
  · intro other inode _ htemp
    exact hold (h.allocated htemp)

theorem Inv.newWriter (h : Inv P m) {path : Text} (hfresh : path ∉ m.issued)
    (blocks : List Bytes) (expecting : Option (ObjectDigest × Nat)) :
    Inv P (m.newWriter who path blocks expecting) := by
  refine h.moved (h.sound.create hfresh m.clock) (Keeps.create hfresh h)
    (fun _ hname => List.mem_cons_of_mem _ hname) ?_ ?_
  · refine ⟨List.mem_cons_self, Nat.lt_succ_self _, ?_, fun _ => ?_,
      False.elim, False.elim, by simp, trivial, by simp⟩
    · intro value hvalue
      rcases Volume.mem_values_create.mp hvalue with ⟨-, -, heq⟩ | hmem
      · exact .inr heq
      · cases value with
        | none => exact .inl rfl
        | some node => exact absurd (h.sound.issued _ _ _ hmem rfl) hfresh
    · have hnew :
          (m.newWriter who path blocks expecting).disk.inode m.disk.next =
          ⟨[], false, m.clock⟩ := Function.update_self ..
      exact ⟨congrArg Inode.synced hnew, congrArg Inode.content hnew⟩
  · rintro inode ⟨⟩
    exact .inr fun other _ htemp => absurd (h.allocated htemp) (Nat.lt_irrefl _)

theorem Machine.stat_eq_some {name : Text} {identity : TempIdentity}
    (h : m.stat name = some identity) :
    m.disk.lookup tmpDir name = some (.file identity.inode) := by
  unfold Machine.stat at h
  split at h
  · rename_i hlookup
    cases h
    exact hlookup
  · cases h

theorem Inv.reclaim (h : Inv P m) {name : Text} {identity : TempIdentity}
    (hlisted : m.stat name = some identity) :
    Inv P (m.become who (.collector name (.listed identity))) := by
  have hmem : some (.file identity.inode) ∈ m.disk.values tmpDir name :=
    Machine.stat_eq_some hlisted ▸ Volume.lookup_mem
  refine h.moved h.sound Keeps.same (fun _ hname => hname) ?_
    (by simp [Process.temp?])
  refine ⟨h.sound.issued _ _ _ hmem rfl, ?_, by simp [ReclaimStage.holds]⟩
  rintro _ ⟨⟩ (_ | node) hvalue
  · exact .inl rfl
  · exact .inr (congrArg some (h.sound.single _ _ _ hmem rfl _ hvalue))

/-- Fewer processes and no lock of theirs. -/
theorem Inv.kill (h : Inv P m) : Inv P (m.kill who) := by
  have hprocess : ∀ {other process}, (m.kill who).process other = some process →
      other ≠ who ∧ m.process other = some process := by
    intro other process hother
    by_cases heq : other = who
    · subst heq
      simp [Machine.kill] at hother
    · exact ⟨heq, by simpa [Machine.kill, heq] using hother⟩
  have hlock : ∀ inode other, other ≠ who → m.lock inode = some other →
      (m.kill who).lock inode = some other := by
    intro inode other hne hheld
    simp [Machine.kill, hheld, hne]
  refine ⟨h.sound, ?_, ?_⟩
  · intro other process hother
    obtain ⟨hne, hold⟩ := hprocess hother
    have hok : ProcessOk P m other process := h.process other process hold
    have hkept : ProcessOk P (m.moved who m.disk (m.kill who).lock m.issued
        process) other process :=
      hok.keep (Keeps.relock hlock) hne hold fun _ hname => hname
    exact hkept.congr rfl rfl rfl
  · intro first second inode hfirst hsecond
    obtain ⟨p, hp, hpi⟩ := Option.bind_eq_some_iff.mp hfirst
    obtain ⟨q, hq, hqi⟩ := Option.bind_eq_some_iff.mp hsecond
    refine h.distinct first second inode ?_ ?_
    · exact Option.bind_eq_some_iff.mpr ⟨p, (hprocess hp).2, hpi⟩
    · exact Option.bind_eq_some_iff.mpr ⟨q, (hprocess hq).2, hqi⟩

theorem Inv.reboot (h : Inv P m) (hcrash : m.disk.Crash disk) :
    Inv P (m.reboot disk) where
  sound := h.sound.crash hcrash
  process := by simp [Machine.reboot]
  distinct := by simp [Machine.reboot, Machine.temp?]

end Moved

theorem Inv.step {m next : Machine} (h : Inv P m) (hstep : Step P m next) :
    Inv P next := by
  cases hstep with
  | newWriter blocks expecting _ hissued _ =>
      exact h.newWriter hissued blocks expecting
  | reclaim _ _ _ hlisted _ => exact h.reclaim hlisted
  | remove digest _ => exact h.remover h.sound Keeps.same
  | advance hnext => exact h.advance hnext
  | fault hnext => exact h.fault hnext
  | kill who => exact h.kill
  | tick =>
      exact ⟨h.sound, fun who process hprocess =>
        (h.process who process hprocess).congr rfl rfl rfl, h.distinct⟩
  | crash hcrash => exact h.reboot hcrash

theorem Inv.start : Inv P .start where
  sound := Sound.start
  process := by simp [Machine.start]
  distinct := by simp [Machine.start, Machine.temp?]

theorem Inv.run {m next : Machine} (h : Inv P m)
    (hrun : Relation.ReflTransGen (Step P) m next) : Inv P next := by
  induction hrun with
  | refl => exact h
  | tail _ hstep ih => exact ih.step hstep

end TensorFS.Install
