import TensorFS.Store.Installed

namespace TensorFS.Install

open Data

variable {P : Platform} {m next later : Machine} {who : Nat}

/-! What one call does to the volume and to its caller. -/

/-- A process about to unlink a name of the temp directory. -/
inductive Unlinks (m : Machine) (who : Nat) : Text → Prop where
  | writer {writer : ObjectWriter} {stage : Stage}
      (hprocess : m.process who = some (.writer writer stage))
      (hfree : ¬ stage.leases) : Unlinks m who writer.path
  | collector {name : Text} {identity : TempIdentity}
      (hprocess : m.process who = some (.collector name (.checked identity))) :
      Unlinks m who name

/-- What a call can do to the disk without touching an object. -/
inductive Plain (m : Machine) : Volume Text Bytes → Prop where
  | same : Plain m m.disk
  | own {inode : Nat} (later : Inode Bytes)
      (hopen : (m.disk.inode inode).synced = false) :
      Plain m { m.disk with
        inode := Function.update m.disk.inode inode later }
  | create {path : Text} (hfresh : path ∉ m.issued) :
      Plain m (m.disk.create tmpDir path [] m.clock)
  | makeDirectory {dir : Nat} {name : Text} (hdir : dir ≠ tmpDir)
      (hlt : dir < m.disk.next) (habsent : m.disk.lookup dir name = none) :
      Plain m (m.disk.makeDirectory dir name)
  | syncDirectory (dir : Nat) : Plain m (m.disk.syncDirectory dir)
  | unlinkTemp {who : Nat} {name : Text} (hwho : Unlinks m who name) :
      Plain m (m.disk.unlink tmpDir name)

/-- All that one call can do to the disk. -/
inductive Effect (P : Platform) (m : Machine) : Volume Text Bytes → Prop where
  | plain {disk : Volume Text Bytes} (h : Plain m disk) : Effect P m disk
  | install {who dir : Nat} {writer : ObjectWriter}
      (hprocess : m.process who = some (.writer writer .readOnly))
      (hleaf : m.leaf (writer.digest P) = some dir)
      (habsent : m.disk.lookup dir (toHex (writer.digest P)) = none) :
      Effect P m (m.disk.link dir (toHex (writer.digest P))
        (.file writer.inode))
  | remove {who dir : Nat} {digest : ObjectDigest}
      (hprocess : m.process who = some (.remover digest .found))
      (hleaf : m.leaf digest = some dir) :
      Effect P m (m.disk.unlink dir (toHex digest))

section Inversion

variable {writer : ObjectWriter} {stage later : Stage} {path above : List Text}
  {name : Text}

theorem Plain.fanOut (h : Inv P m) :
    Plain m (fanOut m who writer above name later).disk := by
  unfold Install.fanOut
  split
  · exact .same
  · rename_i made hmade
    obtain ⟨dir, hdir, hensure⟩ := Option.bind_eq_some_iff.mp hmade
    obtain ⟨hne, hlt⟩ := h.sound.directoryAt hdir
    unfold Machine.ensureDirectory at hensure
    split at hensure
    · rename_i habsent
      cases hensure
      exact .makeDirectory hne hlt habsent
    · cases hensure
      exact .same
    · cases hensure

theorem Plain.syncAbove :
    Plain m (syncAbove m who writer path later).disk := by
  unfold Install.syncAbove
  split
  · exact .same
  · exact .syncDirectory _

theorem Effect.hardLink (h : Inv P m)
    (hprocess : m.process who = some (.writer writer .readOnly)) :
    Effect P m (hardLink P m who writer).disk := by
  have hok : WriterOk P m who writer .readOnly := h.process who _ hprocess
  unfold Install.hardLink
  split
  · rename_i node dir hnode hdir
    split
    · exact .plain .same
    · rename_i habsent
      have hfile : node = .file writer.inode := by
        simpa [hnode] using hok.temp _ Volume.lookup_mem
      subst hfile
      exact .install hprocess hdir (by simpa using habsent)
  · exact .plain .same

theorem Plain.advanceWriter (h : Inv P m)
    (hprocess : m.process who = some (.writer writer stage))
    (hstage : stage ≠ .readOnly)
    (hnext : advanceWriter P m who writer stage = some next) :
    Plain m next.disk := by
  have hok : WriterOk P m who writer stage := h.process who _ hprocess
  cases stage with
  | created blocks =>
      simp only [Install.advanceWriter, Option.some.injEq] at hnext
      subst hnext
      split
      · exact .same
      · exact .same
  | leased blocks =>
      have hopen := (hok.pending trivial).1
      cases blocks with
      | nil =>
          simp only [Install.advanceWriter, Option.some.injEq] at hnext
          subst hnext
          split
          · split
            · exact .same
            · exact .own _ hopen
          · exact .own _ hopen
      | cons block blocks =>
          cases hnext
          exact .own _ hopen
  | flushed =>
      simp only [Install.advanceWriter, Option.some.injEq] at hnext
      subst hnext
      split
      · split
        · exact .same
        · exact Plain.fanOut h
      · exact Plain.fanOut h
  | fanned =>
      cases hnext
      exact Plain.fanOut h
  | housed =>
      simp only [Install.advanceWriter, Option.some.injEq] at hnext
      subst hnext
      split
      · exact .same
      · exact .same
  | readOnly => exact absurd rfl hstage
  | linked =>
      cases hnext
      exact Plain.syncAbove
  | leafSynced =>
      cases hnext
      exact Plain.syncAbove
  | parentSynced =>
      cases hnext
      exact Plain.syncAbove
  | sealed =>
      cases hnext
      exact .same
  | refused =>
      cases hnext
      exact .same
  | rehashing =>
      simp only [Install.advanceWriter, Option.some.injEq] at hnext
      subst hnext
      split
      · exact .same
      · exact .same
  | reading inode =>
      simp only [Install.advanceWriter, Option.some.injEq] at hnext
      subst hnext
      split
      · exact .same
      · exact .same
  | unlinking preexisting =>
      cases hnext
      exact .unlinkTemp (.writer hprocess id)
  | dropping error =>
      cases hnext
      exact .same
  | failing error =>
      cases hnext
      exact .unlinkTemp (.writer hprocess id)
  | returned preexisting => cases hnext
  | failed error => cases hnext

theorem Effect.advanceWriter (h : Inv P m)
    (hprocess : m.process who = some (.writer writer stage))
    (hnext : advanceWriter P m who writer stage = some next) :
    Effect P m next.disk := by
  by_cases hstage : stage = .readOnly
  · subst hstage
    cases hnext
    exact Effect.hardLink h hprocess
  · exact .plain (Plain.advanceWriter h hprocess hstage hnext)

end Inversion

theorem Plain.advanceCollector {name : Text} {stage : ReclaimStage}
    (hprocess : m.process who = some (.collector name stage))
    (hnext : advanceCollector m who name stage = some next) :
    Plain m next.disk := by
  cases stage with
  | opened identity =>
      simp only [Install.advanceCollector, Option.some.injEq] at hnext
      subst hnext
      split
      · exact .same
      · exact .same
  | checked identity =>
      simp only [Install.advanceCollector, Option.some.injEq] at hnext
      subst hnext
      split
      · exact .unlinkTemp (.collector hprocess)
      · exact .same
  | finished deleted => cases hnext
  | _ =>
      cases hnext
      exact .same

theorem Effect.advanceRemover {digest : ObjectDigest} {stage : RemovalStage}
    (hprocess : m.process who = some (.remover digest stage))
    (hnext : advanceRemover m who digest stage = some next) :
    Effect P m next.disk := by
  cases stage with
  | asked =>
      cases hnext
      exact .plain .same
  | found =>
      simp only [Install.advanceRemover, Option.some.injEq] at hnext
      subst hnext
      split
      · rename_i dir hdir
        split
        · exact .remove hprocess hdir
        · exact .plain .same
      · exact .plain .same
  | unlinked =>
      simp only [Install.advanceRemover, Option.some.injEq] at hnext
      subst hnext
      split
      · exact .plain (.syncDirectory _)
      · exact .plain .same
  | answered removed => cases hnext

theorem Plain.fault (h : Inv P m) {torn : Nat}
    (hnext : fault m who torn = some next) : Plain m next.disk := by
  unfold Install.fault at hnext
  split at hnext
  · rename_i writer stage hprocess
    have hok : WriterOk P m who writer stage := h.process who _ hprocess
    cases stage with
    | leased blocks =>
        cases blocks with
        | nil =>
            cases hnext
            exact .same
        | cons block blocks =>
            cases hnext
            exact .own _ (hok.pending trivial).1
    | sealed => cases hnext
    | refused => cases hnext
    | dropping error => cases hnext
    | returned preexisting => cases hnext
    | failed error => cases hnext
    | _ =>
        cases hnext
        exact .same
  · rename_i name stage hprocess
    cases stage with
    | closing inode deleted => cases hnext
    | finished deleted => cases hnext
    | _ =>
        cases hnext
        exact .same
  · rename_i digest stage hprocess
    cases stage with
    | answered removed => cases hnext
    | _ =>
        cases hnext
        exact .same
  · cases hnext

theorem Step.effect (h : Inv P m) (hstep : Step P m next) :
    Effect P m next.disk ∨
      ∃ disk, m.disk.Crash disk ∧ next = m.reboot disk := by
  cases hstep with
  | newWriter blocks expecting _ hissued _ =>
      exact .inl (.plain (.create hissued))
  | advance hnext =>
      unfold Install.advance at hnext
      split at hnext
      · rename_i hprocess
        exact .inl (Effect.advanceWriter h hprocess hnext)
      · rename_i hprocess
        exact .inl (.plain (Plain.advanceCollector hprocess hnext))
      · rename_i hprocess
        exact .inl (Effect.advanceRemover hprocess hnext)
      · cases hnext
  | fault hnext => exact .inl (.plain (Plain.fault h hnext))
  | crash hcrash => exact .inr ⟨_, hcrash, rfl⟩
  | _ => exact .inl (.plain .same)

section Immutable

variable {disk : Volume Text Bytes} {inode : Nat}

theorem Effect.inode_eq (h : Effect P m disk) (hlt : inode < m.disk.next)
    (hsynced : (m.disk.inode inode).synced = true) :
    disk.inode inode = m.disk.inode inode := by
  cases h with
  | plain h =>
      cases h with
      | own later hopen =>
          apply Function.update_of_ne
          rintro rfl
          rw [hopen] at hsynced
          cases hsynced
      | create => exact Function.update_of_ne (Nat.ne_of_lt hlt) _ _
      | _ => rfl
  | install => rfl
  | remove => rfl

theorem Effect.next_le (h : Effect P m disk) : m.disk.next ≤ disk.next := by
  cases h with
  | plain h =>
      cases h with
      | create => exact Nat.le_succ _
      | makeDirectory => exact Nat.le_succ _
      | _ => exact Nat.le_refl _
  | install => exact Nat.le_refl _
  | remove => exact Nat.le_refl _

/-- A synced file keeps its content for ever, crashes included. -/
theorem Inv.inode_run (h : Inv P m)
    (hrun : Relation.ReflTransGen (Step P) m next) (hlt : inode < m.disk.next)
    (hsynced : (m.disk.inode inode).synced = true) :
    inode < next.disk.next ∧ next.disk.inode inode = m.disk.inode inode := by
  induction hrun with
  | refl => exact ⟨hlt, rfl⟩
  | tail hsteps hstep ih =>
      obtain ⟨hlt', hsame⟩ := ih
      rw [← hsame] at hsynced
      rcases hstep.effect (h.run hsteps) with heffect | ⟨disk, hcrash, rfl⟩
      · exact ⟨Nat.lt_of_lt_of_le hlt' heffect.next_le,
          (heffect.inode_eq hlt' hsynced).trans hsame⟩
      · exact ⟨Nat.lt_of_lt_of_eq hlt' hcrash.next.symm,
          (hcrash.inode inode hsynced).trans hsame⟩

end Immutable

theorem Machine.objectFile_eq_some {digest : ObjectDigest} {inode : Nat} :
    m.objectFile digest = some inode ↔
      ∃ dir, m.leaf digest = some dir ∧
        m.disk.lookup dir (toHex digest) = some (.file inode) :=
  Volume.fileAt_eq_some

theorem Inv.objectFile (h : Inv P m) {digest : ObjectDigest} {inode : Nat}
    (hfile : m.objectFile digest = some inode) :
    inode < m.disk.next ∧ (m.disk.inode inode).synced = true ∧
      P.sha256 (m.disk.inode inode).content = digest := by
  obtain ⟨dir, hdir, hlookup⟩ := Machine.objectFile_eq_some.mp hfile
  have hmem : some (.file inode) ∈ m.disk.values dir (toHex digest) :=
    hlookup ▸ Volume.lookup_mem
  obtain ⟨hsynced, hname⟩ := h.sound.whole dir _ _ hmem inode rfl
    (h.sound.directoryAt hdir).1
  exact ⟨h.sound.files dir _ _ hmem inode rfl, hsynced, toHex_inj hname⟩

/-- In every run, crashes included, a file found at an object's path holds
bytes of that digest, and whoever has it open goes on reading those bytes. -/
theorem object_immutable (hreach : Reachable P m) {digest : ObjectDigest}
    {inode : Nat} (hfile : m.objectFile digest = some inode)
    (hrun : Relation.ReflTransGen (Step P) m later) :
    P.sha256 (m.disk.inode inode).content = digest ∧
      later.disk.inode inode = m.disk.inode inode := by
  have hinv : Inv P m := Inv.start.run hreach
  obtain ⟨hlt, hsynced, hhash⟩ := hinv.objectFile hfile
  exact ⟨hhash, (hinv.inode_run hrun hlt hsynced).2⟩

theorem Machine.become_inj {process found : Process}
    (h : (m.become who process).process who = some found) :
    process = found := by
  simpa [Machine.become] using h

/-- The stages that one call of an admission leads to. -/
inductive Turns (writer : ObjectWriter) :
    Stage → ObjectWriter → Stage → Prop where
  | leased (blocks : List Bytes) :
      Turns writer (.created blocks) writer (.leased blocks)
  | busy (blocks : List Bytes) :
      Turns writer (.created blocks) writer (.failed .io)
  | wrote (block : Bytes) (blocks : List Bytes) :
      Turns writer (.leased (block :: blocks))
        { writer with hashed := writer.hashed ++ block } (.leased blocks)
  | flushed : Turns writer (.leased []) writer .flushed
  | fanned : Turns writer .flushed writer .fanned
  | housed : Turns writer .fanned writer .housed
  | readOnly : Turns writer .housed writer .readOnly
  | linked : Turns writer .readOnly writer .linked
  | refused : Turns writer .readOnly writer .refused
  | leafSynced : Turns writer .linked writer .leafSynced
  | parentSynced : Turns writer .leafSynced writer .parentSynced
  | sealed : Turns writer .parentSynced writer .sealed
  | released : Turns writer .sealed writer (.unlinking false)
  | rehashing : Turns writer .refused writer .rehashing
  | reading (inode : Nat) : Turns writer .rehashing writer (.reading inode)
  | found (inode : Nat) : Turns writer (.reading inode) writer (.unlinking true)
  | returned (preexisting : Bool) :
      Turns writer (.unlinking preexisting) writer (.returned preexisting)
  | gaveUp {stage : Stage} (hleases : stage.leases) (error : StoreError) :
      Turns writer stage writer (.dropping error)
  | missed (error : StoreError) :
      Turns writer .rehashing writer (.failing error)
  | differed (inode : Nat) (error : StoreError) :
      Turns writer (.reading inode) writer (.failing error)
  | dropped (error : StoreError) :
      Turns writer (.dropping error) writer (.failing error)
  | failed (error : StoreError) :
      Turns writer (.failing error) writer (.failed error)

section Turns

variable {writer after : ObjectWriter} {stage later : Stage}

theorem turns_fanOut {above : List Text} {name : Text} (hleases : stage.leases)
    (hturn : Turns writer stage writer later) :
    ∃ reached, (fanOut m who writer above name later).process =
        Function.update m.process who (some (.writer writer reached)) ∧
      Turns writer stage writer reached := by
  unfold fanOut
  split
  · exact ⟨_, rfl, .gaveUp hleases _⟩
  · rename_i made hmade
    obtain ⟨dir, -, hensure⟩ := Option.bind_eq_some_iff.mp hmade
    unfold Machine.ensureDirectory at hensure
    split at hensure
    · cases hensure
      exact ⟨_, rfl, hturn⟩
    · cases hensure
      exact ⟨_, rfl, hturn⟩
    · cases hensure

theorem turns_syncAbove {path : List Text} (hleases : stage.leases)
    (hturn : Turns writer stage writer later) :
    ∃ reached, (syncAbove m who writer path later).process =
        Function.update m.process who (some (.writer writer reached)) ∧
      Turns writer stage writer reached := by
  unfold syncAbove
  split
  · exact ⟨_, rfl, .gaveUp hleases _⟩
  · exact ⟨_, rfl, hturn⟩

theorem turns_hardLink :
    ∃ reached, (hardLink P m who writer).process =
        Function.update m.process who (some (.writer writer reached)) ∧
      Turns writer .readOnly writer reached := by
  unfold hardLink
  split
  · split
    · exact ⟨_, rfl, .refused⟩
    · exact ⟨_, rfl, .linked⟩
  · exact ⟨_, rfl, .gaveUp (by trivial) _⟩

/-- A call moves nobody but its caller. -/
theorem advanceWriter_turns
    (hnext : advanceWriter P m who writer stage = some next) :
    ∃ after later, next.process =
        Function.update m.process who (some (.writer after later)) ∧
      Turns writer stage after later := by
  cases stage with
  | created blocks =>
      simp only [advanceWriter, Option.some.injEq] at hnext
      subst hnext
      split
      · exact ⟨_, _, rfl, .leased blocks⟩
      · exact ⟨_, _, rfl, .busy blocks⟩
  | leased blocks =>
      cases blocks with
      | nil =>
          simp only [advanceWriter, Option.some.injEq] at hnext
          subst hnext
          split
          · split
            · exact ⟨_, _, rfl, .gaveUp (by trivial) _⟩
            · exact ⟨_, _, rfl, .flushed⟩
          · exact ⟨_, _, rfl, .flushed⟩
      | cons block blocks =>
          cases hnext
          exact ⟨_, _, rfl, .wrote block blocks⟩
  | flushed =>
      simp only [advanceWriter, Option.some.injEq] at hnext
      subst hnext
      split
      · split
        · exact ⟨_, _, rfl, .gaveUp (by trivial) _⟩
        · exact ⟨_, turns_fanOut trivial .fanned⟩
      · exact ⟨_, turns_fanOut trivial .fanned⟩
  | fanned =>
      cases hnext
      exact ⟨_, turns_fanOut trivial .housed⟩
  | housed =>
      simp only [advanceWriter, Option.some.injEq] at hnext
      subst hnext
      split
      · exact ⟨_, _, rfl, .readOnly⟩
      · exact ⟨_, _, rfl, .gaveUp (by trivial) _⟩
  | readOnly =>
      cases hnext
      exact ⟨_, turns_hardLink⟩
  | linked =>
      cases hnext
      exact ⟨_, turns_syncAbove trivial .leafSynced⟩
  | leafSynced =>
      cases hnext
      exact ⟨_, turns_syncAbove trivial .parentSynced⟩
  | parentSynced =>
      cases hnext
      exact ⟨_, turns_syncAbove trivial .sealed⟩
  | sealed =>
      cases hnext
      exact ⟨_, _, rfl, .released⟩
  | refused =>
      cases hnext
      exact ⟨_, _, rfl, .rehashing⟩
  | rehashing =>
      simp only [advanceWriter, Option.some.injEq] at hnext
      subst hnext
      split
      · exact ⟨_, _, rfl, .reading _⟩
      · exact ⟨_, _, rfl, .missed _⟩
  | reading inode =>
      simp only [advanceWriter, Option.some.injEq] at hnext
      subst hnext
      split
      · exact ⟨_, _, rfl, .found inode⟩
      · exact ⟨_, _, rfl, .differed inode _⟩
  | unlinking preexisting =>
      cases hnext
      exact ⟨_, _, rfl, .returned preexisting⟩
  | dropping error =>
      cases hnext
      exact ⟨_, _, rfl, .dropped error⟩
  | failing error =>
      cases hnext
      exact ⟨_, _, rfl, .failed error⟩
  | returned preexisting => cases hnext
  | failed error => cases hnext

theorem Turns.of_advance
    (hnext : advanceWriter P m who writer stage = some next)
    (hafter : next.process who = some (.writer after later)) :
    Turns writer stage after later := by
  obtain ⟨_, _, hprocess, hturn⟩ := advanceWriter_turns hnext
  rw [hprocess, Function.update_self] at hafter
  cases hafter
  exact hturn

/-- Only a write changes what has been hashed. -/
theorem Turns.hashed (h : Turns writer stage after later)
    (hstage : ∀ blocks, stage ≠ .leased blocks) : after = writer := by
  cases h with
  | wrote block blocks => exact absurd rfl (hstage _)
  | _ => rfl

theorem Turns.same (h : Turns writer stage after later) :
    after.path = writer.path ∧ after.inode = writer.inode := by
  cases h with
  | _ => exact ⟨rfl, rfl⟩

end Turns

section Others

variable {torn : Nat} {writer : ObjectWriter} {stage later : Stage}

theorem advanceCollector_process {name : Text} {stage : ReclaimStage}
    (hnext : advanceCollector m who name stage = some next) :
    ∃ later, next.process =
      Function.update m.process who (some (.collector name later)) := by
  cases stage with
  | opened identity =>
      simp only [advanceCollector, Option.some.injEq] at hnext
      subst hnext
      split
      · exact ⟨_, rfl⟩
      · exact ⟨_, rfl⟩
  | checked identity =>
      simp only [advanceCollector, Option.some.injEq] at hnext
      subst hnext
      split
      · exact ⟨_, rfl⟩
      · exact ⟨_, rfl⟩
  | finished deleted => cases hnext
  | _ =>
      cases hnext
      exact ⟨_, rfl⟩

theorem advanceRemover_process {digest : ObjectDigest} {stage : RemovalStage}
    (hnext : advanceRemover m who digest stage = some next) :
    ∃ later, next.process =
      Function.update m.process who (some (.remover digest later)) := by
  cases stage with
  | asked =>
      cases hnext
      exact ⟨_, rfl⟩
  | answered removed => cases hnext
  | found =>
      simp only [advanceRemover, Option.some.injEq] at hnext
      subst hnext
      split
      · split
        · exact ⟨_, rfl⟩
        · exact ⟨_, rfl⟩
      · exact ⟨_, rfl⟩
  | unlinked =>
      simp only [advanceRemover, Option.some.injEq] at hnext
      subst hnext
      split
      · exact ⟨_, rfl⟩
      · exact ⟨_, rfl⟩

theorem faultWriter_process
    (hnext : faultWriter m who torn writer stage = some next) :
    ∃ later, next.process =
      Function.update m.process who (some (.writer writer later)) := by
  cases stage with
  | leased blocks =>
      cases blocks with
      | nil =>
          cases hnext
          exact ⟨_, rfl⟩
      | cons block blocks =>
          cases hnext
          exact ⟨_, rfl⟩
  | sealed => cases hnext
  | refused => cases hnext
  | dropping error => cases hnext
  | returned preexisting => cases hnext
  | failed error => cases hnext
  | _ =>
      cases hnext
      exact ⟨_, rfl⟩

theorem faultCollector_process {name : Text} {stage : ReclaimStage}
    (hnext : faultCollector m who name stage = some next) :
    ∃ later, next.process =
      Function.update m.process who (some (.collector name later)) := by
  cases stage with
  | closing inode deleted => cases hnext
  | finished deleted => cases hnext
  | _ =>
      cases hnext
      exact ⟨_, rfl⟩

theorem faultRemover_process {digest : ObjectDigest} {stage : RemovalStage}
    (hnext : faultRemover m who digest stage = some next) :
    ∃ later, next.process =
      Function.update m.process who (some (.remover digest later)) := by
  cases stage with
  | answered removed => cases hnext
  | _ =>
      cases hnext
      exact ⟨_, rfl⟩

/-- A writer after a step was there before, unmoved, or made the step; else it
has only just started. -/
theorem Step.writer_cases (hstep : Step P m next) {other : Nat}
    {after : ObjectWriter} {later : Stage}
    (hafter : next.process other = some (.writer after later)) :
    m.process other = some (.writer after later) ∨
      (∃ blocks, later = .created blocks) ∨
      ∃ writer stage, m.process other = some (.writer writer stage) ∧
        (advanceWriter P m other writer stage = some next ∨
          ∃ torn, faultWriter m other torn writer stage = some next) := by
  have hbecome : ∀ {who process}, next.process =
      Function.update m.process who (some process) →
        other ≠ who → m.process other = some (.writer after later) := by
    intro who process hprocess hne
    rwa [hprocess, Function.update_of_ne hne] at hafter
  have hkind : ∀ {process}, next.process =
      Function.update m.process other (some process) →
        process = .writer after later := by
    intro process hprocess
    rw [hprocess, Function.update_self] at hafter
    exact Option.some.inj hafter
  cases hstep with
  | @newWriter who process sequence nanos blocks expecting _ _ _ =>
      by_cases heq : other = who
      · subst heq
        cases hkind rfl
        exact .inr (.inl ⟨blocks, rfl⟩)
      · exact .inl (hbecome rfl heq)
  | @reclaim who grace name identity _ _ _ _ _ =>
      by_cases heq : other = who
      · subst heq
        cases hkind rfl
      · exact .inl (hbecome rfl heq)
  | @remove who digest _ =>
      by_cases heq : other = who
      · subst heq
        cases hkind rfl
      · exact .inl (hbecome rfl heq)
  | @advance _ who hnext =>
      unfold Install.advance at hnext
      split at hnext
      · rename_i writer stage hprocess
        obtain ⟨_, _, hmoved, -⟩ := advanceWriter_turns hnext
        by_cases heq : other = who
        · subst heq
          exact .inr (.inr ⟨writer, stage, hprocess, .inl hnext⟩)
        · exact .inl (hbecome hmoved heq)
      · obtain ⟨_, hmoved⟩ := advanceCollector_process hnext
        by_cases heq : other = who
        · subst heq
          cases hkind hmoved
        · exact .inl (hbecome hmoved heq)
      · obtain ⟨_, hmoved⟩ := advanceRemover_process hnext
        by_cases heq : other = who
        · subst heq
          cases hkind hmoved
        · exact .inl (hbecome hmoved heq)
      · cases hnext
  | @fault _ who torn hnext =>
      unfold Install.fault at hnext
      split at hnext
      · rename_i writer stage hprocess
        obtain ⟨_, hmoved⟩ := faultWriter_process hnext
        by_cases heq : other = who
        · subst heq
          exact .inr (.inr ⟨writer, stage, hprocess, .inr ⟨torn, hnext⟩⟩)
        · exact .inl (hbecome hmoved heq)
      · obtain ⟨_, hmoved⟩ := faultCollector_process hnext
        by_cases heq : other = who
        · subst heq
          cases hkind hmoved
        · exact .inl (hbecome hmoved heq)
      · obtain ⟨_, hmoved⟩ := faultRemover_process hnext
        by_cases heq : other = who
        · subst heq
          cases hkind hmoved
        · exact .inl (hbecome hmoved heq)
      · cases hnext
  | kill who =>
      by_cases heq : other = who
      · subst heq
        simp [Machine.kill] at hafter
      · exact .inl (by simpa [Machine.kill, heq] using hafter)
  | tick => exact .inl hafter
  | crash hcrash => cases hafter

end Others

end TensorFS.Install
