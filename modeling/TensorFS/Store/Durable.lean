import TensorFS.Data.Sha256
import TensorFS.Store.Effects
import TensorFS.Tfm1.Bijection

namespace TensorFS.Install

open Data

variable {P : Platform} {m next later : Machine} {who : Nat}

/-! What admission promises across crashes, and what the temp collector never
does. -/

/-! An object is in place once its entry and the two above it are synced. -/

/-- The entries on an object's path, the lowest `depth` of them synced. -/
structure Placed (disk : Volume Text Bytes) (digest : ObjectDigest)
    (inode depth first second : Nat) : Prop where
  fanned : disk.lookup sha256Dir ((toHex digest).take 2) =
    some (.directory first)
  housed : disk.lookup first (((toHex digest).drop 2).take 2) =
    some (.directory second)
  file : disk.lookup second (toHex digest) = some (.file inode)
  leafSynced : 1 ≤ depth →
    disk.Settled second (toHex digest) (some (.file inode))
  parentSynced : 2 ≤ depth →
    disk.Settled first (((toHex digest).drop 2).take 2)
      (some (.directory second))
  rootSynced : 3 ≤ depth →
    disk.Settled sha256Dir ((toHex digest).take 2) (some (.directory first))

section Placed

variable {disk : Volume Text Bytes} {digest : ObjectDigest}
  {inode depth first second : Nat}

theorem Placed.leaf (h : Placed m.disk digest inode depth first second) :
    m.leaf digest = some second :=
  Volume.directoryAt_cons.mpr ⟨first, h.fanned,
    Volume.directoryAt_cons.mpr ⟨second, h.housed, rfl⟩⟩

theorem Placed.objectFile (h : Placed m.disk digest inode depth first second) :
    m.objectFile digest = some inode :=
  Machine.objectFile_eq_some.mpr ⟨second, h.leaf, h.file⟩

/-- An entry that is there and that no removal takes away. -/
theorem Effect.keeps (h : Effect P m disk) {dir : Nat} {name : Text}
    {node : Node} (hlookup : m.disk.lookup dir name = some node)
    (hdir : dir ≠ tmpDir)
    (hname : ∀ who other, m.process who = some (.remover other .found) →
      name ≠ toHex other) :
    disk.lookup dir name = some node ∧
      ∀ value ∈ disk.values dir name, value ∈ m.disk.values dir name := by
  have hwrite : ∀ {other key} value, ¬ (dir = other ∧ name = key) →
      (m.disk.write other key value).lookup dir name = some node ∧
        ∀ found ∈ (m.disk.write other key value).values dir name,
          found ∈ m.disk.values dir name := by
    intro other key value hne
    rw [Volume.lookup_write, if_neg hne, Volume.values_write, if_neg hne]
    exact ⟨hlookup, fun _ hmem => hmem⟩
  have habsent : ∀ {other key}, m.disk.lookup other key = none →
      ¬ (dir = other ∧ name = key) := by
    rintro other key hnone ⟨rfl, rfl⟩
    rw [hnone] at hlookup
    cases hlookup
  cases h with
  | plain h =>
      cases h with
      | same => exact ⟨hlookup, fun _ hmem => hmem⟩
      | own later hopen => exact ⟨hlookup, fun _ hmem => hmem⟩
      | create hfresh => exact hwrite _ fun h => hdir h.1
      | makeDirectory _ _ hnone => exact hwrite _ (habsent hnone)
      | syncDirectory other =>
          exact ⟨hlookup, fun _ hmem => Volume.mem_values_syncDirectory hmem⟩
      | unlinkTemp _ => exact hwrite _ fun h => hdir h.1
  | install _ _ hnone => exact hwrite _ (habsent hnone)
  | remove hprocess _ => exact hwrite _ fun h => hname _ _ hprocess h.2

/-- No removal of the object is running. -/
def Undisturbed (digest : ObjectDigest) (m : Machine) : Prop :=
  ∀ who stage, m.process who ≠ some (.remover digest stage)

theorem Undisturbed.ne (h : Undisturbed digest m) {who : Nat}
    {other : ObjectDigest} {name : Text}
    (hprocess : m.process who = some (.remover other .found))
    (hname : name.length ≤ 2 ∨ name = toHex digest) : name ≠ toHex other := by
  rintro rfl
  rcases hname with hshort | hsame
  · rw [length_toHex] at hshort
    omega
  · exact h who .found (toHex_inj hsame ▸ hprocess)

theorem Sound.below (h : Sound P m.disk m.issued) {dir below : Nat}
    {name : Text} (hlookup : m.disk.lookup dir name = some (.directory below)) :
    below ≠ tmpDir := by
  have hge := (h.directories dir name _ (hlookup ▸ Volume.lookup_mem)
    below rfl).1
  exact Nat.ne_of_gt (Nat.lt_of_lt_of_le (by decide) hge)

theorem Placed.keep (h : Placed m.disk digest inode depth first second)
    (hinv : Inv P m) (hquiet : Undisturbed digest m)
    (heffect : Effect P m disk) :
    Placed disk digest inode depth first second := by
  have hshort : ∀ text : Text, (text.take 2).length ≤ 2 :=
    List.length_take_le 2
  obtain ⟨hfanned, hroot⟩ := heffect.keeps h.fanned (by decide)
    fun who other hprocess => hquiet.ne hprocess (.inl (hshort _))
  obtain ⟨hhoused, hparent⟩ := heffect.keeps h.housed
    (hinv.sound.below h.fanned)
    fun who other hprocess => hquiet.ne hprocess (.inl (hshort _))
  obtain ⟨hfile, hleaf⟩ := heffect.keeps h.file (hinv.sound.below h.housed)
    fun who other hprocess => hquiet.ne hprocess (.inr rfl)
  exact ⟨hfanned, hhoused, hfile,
    fun hdepth value hmem => h.leafSynced hdepth value (hleaf value hmem),
    fun hdepth value hmem => h.parentSynced hdepth value (hparent value hmem),
    fun hdepth value hmem => h.rootSynced hdepth value (hroot value hmem)⟩

theorem Placed.crash (h : Placed m.disk digest inode 3 first second)
    (hcrash : m.disk.Crash disk) :
    Placed disk digest inode 3 first second := by
  have hroot := hcrash.settled (h.rootSynced (Nat.le_refl 3))
  have hparent := hcrash.settled (h.parentSynced (by decide))
  have hleaf := hcrash.settled (h.leafSynced (by decide))
  exact ⟨hroot.lookup, hparent.lookup, hleaf.lookup, fun _ => hleaf,
    fun _ => hparent, fun _ => hroot⟩

end Placed

/-- How many of the directories above its object an installer has synced. -/
def Stage.depth? : Stage → Option Nat
  | .linked => some 0
  | .leafSynced => some 1
  | .parentSynced => some 2
  | .sealed | .unlinking false | .returned false => some 3
  | _ => none

/-- An installer past its link finds its object in place. -/
def InPlace (P : Platform) (m : Machine) (writer : ObjectWriter)
    (stage : Stage) : Prop :=
  ∀ depth, stage.depth? = some depth → ∃ first second,
    Placed m.disk (writer.digest P) writer.inode depth first second

section InPlace

variable {writer after : ObjectWriter} {stage later : Stage}

theorem Placed.link {dir : Nat} (hleaf : m.leaf (writer.digest P) = some dir) :
    ∃ first, Placed (m.disk.link dir (toHex (writer.digest P))
      (.file writer.inode)) (writer.digest P) writer.inode 0 first dir := by
  obtain ⟨first, hfanned, hbelow⟩ := Volume.directoryAt_cons.mp hleaf
  obtain ⟨second, hhoused, hsecond⟩ := Volume.directoryAt_cons.mp hbelow
  cases hsecond
  have hshort : ∀ text : Text, text.take 2 ≠ toHex (writer.digest P) := by
    intro text heq
    have hle := List.length_take_le 2 text
    rw [heq, length_toHex] at hle
    omega
  refine ⟨first, ?_, ?_, ?_, by omega, by omega, by omega⟩
  · exact (if_neg fun h => hshort _ h.2).trans hfanned
  · exact (if_neg fun h => hshort _ h.2).trans hhoused
  · exact if_pos ⟨rfl, rfl⟩

theorem InPlace.idle (h : stage.depth? = none) : InPlace P m writer stage := by
  intro depth hdepth
  rw [h] at hdepth
  cases hdepth

theorem InPlace.hardLink
    (hafter : (hardLink P m who writer).process who =
      some (.writer writer .linked))
    (htemp : ∀ node, m.disk.lookup tmpDir writer.path = some node →
      node = .file writer.inode) :
    InPlace P (hardLink P m who writer) writer .linked := by
  unfold Install.hardLink at hafter ⊢
  split at hafter
  · rename_i node dir hnode hdir
    split at hafter
    · cases Machine.become_inj hafter
    · rename_i habsent
      rintro depth ⟨⟩
      rw [if_neg habsent, htemp node hnode]
      obtain ⟨first, hplaced⟩ := Placed.link hdir
      exact ⟨first, dir, hplaced⟩
  · cases Machine.become_inj hafter

theorem InPlace.syncAbove {path : List Text} {dir depth : Nat}
    (hdir : m.disk.directoryAt sha256Dir path = some dir)
    (hstage : stage.depth? = some depth)
    (hplaced : ∃ first second, Placed (m.disk.syncDirectory dir)
      (writer.digest P) writer.inode depth first second) :
    InPlace P (syncAbove m who writer path stage) writer stage := by
  unfold Install.syncAbove
  rw [hdir]
  intro found hfound
  rw [hstage] at hfound
  cases hfound
  exact hplaced

/-- What one call leaves for the installer that makes it. -/
theorem InPlace.advance (h : InPlace P m writer stage) (hinv : Inv P m)
    (hquiet : ∀ depth, stage.depth? = some depth →
      Undisturbed (writer.digest P) m)
    (hprocess : m.process who = some (.writer writer stage))
    (hnext : advanceWriter P m who writer stage = some next)
    (hafter : next.process who = some (.writer after later)) :
    InPlace P next after later := by
  have hok : WriterOk P m who writer stage := hinv.process who _ hprocess
  cases Turns.of_advance hnext hafter with
  | linked =>
      cases hnext
      refine InPlace.hardLink hafter fun node hnode => ?_
      simpa [hnode] using hok.temp _ Volume.lookup_mem
  | leafSynced =>
      cases hnext
      obtain ⟨first, second, hplaced⟩ := h 0 rfl
      refine InPlace.syncAbove hplaced.leaf rfl ⟨first, second, ?_⟩
      have hkept := hplaced.keep hinv (hquiet _ rfl)
        (.plain (.syncDirectory second))
      exact { hkept with
        leafSynced := fun _ => hplaced.file ▸ Volume.settled_syncDirectory
        parentSynced := by omega
        rootSynced := by omega }
  | parentSynced =>
      cases hnext
      obtain ⟨first, second, hplaced⟩ := h 1 rfl
      have hdir : m.disk.directoryAt sha256Dir
          ((fanout (writer.digest P)).take 1) = some first :=
        Volume.directoryAt_cons.mpr ⟨first, hplaced.fanned, rfl⟩
      refine InPlace.syncAbove hdir rfl ⟨first, second, ?_⟩
      have hkept := hplaced.keep hinv (hquiet _ rfl)
        (.plain (.syncDirectory first))
      exact { hkept with
        leafSynced := fun _ => hkept.leafSynced (by omega)
        parentSynced := fun _ => hplaced.housed ▸ Volume.settled_syncDirectory
        rootSynced := by omega }
  | sealed =>
      cases hnext
      obtain ⟨first, second, hplaced⟩ := h 2 rfl
      refine InPlace.syncAbove rfl rfl ⟨first, second, ?_⟩
      have hkept := hplaced.keep hinv (hquiet _ rfl)
        (.plain (.syncDirectory sha256Dir))
      exact { hkept with
        leafSynced := fun _ => hkept.leafSynced (by omega)
        parentSynced := fun _ => hkept.parentSynced (by omega)
        rootSynced := fun _ => hplaced.fanned ▸ Volume.settled_syncDirectory }
  | released =>
      cases hnext
      exact h
  | returned preexisting =>
      cases hnext
      cases preexisting with
      | false =>
          rintro depth ⟨⟩
          obtain ⟨first, second, hplaced⟩ := h 3 rfl
          exact ⟨first, second, hplaced.keep hinv (hquiet _ rfl)
            (.plain (.unlinkTemp (.writer hprocess id)))⟩
      | true => exact InPlace.idle rfl
  | _ => exact InPlace.idle rfl

theorem InPlace.giveUp {error : StoreError}
    (hafter : (giveUp m who writer error).process who =
      some (.writer after later)) : InPlace P next after later := by
  cases Machine.become_inj hafter
  exact InPlace.idle rfl

theorem InPlace.fault {torn : Nat} (h : InPlace P m writer stage)
    (hnext : faultWriter m who torn writer stage = some next)
    (hafter : next.process who = some (.writer after later)) :
    InPlace P next after later := by
  cases stage with
  | leased blocks =>
      cases blocks with
      | nil =>
          cases hnext
          exact InPlace.giveUp hafter
      | cons block blocks =>
          cases hnext
          exact InPlace.giveUp hafter
  | created blocks =>
      cases hnext
      cases Machine.become_inj hafter
      exact InPlace.idle rfl
  | rehashing =>
      cases hnext
      cases Machine.become_inj hafter
      exact InPlace.idle rfl
  | reading inode =>
      cases hnext
      cases Machine.become_inj hafter
      exact InPlace.idle rfl
  | unlinking preexisting =>
      cases hnext
      cases Machine.become_inj hafter
      cases preexisting with
      | false => exact h
      | true => exact InPlace.idle rfl
  | failing error =>
      cases hnext
      cases Machine.become_inj hafter
      exact InPlace.idle rfl
  | sealed => cases hnext
  | refused => cases hnext
  | dropping error => cases hnext
  | returned preexisting => cases hnext
  | failed error => cases hnext
  | _ =>
      cases hnext
      exact InPlace.giveUp hafter

end InPlace

/-! Durability of an installed object. -/

section Durability

variable {digest : ObjectDigest}

def AllInPlace (P : Platform) (digest : ObjectDigest) (m : Machine) : Prop :=
  ∀ who writer stage, m.process who = some (.writer writer stage) →
    writer.digest P = digest → InPlace P m writer stage

theorem AllInPlace.step (h : AllInPlace P digest m) (hinv : Inv P m)
    (hquiet : Undisturbed digest m) (hstep : Step P m next) :
    AllInPlace P digest next := by
  intro who after later hafter hdigest
  rcases hstep.writer_cases hafter with hsame | ⟨blocks, rfl⟩ |
    ⟨writer, stage, hprocess, hnext | ⟨torn, hnext⟩⟩
  · intro depth hdepth
    obtain ⟨first, second, hplaced⟩ := h who after later hsame hdigest depth
      hdepth
    rcases hstep.effect hinv with heffect | ⟨disk, hcrash, rfl⟩
    · exact ⟨first, second, hplaced.keep hinv (hdigest ▸ hquiet) heffect⟩
    · cases hafter
  · exact InPlace.idle rfl
  · have hown : ∀ depth, stage.depth? = some depth →
        writer.digest P = digest := by
      intro depth hdepth
      have hstage : ∀ blocks, stage ≠ .leased blocks := by
        rintro blocks rfl
        cases hdepth
      rw [← (Turns.of_advance hnext hafter).hashed hstage, hdigest]
    have hplace : InPlace P m writer stage :=
      fun depth hdepth =>
        h who writer stage hprocess (hown depth hdepth) depth hdepth
    refine hplace.advance hinv ?_ hprocess hnext hafter
    intro depth hdepth
    rw [hown depth hdepth]
    exact hquiet
  · obtain ⟨found, hmoved⟩ := faultWriter_process hnext
    have hfound := hafter
    rw [hmoved, Function.update_self] at hfound
    cases hfound
    exact InPlace.fault (h who _ stage hprocess hdigest) hnext hafter

/-- A step while no removal of the object runs. -/
def QuietStep (P : Platform) (digest : ObjectDigest) (m next : Machine) :
    Prop :=
  Step P m next ∧ Undisturbed digest m

theorem QuietStep.steps
    (hrun : Relation.ReflTransGen (QuietStep P digest) m next) :
    Relation.ReflTransGen (Step P) m next := by
  induction hrun with
  | refl => exact .refl
  | tail _ hstep ih => exact ih.tail hstep.1

theorem AllInPlace.run (h : AllInPlace P digest m) (hinv : Inv P m)
    (hrun : Relation.ReflTransGen (QuietStep P digest) m next) :
    AllInPlace P digest next ∧ Inv P next := by
  induction hrun with
  | refl => exact ⟨h, hinv⟩
  | tail _ hstep ih => exact ⟨ih.1.step ih.2 hstep.2 hstep.1, ih.2.step hstep.1⟩

theorem Placed.run {inode first second : Nat}
    (h : Placed m.disk digest inode 3 first second) (hinv : Inv P m)
    (hrun : Relation.ReflTransGen (QuietStep P digest) m next) :
    Placed next.disk digest inode 3 first second := by
  induction hrun with
  | refl => exact h
  | tail hsteps hstep ih =>
      have hreach := hinv.run (QuietStep.steps hsteps)
      rcases hstep.1.effect hreach with heffect | ⟨disk, hcrash, rfl⟩
      · exact ih.keep hreach hstep.2 heffect
      · exact ih.crash hcrash

/-- An admission that returned having installed its object is durable: until
someone removes the object, its path leads to the admitted bytes through every
crash that follows. -/
theorem returned_durable {started returned : Machine} {writer : ObjectWriter}
    (hreach : Reachable P started)
    (hidle : ∀ who writer stage,
      started.process who = some (.writer writer stage) →
        writer.digest P = digest → stage.depth? = none)
    (hrun : Relation.ReflTransGen (QuietStep P digest) started returned)
    (hreturned : returned.process who = some (.writer writer (.returned false)))
    (hdigest : (writer.admitted P false).digest = digest)
    (hlater : Relation.ReflTransGen (QuietStep P digest) returned later) :
    ∃ inode, later.objectFile digest = some inode ∧
      (later.disk.inode inode).content = writer.hashed := by
  have hinv : Inv P started := Inv.start.run hreach
  have hplaces : AllInPlace P digest started :=
    fun other found stage hprocess hfound =>
      InPlace.idle (hidle other found stage hprocess hfound)
  obtain ⟨hplaces, hinv⟩ := hplaces.run hinv hrun
  obtain ⟨first, second, hplaced⟩ :=
    hplaces who writer _ hreturned hdigest 3 rfl
  have hok : WriterOk P returned who writer (.returned false) :=
    hinv.process who _ hreturned
  obtain ⟨hsynced, hcontent⟩ := hok.durable trivial
  cases hdigest
  obtain ⟨-, hsame⟩ := hinv.inode_run (QuietStep.steps hlater) hok.allocated
    hsynced
  exact ⟨writer.inode, (hplaced.run hinv hlater).objectFile, hsame ▸ hcontent⟩

end Durability

/-! The temp of a live writer. -/

section Lease

variable {writer : ObjectWriter} {stage : Stage}

/-- No step but a crash takes a leased temp away. -/
theorem Inv.leased_temp (h : Inv P m) {disk : Volume Text Bytes}
    (hprocess : m.process who = some (.writer writer stage))
    (hleases : stage.leases)
    (htemp : m.disk.lookup tmpDir writer.path = some (.file writer.inode))
    (heffect : Effect P m disk) :
    disk.lookup tmpDir writer.path = some (.file writer.inode) := by
  have hok : WriterOk P m who writer stage := h.process who _ hprocess
  have hmem : some (.file writer.inode) ∈ m.disk.values tmpDir writer.path :=
    htemp ▸ Volume.lookup_mem
  cases heffect with
  | plain h' =>
      cases h' with
      | same => exact htemp
      | own later hopen => exact htemp
      | @create path hfresh =>
          have hne : writer.path ≠ path := fun heq => hfresh (heq ▸ hok.issued)
          exact (if_neg fun heq => hne heq.2).trans htemp
      | makeDirectory hdir =>
          exact (if_neg fun heq => hdir heq.1.symm).trans htemp
      | syncDirectory dir => exact htemp
      | @unlinkTemp mover name hmover =>
          refine (if_neg ?_).trans htemp
          rintro ⟨-, hpath⟩
          cases hmover with
          | @writer other otherStage hother hfree =>
              have hotherOk : WriterOk P m mover other otherStage :=
                h.process mover _ hother
              have hinode : other.inode = writer.inode := by
                rcases hotherOk.temp _ (hpath ▸ hmem) with hnone | hfile
                · cases hnone
                · exact (Node.file.inj (Option.some.inj hfile)).symm
              have hsame : mover = who := by
                apply h.distinct mover who writer.inode
                · simp [Machine.temp?, hother, Process.temp?, hinode]
                · simp [Machine.temp?, hprocess, Process.temp?]
              subst hsame
              rw [hprocess] at hother
              cases hother
              exact hfree hleases
          | @collector name identity hother =>
              have hotherOk : CollectorOk m mover name (.checked identity) :=
                h.process mover _ hother
              have hinode : identity.inode = writer.inode := by
                rcases hotherOk.temp identity rfl _ (hpath ▸ hmem) with
                  hnone | hfile
                · cases hnone
                · exact (Node.file.inj (Option.some.inj hfile)).symm
              have hheld := hotherOk.lease identity.inode rfl
              rw [hinode, hok.lease hleases] at hheld
              cases hheld
              rw [hprocess] at hother
              cases hother
  | install _ hleaf _ =>
      have hdir := (h.sound.directoryAt hleaf).1
      exact (if_neg fun heq => hdir heq.1.symm).trans htemp
  | remove _ hleaf =>
      have hdir := (h.sound.directoryAt hleaf).1
      exact (if_neg fun heq => hdir heq.1.symm).trans htemp

/-- A step after which the writer still holds its lease. -/
def LeasedStep (P : Platform) (who : Nat) (m next : Machine) : Prop :=
  Step P m next ∧ ∃ writer stage,
    next.process who = some (.writer writer stage) ∧ stage.leases

theorem Step.writer_path (hstep : Step P m next)
    (hprocess : m.process who = some (.writer writer stage))
    {after : ObjectWriter} {later : Stage} (hleases : later.leases)
    (hafter : next.process who = some (.writer after later)) :
    after.path = writer.path ∧ after.inode = writer.inode := by
  rcases hstep.writer_cases hafter with hsame | ⟨blocks, rfl⟩ |
    ⟨found, at', hfound, hnext | ⟨torn, hnext⟩⟩
  · rw [hprocess] at hsame
    cases hsame
    exact ⟨rfl, rfl⟩
  · exact absurd hleases id
  · rw [hprocess] at hfound
    cases hfound
    exact (Turns.of_advance hnext hafter).same
  · obtain ⟨_, hmoved⟩ := faultWriter_process hnext
    rw [hprocess] at hfound
    cases hfound
    rw [hmoved, Function.update_self] at hafter
    cases hafter
    exact ⟨rfl, rfl⟩

/-- Once a writer holds the lease on a temp that is there, its temp stays for as
long as it holds the lease, whatever collectors run beside it. -/
theorem leased_temp_stays (hreach : Reachable P m)
    (hprocess : m.process who = some (.writer writer stage))
    (hleases : stage.leases)
    (htemp : m.disk.lookup tmpDir writer.path = some (.file writer.inode))
    (hrun : Relation.ReflTransGen (LeasedStep P who) m later) :
    later.disk.lookup tmpDir writer.path = some (.file writer.inode) := by
  have hkept : Inv P later ∧ (∃ found at',
      later.process who = some (.writer found at') ∧ at'.leases ∧
        found.path = writer.path ∧ found.inode = writer.inode) ∧
      later.disk.lookup tmpDir writer.path = some (.file writer.inode) := by
    induction hrun with
    | refl =>
        exact ⟨Inv.start.run hreach, ⟨writer, stage, hprocess, hleases, rfl,
          rfl⟩, htemp⟩
    | tail _ hstep ih =>
        obtain ⟨hinv, ⟨found, at', hfound, hheld, hpath, hinode⟩, hlookup⟩ := ih
        obtain ⟨hstep, after, next, hafter, hnext⟩ := hstep
        obtain ⟨hsamePath, hsameInode⟩ := hstep.writer_path hfound hnext hafter
        refine ⟨hinv.step hstep, ⟨after, next, hafter, hnext,
          hsamePath.trans hpath, hsameInode.trans hinode⟩, ?_⟩
        rw [← hpath, ← hinode] at hlookup ⊢
        rcases hstep.effect hinv with heffect | ⟨disk, -, rfl⟩
        · exact hinv.leased_temp hfound hheld hlookup heffect
        · cases hafter
  exact hkept.2.2

end Lease

/-- What an admission that ended may say: it never blames the object that was
there before it, and it returns only what was expected. -/
theorem admission_honest (hreach : Reachable P m) {writer : ObjectWriter}
    {stage : Stage} (hprocess : m.process who = some (.writer writer stage)) :
    (∀ error, stage = .failed error → ¬ error.Damage) ∧
      ∀ preexisting, stage = .returned preexisting →
        writer.LengthOk ∧ writer.DigestOk P := by
  have hok : WriterOk P m who writer stage :=
    (Inv.start.run hreach).process who _ hprocess
  constructor
  · rintro error rfl
    exact hok.error error rfl
  · rintro preexisting rfl
    exact hok.matched

/-- The calls of one process in a row. -/
def drive (P : Platform) (who : Nat) : Nat → Machine → Machine
  | 0, m => m
  | count + 1, m =>
      match advance P m who with
      | some next => drive P who count next
      | none => m

theorem drive_run {count : Nat} :
    Relation.ReflTransGen (Step P) m (drive P who count m) := by
  induction count generalizing m with
  | zero => exact .refl
  | succ count ih =>
      rw [drive]
      split
      · rename_i next hnext
        exact .head (.advance hnext) ih
      · exact .refl

theorem drive_quiet {digest : ObjectDigest} {count : Nat}
    {writer : ObjectWriter} {stage : Stage}
    (hprocess : m.process who = some (.writer writer stage))
    (hquiet : Undisturbed digest m) :
    Relation.ReflTransGen (QuietStep P digest) m (drive P who count m) ∧
      Undisturbed digest (drive P who count m) := by
  induction count generalizing m writer stage with
  | zero => exact ⟨.refl, hquiet⟩
  | succ count ih =>
      rw [drive]
      split
      · rename_i next hnext
        have hwriter := hnext
        rw [advance, hprocess] at hwriter
        obtain ⟨after, later, hmoved, -⟩ := advanceWriter_turns hwriter
        have hafter : next.process who = some (.writer after later) := by
          rw [hmoved, Function.update_self]
        have hcalm : Undisturbed digest next := by
          intro other at'
          rw [hmoved, Function.update_apply]
          split
          · simp
          · exact hquiet other at'
        obtain ⟨hrun, hlast⟩ := ih hafter hcalm
        exact ⟨.head ⟨.advance hnext, hquiet⟩ hrun, hlast⟩
      · exact ⟨.refl, hquiet⟩

theorem advance_drive (h : (advance P m who).isSome = true) :
    advance P m who = some (drive P who 1 m) := by
  obtain ⟨next, hnext⟩ := Option.isSome_iff_exists.mp h
  rw [drive, hnext]
  rfl

/-! Three bytes in two blocks, admitted on an empty store as expected. -/

namespace TwoBlocks

def platform : Platform := ⟨asciiUnicode, sha256, fun _ => none⟩

def name : Text := tempName 1 0 0

def digest : ObjectDigest := sha256 [1, 2, 3]

def writer : ObjectWriter := ⟨name, 2, [1, 2, 3], some (digest, 3)⟩

def created : Machine :=
  Machine.start.newWriter 0 name [[1, 2], [3]] (some (digest, 3))

/-- The first block is written. -/
def leased : Machine := drive platform 0 2 created

def returned : Machine := drive platform 0 13 created

theorem created_reachable : Reachable platform created :=
  .single (.newWriter _ _ rfl (by decide) rfl)

theorem leased_reachable : Reachable platform leased :=
  created_reachable.trans drive_run

theorem returned_reachable : Reachable platform returned :=
  created_reachable.trans drive_run

theorem returned_at :
    returned.process 0 = some (.writer writer (.returned false)) ∧
      returned.process 1 = none ∧ returned.process 2 = none ∧
      returned.objectFile digest = some 2 ∧
      tempName 1 1 0 ∉ returned.issued ∧
      returned.disk.lookup tmpDir (tempName 1 1 0) = none := by
  decide +kernel

/-- Another writer can begin behind the admission. -/
theorem returned_next (blocks : List Bytes)
    (expecting : Option (ObjectDigest × Nat)) : Step platform returned
      (returned.newWriter 1 (tempName 1 1 0) blocks expecting) := by
  obtain ⟨-, hfree, -, -, hissued, habsent⟩ := returned_at
  exact .newWriter blocks expecting hfree hissued habsent

theorem quiet_start : Undisturbed digest .start :=
  fun _ _ h => by cases h

theorem quiet_created : Undisturbed digest created := by
  intro who stage h
  by_cases heq : who = 0
  · subst heq
    cases h
  · simp [created, Machine.newWriter, Machine.become, Machine.start, heq] at h

/-- A crash at once leaves an admission that returned. -/
theorem durable : ∃ inode,
    (returned.reboot returned.disk.oldest).objectFile digest = some inode ∧
      ((returned.reboot returned.disk.oldest).disk.inode inode).content =
        [1, 2, 3] := by
  have hdriven : Relation.ReflTransGen (QuietStep platform digest)
      created returned ∧ Undisturbed digest returned :=
    drive_quiet rfl quiet_created
  have hrun : Relation.ReflTransGen (QuietStep platform digest)
      .start returned :=
    .head ⟨.newWriter _ _ rfl (by decide) rfl, quiet_start⟩ hdriven.1
  exact returned_durable .refl (fun _ _ _ h => by cases h) hrun
    returned_at.1 rfl
    (.single ⟨.crash Volume.crash_oldest, hdriven.2⟩)

theorem immutable : sha256 (returned.disk.inode 2).content = digest ∧
    (returned.reboot returned.disk.oldest).disk.inode 2 =
      returned.disk.inode 2 := by
  obtain ⟨-, -, -, hfile, -⟩ := returned_at
  exact object_immutable returned_reachable hfile
    (.single (.crash Volume.crash_oldest))

/-- A collector with the shortest grace finds the temp a moment later. -/
def listed : Machine :=
  { leased with clock := 1 }.become 1
    (.collector name (.listed ⟨2, 2, 0⟩))

/-- Two calls later it has found the temp locked. -/
def tried : Machine := drive platform 1 2 listed

theorem tried_leased :
    Relation.ReflTransGen (LeasedStep platform 0) leased tried ∧
      leased.process 0 = some (.writer ⟨name, 2, [1, 2], some (digest, 3)⟩
        (.leased [[3]])) ∧
      leased.disk.lookup tmpDir name = some (.file 2) ∧
      tried.process 1 = some (.collector name (.finished none)) := by
  have hwriter : ∀ m ∈ [leased, listed, drive platform 1 1 listed, tried],
      m.process 0 = some (.writer ⟨name, 2, [1, 2], some (digest, 3)⟩
        (.leased [[3]])) := by
    decide +kernel
  have hcollector : leased.process 1 = none ∧ isTempName name = true ∧
      leased.stat name = some ⟨2, 2, 0⟩ ∧
      (advance platform listed 1).isSome = true ∧
      (advance platform (drive platform 1 1 listed) 1).isSome = true ∧
      leased.disk.lookup tmpDir name = some (.file 2) ∧
      tried.process 1 = some (.collector name (.finished none)) := by
    decide +kernel
  obtain ⟨hfree, hname, hstat, hfirst, hsecond, hlink, hended⟩ := hcollector
  have hleased : ∀ m ∈ [leased, listed, drive platform 1 1 listed, tried],
      ∃ writer stage, m.process 0 = some (.writer writer stage) ∧
        stage.leases :=
    fun m hm => ⟨_, _, hwriter m hm, trivial⟩
  have hlisted : Step platform { leased with clock := 1 } listed :=
    .reclaim hfree Nat.one_pos hname hstat (by decide)
  refine ⟨.head ⟨.tick, hleased leased (by simp)⟩
    (.head ⟨hlisted, hleased _ (by simp)⟩
      (.head ⟨.advance (advance_drive hfirst), hleased _ (by simp)⟩
        (.single ⟨.advance (advance_drive hsecond), hleased tried (by simp)⟩))),
    hwriter leased (by simp), hlink, hended⟩

theorem spared :
    tried.process 1 = some (.collector name (.finished none)) ∧
      tried.disk.lookup tmpDir name = some (.file 2) := by
  obtain ⟨hrun, hwriter, hlink, hended⟩ := tried_leased
  exact ⟨hended,
    leased_temp_stays leased_reachable hwriter trivial hlink hrun⟩

/-- Another admission is told to expect these bytes and gets one other. -/
def mismatched : Machine :=
  drive platform 1 6
    (returned.newWriter 1 (tempName 1 1 0) [[4]] (some (digest, 1)))

theorem mismatched_reachable : Reachable platform mismatched :=
  (returned_reachable.tail (returned_next _ _)).trans drive_run

theorem honest :
    ¬ (StoreError.digestMismatch digest (sha256 [4])).Damage ∧
      writer.LengthOk ∧ writer.DigestOk platform := by
  obtain ⟨hfailed, hreturned⟩ : mismatched.process 1 = some (.writer
        ⟨tempName 1 1 0, 5, [4], some (digest, 1)⟩
        (.failed (.digestMismatch digest (sha256 [4])))) ∧
      mismatched.process 0 = some (.writer writer (.returned false)) := by
    decide +kernel
  exact ⟨(admission_honest mismatched_reachable hfailed).1 _ rfl,
    (admission_honest mismatched_reachable hreturned).2 false rfl⟩

end TwoBlocks

end TensorFS.Install
