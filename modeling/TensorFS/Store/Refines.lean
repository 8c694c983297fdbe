import TensorFS.Store.Durable

namespace TensorFS.Install

open Data

variable {P : Platform} {m next : Machine} {who : Nat}

/-! The processes and their volume refine the object store: an admission takes
effect when its link is tried, a removal when its unlink succeeds, and a crash
leaves a store of bytes admitted before it. -/

/-- The file at an object's path, on any volume. -/
def fileOf (disk : Volume Text Bytes) (digest : ObjectDigest) : Option Nat :=
  disk.fileAt sha256Dir (fanout digest) (toHex digest)

/-- What a reader of the path finds. -/
def contentAt (disk : Volume Text Bytes) (digest : ObjectDigest) :
    Option Bytes :=
  (fileOf disk digest).map fun inode => (disk.inode inode).content

section View

variable {disk : Volume Text Bytes} {digest : ObjectDigest} {inode : Nat}

theorem fileOf_eq_some :
    fileOf disk digest = some inode ↔
      ∃ dir, disk.directoryAt sha256Dir (fanout digest) = some dir ∧
        disk.lookup dir (toHex digest) = some (.file inode) :=
  Volume.fileAt_eq_some

theorem Inv.fileOf (h : Inv P m) (hfile : fileOf m.disk digest = some inode) :
    inode < m.disk.next ∧ (m.disk.inode inode).synced = true ∧
      P.sha256 (m.disk.inode inode).content = digest :=
  h.objectFile hfile

/-- The calls that change no object. -/
theorem contentAt_eq (h : Inv P m) (heffect : Effect P m disk)
    (hfile : ∀ inode, fileOf disk digest = some inode ↔
      fileOf m.disk digest = some inode) :
    contentAt disk digest = contentAt m.disk digest := by
  have hsame : fileOf disk digest = fileOf m.disk digest :=
    Option.ext hfile
  rw [contentAt, contentAt, hsame]
  cases hfound : fileOf m.disk digest with
  | none => rfl
  | some inode =>
      obtain ⟨hlt, hsynced, -⟩ := h.fileOf hfound
      simp only [Option.map_some, heffect.inode_eq hlt hsynced]

theorem fileOf_congr {later : Volume Text Bytes}
    (h : ∀ dir name, later.lookup dir name = disk.lookup dir name) :
    fileOf later digest = fileOf disk digest := by
  apply Option.ext
  intro inode
  simp only [fileOf_eq_some, Volume.directoryAt_congr h, h]

/-- A write outside the directories below `sha256`. -/
theorem fileOf_write_temp (h : Inv P m) {name : Text} {value : Option Node} :
    fileOf (m.disk.write tmpDir name value) digest = fileOf m.disk digest := by
  have hroot : m.disk.Named fun _ _ node => node ≠ .directory tmpDir := by
    rintro dir name node hmem rfl
    exact absurd (h.sound.directories dir name _ hmem tmpDir rfl).1 (by decide)
  apply Option.ext
  intro inode
  rw [fileOf_eq_some, fileOf_eq_some,
    Volume.directoryAt_write_of_ne (by decide) hroot]
  constructor
  · rintro ⟨dir, hdir, hlookup⟩
    have hne := (h.sound.directoryAt hdir).1
    rw [Volume.lookup_write, if_neg fun heq => hne heq.1] at hlookup
    exact ⟨dir, hdir, hlookup⟩
  · rintro ⟨dir, hdir, hlookup⟩
    have hne := (h.sound.directoryAt hdir).1
    refine ⟨dir, hdir, ?_⟩
    rw [Volume.lookup_write, if_neg fun heq => hne heq.1]
    exact hlookup

/-- A write of another object's name. -/
theorem fileOf_write_object {other : ObjectDigest} (hne : digest ≠ other)
    {dir : Nat} {value : Option Node} :
    fileOf (disk.write dir (toHex other) value) digest =
      fileOf disk digest := by
  apply Option.ext
  intro inode
  rw [fileOf_eq_some, fileOf_eq_some,
    Volume.directoryAt_write_of_not_mem (toHex_not_mem_fanout other digest)]
  have hname : ∀ at', ¬ (at' = dir ∧ toHex digest = toHex other) :=
    fun at' h => hne (toHex_inj h.2)
  simp only [Volume.lookup_write, if_neg (hname _)]

/-- A write of the object's own name in its leaf. -/
theorem fileOf_write_own {dir : Nat} {value : Option Node}
    (hleaf : disk.directoryAt sha256Dir (fanout digest) = some dir) :
    fileOf (disk.write dir (toHex digest) value) digest = some inode ↔
      value = some (.file inode) := by
  rw [fileOf_eq_some,
    Volume.directoryAt_write_of_not_mem (toHex_not_mem_fanout digest digest),
    hleaf]
  constructor
  · rintro ⟨_, ⟨⟩, hlookup⟩
    rwa [Volume.lookup_write, if_pos ⟨rfl, rfl⟩] at hlookup
  · rintro rfl
    exact ⟨dir, rfl, if_pos ⟨rfl, rfl⟩⟩

/-- A directory that is made is empty. -/
theorem fileOf_makeDirectory (h : Inv P m) {dir : Nat} {name : Text}
    (hlt : dir < m.disk.next) (habsent : m.disk.lookup dir name = none) :
    fileOf (m.disk.makeDirectory dir name) digest = some inode ↔
      fileOf m.disk digest = some inode := by
  have hold : ∀ at' key node, m.disk.lookup at' key = some node →
      (m.disk.makeDirectory dir name).lookup at' key = some node := by
    intro at' key node hlookup
    refine (if_neg ?_).trans hlookup
    rintro ⟨rfl, rfl⟩
    rw [habsent] at hlookup
    cases hlookup
  have hnew : ∀ at' key node,
      (m.disk.makeDirectory dir name).lookup at' key = some node →
        m.disk.lookup at' key = some node ∨ node = .directory m.disk.next := by
    intro at' key node hlookup
    by_cases heq : at' = dir ∧ key = name
    · exact .inr (Option.some.inj (hlookup.symm.trans (if_pos heq)))
    · exact .inl ((if_neg heq).symm.trans hlookup)
  have hempty : ∀ key,
      (m.disk.makeDirectory dir name).lookup m.disk.next key = none := by
    intro key
    refine (if_neg fun heq => Nat.ne_of_gt hlt heq.1).trans ?_
    exact (h.sound.unused m.disk.next key (Nat.le_refl _)).lookup
  have hpath : ∀ (path : List Text) (start target : Nat),
      (m.disk.makeDirectory dir name).directoryAt start path = some target →
        m.disk.directoryAt start path = some target ∨
          target = m.disk.next := by
    intro path
    induction path with
    | nil => exact fun start target hat => .inl hat
    | cons key path ih =>
        intro start target hat
        obtain ⟨below, hlookup, hbelow⟩ := Volume.directoryAt_cons.mp hat
        rcases hnew start key _ hlookup with hkept | hmade
        · rcases ih below target hbelow with hrest | hlast
          · exact .inl (Volume.directoryAt_cons.mpr ⟨below, hkept, hrest⟩)
          · exact .inr hlast
        · cases hmade
          cases path with
          | nil => exact .inr (Option.some.inj hbelow).symm
          | cons key path =>
              obtain ⟨_, hnone, -⟩ := Volume.directoryAt_cons.mp hbelow
              rw [hempty] at hnone
              cases hnone
  rw [fileOf_eq_some, fileOf_eq_some]
  constructor
  · rintro ⟨parent, hparent, hlookup⟩
    rcases hpath _ _ _ hparent with hkept | rfl
    · rcases hnew _ _ _ hlookup with hfile | hmade
      · exact ⟨parent, hkept, hfile⟩
      · cases hmade
    · rw [hempty] at hlookup
      cases hlookup
  · rintro ⟨parent, hparent, hlookup⟩
    exact ⟨parent, Volume.directoryAt_of hparent
      fun at' key below => hold at' key _, hold _ _ _ hlookup⟩

theorem Plain.contentAt (h : Inv P m) (hplain : Plain m disk) :
    contentAt disk digest = contentAt m.disk digest := by
  refine contentAt_eq h (.plain hplain) fun inode => ?_
  cases hplain with
  | same => exact Iff.rfl
  | own later hopen => exact iff_of_eq (congrArg (· = _)
      (fileOf_congr fun _ _ => rfl))
  | create hfresh => exact iff_of_eq (congrArg (· = _) (fileOf_write_temp h))
  | makeDirectory _ hlt habsent => exact fileOf_makeDirectory h hlt habsent
  | syncDirectory dir => exact iff_of_eq (congrArg (· = _)
      (fileOf_congr fun _ _ => rfl))
  | unlinkTemp _ => exact iff_of_eq (congrArg (· = _) (fileOf_write_temp h))

end View

/-! One object-store operation for each step. -/

/-- The stages of an admission whose link has been tried. -/
def Stage.tried : Stage → Prop
  | .linked | .leafSynced | .parentSynced | .sealed | .refused | .rehashing
  | .reading _ | .unlinking _ | .returned _ => True
  | _ => False

structure Shows (m : Machine) (store : ObjectStore P) : Prop where
  view : ∀ digest, store.openObject digest = contentAt m.disk digest
  named : m.disk.Named fun dir _ node => ∀ inode, node = .file inode →
    dir ≠ tmpDir → (m.disk.inode inode).content ∈ store.admitted
  tried : ∀ who writer stage, m.process who = some (.writer writer stage) →
    stage.tried → writer.hashed ∈ store.admitted

/-- The operation that a step of the processes stands for. -/
inductive Stands (m next : Machine) (store : ObjectStore P) :
    ObjectStore P → Prop where
  | nothing : Stands m next store store
  | put {who : Nat} {writer : ObjectWriter}
      (hprocess : m.process who = some (.writer writer .readOnly)) :
      Stands m next store (store.putBytes writer.hashed)
  | remove {who : Nat} {digest : ObjectDigest}
      (hprocess : m.process who = some (.remover digest .found)) :
      Stands m next store (store.removeObject digest)
  | crash {disk : Volume Text Bytes} {left : ObjectStore P}
      (hcrash : m.disk.Crash disk) (hnext : next = m.reboot disk)
      (hadmitted : left.admitted = store.admitted) : Stands m next store left

section Steps

variable {store : ObjectStore P} {writer after : ObjectWriter}
  {stage later : Stage}

theorem Turns.tried (h : Turns writer stage after later)
    (htried : later.tried) :
    after = writer ∧ (stage.tried ∨ stage = .readOnly) := by
  cases h with
  | linked => exact ⟨rfl, .inr rfl⟩
  | refused => exact ⟨rfl, .inr rfl⟩
  | leafSynced => exact ⟨rfl, .inl trivial⟩
  | parentSynced => exact ⟨rfl, .inl trivial⟩
  | sealed => exact ⟨rfl, .inl trivial⟩
  | released => exact ⟨rfl, .inl trivial⟩
  | rehashing => exact ⟨rfl, .inl trivial⟩
  | reading inode => exact ⟨rfl, .inl trivial⟩
  | found inode => exact ⟨rfl, .inl trivial⟩
  | returned preexisting => exact ⟨rfl, .inl trivial⟩
  | _ => exact absurd htried id

theorem faultWriter_tried {torn : Nat}
    (hnext : faultWriter m who torn writer stage = some next)
    (hafter : next.process who = some (.writer after later))
    (htried : later.tried) : after = writer ∧ stage.tried := by
  have huntried : ∀ {m error}, (giveUp m who writer error).process who =
      some (.writer after later) → after = writer ∧ stage.tried := by
    intro m error hfound
    cases Machine.become_inj hfound
    exact absurd htried id
  cases stage with
  | unlinking preexisting =>
      cases hnext
      cases Machine.become_inj hafter
      exact ⟨rfl, trivial⟩
  | leased blocks =>
      cases blocks with
      | nil =>
          cases hnext
          exact huntried hafter
      | cons block blocks =>
          cases hnext
          exact huntried hafter
  | created blocks =>
      cases hnext
      cases Machine.become_inj hafter
      exact absurd htried id
  | rehashing =>
      cases hnext
      cases Machine.become_inj hafter
      exact absurd htried id
  | reading inode =>
      cases hnext
      cases Machine.become_inj hafter
      exact absurd htried id
  | failing error =>
      cases hnext
      cases Machine.become_inj hafter
      exact absurd htried id
  | sealed => cases hnext
  | refused => cases hnext
  | dropping error => cases hnext
  | returned preexisting => cases hnext
  | failed error => cases hnext
  | _ =>
      cases hnext
      exact huntried hafter

/-- The writers that tried their link, after a step of one process. -/
theorem tried_moved {process : Process}
    (hmoved : next.process = Function.update m.process who (some process))
    (hprocess : ∀ after later, process = .writer after later → later.tried →
      ∃ stage, m.process who = some (.writer after stage) ∧ stage.tried) :
    ∀ other after later, next.process other = some (.writer after later) →
      later.tried →
        ∃ stage, m.process other = some (.writer after stage) ∧
          stage.tried := by
  intro other after later hafter htried
  rw [hmoved] at hafter
  by_cases heq : other = who
  · subst heq
    rw [Function.update_self] at hafter
    exact hprocess after later (Option.some.inj hafter) htried
  · rw [Function.update_of_ne heq] at hafter
    exact ⟨later, hafter, htried⟩

/-- What the entries of the volume name after a call was named before it, or
is the file that the call installed. -/
theorem Plain.named (h : Inv P m) {disk : Volume Text Bytes}
    (hplain : Plain m disk) {dir inode : Nat} {name : Text}
    (hdir : dir ≠ tmpDir)
    (hmem : some (.file inode) ∈ disk.values dir name) :
    some (.file inode) ∈ m.disk.values dir name ∧
      disk.inode inode = m.disk.inode inode := by
  have hwhole : some (.file inode) ∈ m.disk.values dir name →
      disk.inode inode = m.disk.inode inode := by
    intro hold
    have hsynced := (h.sound.whole dir name _ hold inode rfl hdir).1
    exact (Effect.plain (P := P) hplain).inode_eq
      (h.sound.files dir name _ hold inode rfl) hsynced
  have hold : some (.file inode) ∈ m.disk.values dir name := by
    cases hplain with
    | same => exact hmem
    | own later hopen => exact hmem
    | create hfresh =>
        rcases Volume.mem_values_create.mp hmem with ⟨heq, -, -⟩ | hold
        · exact absurd heq hdir
        · exact hold
    | makeDirectory _ _ _ =>
        rcases Volume.mem_values_makeDirectory.mp hmem with ⟨-, -, heq⟩ | hold
        · cases heq
        · exact hold
    | syncDirectory at' => exact Volume.mem_values_syncDirectory hmem
    | unlinkTemp _ =>
        rcases Volume.mem_values_write.mp hmem with ⟨heq, -, -⟩ | hold
        · exact absurd heq hdir
        · exact hold
  exact ⟨hold, hwhole hold⟩

/-- A step that touches no object and tries no link. -/
theorem Shows.plain (h : Shows m store) (hinv : Inv P m)
    (hplain : Plain m next.disk)
    (htried : ∀ who after later,
      next.process who = some (.writer after later) → later.tried →
        ∃ stage, m.process who = some (.writer after stage) ∧ stage.tried) :
    Shows next store := by
  refine ⟨?_, ?_, ?_⟩
  · intro digest
    rw [Plain.contentAt hinv hplain, h.view]
  · rintro dir name node hmem inode rfl hdir
    obtain ⟨hold, hsame⟩ := hplain.named hinv hdir hmem
    rw [hsame]
    exact h.named dir name _ hold inode rfl hdir
  · intro who after later hafter hlater
    obtain ⟨stage, hprocess, hstage⟩ := htried who after later hafter hlater
    exact h.tried who after stage hprocess hstage

/-- Whatever has an object's name in its leaf is the object. -/
theorem contentAt_isSome (h : Inv P m) {digest : ObjectDigest} {dir : Nat}
    (hdir : m.leaf digest = some dir) :
    (contentAt m.disk digest).isSome =
      (m.disk.lookup dir (toHex digest)).isSome := by
  cases hlookup : m.disk.lookup dir (toHex digest) with
  | none =>
      have hnone : fileOf m.disk digest = none := by
        cases hfound : fileOf m.disk digest with
        | none => rfl
        | some inode =>
            obtain ⟨at', hat, hthere⟩ := fileOf_eq_some.mp hfound
            cases hdir.symm.trans hat
            rw [hlookup] at hthere
            cases hthere
      rw [contentAt, hnone]
      rfl
  | some node =>
      cases node with
      | file inode =>
          have hfile : fileOf m.disk digest = some inode :=
            fileOf_eq_some.mpr ⟨dir, hdir, hlookup⟩
          rw [contentAt, hfile]
          rfl
      | directory below =>
          obtain ⟨-, -, hlength⟩ := h.sound.directories dir _ _
            (hlookup ▸ Volume.lookup_mem) below rfl
          rw [length_toHex] at hlength
          omega

/-- A link at the object's path puts the file's content there. -/
theorem contentAt_link {digest other : ObjectDigest} {dir inode : Nat}
    (hdir : m.leaf digest = some dir) :
    contentAt (m.disk.link dir (toHex digest) (.file inode)) other =
      if digest = other then some (m.disk.inode inode).content
      else contentAt m.disk other := by
  split
  · rename_i hsame
    subst hsame
    have hnow : fileOf (m.disk.link dir (toHex digest) (.file inode)) digest =
        some inode := (fileOf_write_own hdir).mpr rfl
    rw [contentAt, hnow]
    rfl
  · rename_i hne
    have hkept : fileOf (m.disk.link dir (toHex digest) (.file inode)) other =
        fileOf m.disk other := fileOf_write_object (Ne.symm hne)
    rw [contentAt, hkept]
    rfl

theorem contentAt_unlink {digest other : ObjectDigest} {dir : Nat}
    (hdir : m.leaf digest = some dir) :
    contentAt (m.disk.unlink dir (toHex digest)) other =
      if other = digest then none else contentAt m.disk other := by
  split
  · rename_i hsame
    subst hsame
    have hnow : fileOf (m.disk.unlink dir (toHex other)) other = none := by
      cases hfound : fileOf (m.disk.unlink dir (toHex other)) other with
      | none => rfl
      | some inode => cases (fileOf_write_own hdir).mp hfound
    rw [contentAt, hnow]
    rfl
  · rename_i hne
    have hkept : fileOf (m.disk.unlink dir (toHex digest)) other =
        fileOf m.disk other := fileOf_write_object hne
    rw [contentAt, hkept]
    rfl

/-- What is named in the object tree after a write is what was, or the node
that was written. -/
theorem Shows.named_write (h : Shows m store) {dir : Nat} {name : Text}
    {value : Option Node} {admitted : List Bytes}
    (hsub : ∀ bytes ∈ store.admitted, bytes ∈ admitted)
    (hvalue : ∀ inode, value = some (.file inode) →
      (m.disk.inode inode).content ∈ admitted) :
    (m.disk.write dir name value).Named fun dir _ node =>
      ∀ inode, node = .file inode → dir ≠ tmpDir →
        (m.disk.inode inode).content ∈ admitted := by
  rintro at' key node hmem inode rfl hne
  rcases Volume.mem_values_write.mp hmem with ⟨-, -, heq⟩ | hold
  · exact hvalue inode heq.symm
  · exact hsub _ (h.named at' key _ hold inode rfl hne)

/-- An installed object is put; a refused link finds it put already. -/
theorem Shows.hardLink (h : Shows m store) (hinv : Inv P m)
    (hprocess : m.process who = some (.writer writer .readOnly))
    (hafter : (hardLink P m who writer).process who =
      some (.writer after later)) (htried : later.tried) :
    (∀ digest, (store.putBytes writer.hashed).openObject digest =
        contentAt (hardLink P m who writer).disk digest) ∧
      (hardLink P m who writer).disk.Named fun dir _ node =>
        ∀ inode, node = .file inode → dir ≠ tmpDir →
          ((hardLink P m who writer).disk.inode inode).content ∈
            (store.putBytes writer.hashed).admitted := by
  have hok : WriterOk P m who writer .readOnly := hinv.process who _ hprocess
  obtain ⟨-, hcontent⟩ := hok.durable trivial
  have hexists : ∀ {dir}, m.leaf (writer.digest P) = some dir →
      store.existsObject (P.sha256 writer.hashed) =
        (m.disk.lookup dir (toHex (writer.digest P))).isSome := by
    intro dir hdir
    rw [ObjectStore.existsObject, h.view]
    exact contentAt_isSome hinv hdir
  unfold Install.hardLink at hafter ⊢
  split at hafter
  · rename_i node dir hnode hdir
    split at hafter
    · rename_i hthere
      rw [if_pos hthere]
      refine ⟨fun digest => ?_, ?_⟩
      · rw [ObjectStore.openObject_putBytes, if_neg, h.view]
        · rfl
        · rintro ⟨habsent, rfl⟩
          rw [hexists hdir, hthere] at habsent
          cases habsent
      · exact h.named.mono fun _ _ _ hold inode hfile hne =>
          List.mem_cons_of_mem _ (hold inode hfile hne)
    · rename_i habsent
      have hfile : node = .file writer.inode := by
        simpa [hnode] using hok.temp _ Volume.lookup_mem
      subst hfile
      rw [if_neg habsent]
      refine ⟨fun digest => ?_, h.named_write
        (fun _ hmem => List.mem_cons_of_mem _ hmem) ?_⟩
      · refine Eq.trans ?_ (contentAt_link hdir).symm
        rw [ObjectStore.openObject_putBytes, hcontent, h.view]
        by_cases hsame : P.sha256 writer.hashed = digest
        · subst hsame
          rw [if_pos ⟨by rw [hexists hdir]; simpa using habsent, rfl⟩]
          exact (if_pos rfl).symm
        · rw [if_neg fun heq => hsame heq.2]
          exact (if_neg hsame).symm
      · rintro inode ⟨⟩
        exact List.mem_cons.mpr (.inl hcontent)
  · cases Machine.become_inj hafter
    exact absurd htried id

/-- A removal takes the object out of the store. -/
theorem Shows.remove (h : Shows m store) {digest : ObjectDigest} {dir : Nat}
    (hdir : m.leaf digest = some dir)
    (hdisk : next.disk = m.disk.unlink dir (toHex digest))
    (htried : ∀ who after later,
      next.process who = some (.writer after later) → later.tried →
        ∃ stage, m.process who = some (.writer after stage) ∧ stage.tried) :
    Shows next (store.removeObject digest) := by
  refine ⟨?_, ?_, ?_⟩
  · intro other
    rw [ObjectStore.openObject_removeObject, hdisk, contentAt_unlink hdir,
      h.view]
  · rw [hdisk]
    exact h.named_write (fun _ hmem => hmem) (by simp)
  · intro who after later hafter hlater
    obtain ⟨stage, hprocess, hstage⟩ := htried who after later hafter hlater
    exact h.tried who after stage hprocess hstage

/-! A crash leaves some of the objects, and may bring removed ones back. -/

/-- The objects on a volume, by their files. -/
def residents (P : Platform) (disk : Volume Text Bytes) :
    List (ObjectDigest × Bytes) :=
  (List.range disk.next).filterMap fun inode =>
    let bytes := (disk.inode inode).content
    if fileOf disk (P.sha256 bytes) = some inode then
      some (P.sha256 bytes, bytes)
    else none

theorem mem_residents {disk : Volume Text Bytes} {pair : ObjectDigest × Bytes} :
    pair ∈ residents P disk ↔ ∃ inode < disk.next,
      fileOf disk pair.1 = some inode ∧
        (disk.inode inode).content = pair.2 ∧ P.sha256 pair.2 = pair.1 := by
  simp only [residents, List.mem_filterMap, List.mem_range]
  constructor
  · rintro ⟨inode, hlt, hpair⟩
    split at hpair
    · rename_i hfile
      cases hpair
      exact ⟨inode, hlt, hfile, rfl, rfl⟩
    · cases hpair
  · rintro ⟨inode, hlt, hfile, hcontent, hhash⟩
    refine ⟨inode, hlt, ?_⟩
    rw [hcontent, hhash, if_pos hfile]

theorem Shows.crash (h : Shows m store) (hinv : Inv P m)
    {disk : Volume Text Bytes} (hcrash : m.disk.Crash disk) :
    ∃ left : ObjectStore P, left.admitted = store.admitted ∧
      Shows (m.reboot disk) left := by
  have hafter : Inv P (m.reboot disk) := hinv.reboot hcrash
  have hnamed : disk.Named fun dir _ node => ∀ inode, node = .file inode →
      dir ≠ tmpDir → (disk.inode inode).content ∈ store.admitted := by
    rintro dir name node hmem inode rfl hne
    have hold := hcrash.mem_values hmem
    rw [hcrash.inode inode (hinv.sound.whole dir name _ hold inode rfl hne).1]
    exact h.named dir name _ hold inode rfl hne
  refine ⟨⟨residents P disk, store.admitted, ?_⟩, rfl, ?_, hnamed, ?_⟩
  · intro pair hpair
    obtain ⟨inode, -, hfile, hcontent, hhash⟩ := mem_residents.mp hpair
    obtain ⟨dir, hdir, hlookup⟩ := fileOf_eq_some.mp hfile
    refine ⟨hhash, hcontent ▸ hnamed dir _ _ (hlookup ▸ Volume.lookup_mem)
      inode rfl (hafter.sound.directoryAt hdir).1⟩
  · intro digest
    rw [ObjectStore.openObject]
    cases hfind : (residents P disk).find? fun pair => pair.1 = digest with
    | some pair =>
        have hkey := List.find?_some hfind
        simp only [decide_eq_true_eq] at hkey
        subst hkey
        obtain ⟨inode, -, hfile, hcontent, -⟩ :=
          mem_residents.mp (List.mem_of_find?_eq_some hfind)
        change _ = contentAt disk pair.1
        rw [contentAt, hfile, Option.map_some, Option.map_some, hcontent]
    | none =>
        cases hfile : Install.fileOf disk digest with
        | none =>
            change _ = contentAt disk digest
            rw [contentAt, hfile]
            rfl
        | some inode =>
            obtain ⟨hlt, -, hhash⟩ := hafter.fileOf hfile
            have hmem : (digest, (disk.inode inode).content) ∈
                residents P disk :=
              mem_residents.mpr ⟨inode, hlt, hfile, rfl, hhash⟩
            have hmiss := List.find?_eq_none.mp hfind _ hmem
            simp at hmiss
  · intro who writer stage hprocess
    cases hprocess

theorem hardLink_gaveUp
    (hafter : (hardLink P m who writer).process who =
      some (.writer after later)) (htried : ¬ later.tried) :
    (hardLink P m who writer).disk = m.disk := by
  unfold hardLink at hafter ⊢
  split at hafter
  · split at hafter
    · cases Machine.become_inj hafter
      exact absurd trivial htried
    · cases Machine.become_inj hafter
      exact absurd trivial htried
  · rfl

theorem refines_hardLink (hinv : Inv P m) (h : Shows m store)
    (hprocess : m.process who = some (.writer writer .readOnly)) :
    ∃ left, Stands m (hardLink P m who writer) store left ∧
      Shows (hardLink P m who writer) left := by
  obtain ⟨later, hmoved, hturn⟩ := @turns_hardLink P m who writer
  have hafter : (hardLink P m who writer).process who =
      some (.writer writer later) := by
    rw [hmoved, Function.update_self]
  by_cases htried : later.tried
  · obtain ⟨hview, hnamed⟩ := h.hardLink hinv hprocess hafter htried
    refine ⟨_, .put hprocess, hview, hnamed, ?_⟩
    intro other found at' hother hat
    rw [hmoved] at hother
    by_cases heq : other = who
    · subst heq
      rw [Function.update_self] at hother
      cases hother
      exact List.mem_cons_self
    · rw [Function.update_of_ne heq] at hother
      exact List.mem_cons_of_mem _ (h.tried other found at' hother hat)
  · refine ⟨store, .nothing, h.plain hinv ?_ (tried_moved hmoved ?_)⟩
    · rw [hardLink_gaveUp hafter htried]
      exact .same
    · rintro _ _ ⟨⟩ hlater
      exact absurd hlater htried

theorem refines_advance (hinv : Inv P m) (h : Shows m store)
    (hnext : advance P m who = some next) :
    ∃ left, Stands m next store left ∧ Shows next left := by
  unfold advance at hnext
  split at hnext
  · rename_i writer stage hprocess
    by_cases hstage : stage = .readOnly
    · subst hstage
      cases hnext
      exact refines_hardLink hinv h hprocess
    · obtain ⟨after, later, hmoved, hturn⟩ := advanceWriter_turns hnext
      refine ⟨store, .nothing, h.plain hinv
        (Plain.advanceWriter hinv hprocess hstage hnext)
        (tried_moved hmoved ?_)⟩
      rintro _ _ ⟨⟩ htried
      obtain ⟨rfl, hbefore⟩ := hturn.tried htried
      exact ⟨stage, hprocess, hbefore.resolve_right hstage⟩
  · rename_i name stage hprocess
    obtain ⟨later, hmoved⟩ := advanceCollector_process hnext
    refine ⟨store, .nothing, h.plain hinv
      (Plain.advanceCollector hprocess hnext) (tried_moved hmoved ?_)⟩
    rintro _ _ ⟨⟩
  · rename_i digest stage hprocess
    obtain ⟨later, hmoved⟩ := advanceRemover_process hnext
    have htried := tried_moved hmoved (by rintro _ _ ⟨⟩)
    have hplain : Plain m next.disk →
        ∃ left, Stands m next store left ∧ Shows next left :=
      fun hplain => ⟨store, .nothing, h.plain hinv hplain htried⟩
    cases stage with
    | asked =>
        cases hnext
        exact hplain .same
    | found =>
        cases hdir : m.leaf digest with
        | none =>
            simp only [advanceRemover, hdir, Option.some.injEq] at hnext
            subst hnext
            exact hplain .same
        | some dir =>
            simp only [advanceRemover, hdir, Option.some.injEq] at hnext
            by_cases hthere : (m.disk.lookup dir (toHex digest)).isSome = true
            · rw [if_pos hthere] at hnext
              subst hnext
              exact ⟨_, .remove hprocess, h.remove hdir rfl htried⟩
            · rw [if_neg hthere] at hnext
              subst hnext
              exact hplain .same
    | unlinked =>
        cases hdir : m.leaf digest with
        | none =>
            simp only [advanceRemover, hdir, Option.some.injEq] at hnext
            subst hnext
            exact hplain .same
        | some dir =>
            simp only [advanceRemover, hdir, Option.some.injEq] at hnext
            subst hnext
            exact hplain (.syncDirectory dir)
    | answered removed => cases hnext
  · cases hnext

theorem refines_fault (hinv : Inv P m) (h : Shows m store) {torn : Nat}
    (hnext : fault m who torn = some next) : Shows next store := by
  have hplain := Plain.fault hinv hnext
  unfold fault at hnext
  split at hnext
  · rename_i writer stage hprocess
    obtain ⟨later, hmoved⟩ := faultWriter_process hnext
    refine h.plain hinv hplain (tried_moved hmoved ?_)
    rintro _ _ ⟨⟩ htried
    have hafter : next.process who = some (.writer writer later) := by
      rw [hmoved, Function.update_self]
    exact ⟨stage, hprocess, (faultWriter_tried hnext hafter htried).2⟩
  · obtain ⟨later, hmoved⟩ := faultCollector_process hnext
    exact h.plain hinv hplain (tried_moved hmoved (by rintro _ _ ⟨⟩))
  · obtain ⟨later, hmoved⟩ := faultRemover_process hnext
    exact h.plain hinv hplain (tried_moved hmoved (by rintro _ _ ⟨⟩))
  · cases hnext

/-- Every step of the processes is one operation of the object store, or none,
and reading the paths is reading the store. -/
theorem refines_step (hinv : Inv P m) (h : Shows m store)
    (hstep : Step P m next) :
    ∃ left, Stands m next store left ∧ Shows next left := by
  cases hstep with
  | @newWriter who process sequence nanos blocks expecting _ hissued _ =>
      refine ⟨store, .nothing, h.plain hinv (.create hissued)
        (tried_moved rfl ?_)⟩
      rintro _ _ ⟨⟩ htried
      exact absurd htried id
  | @reclaim who grace name identity _ _ _ _ _ =>
      exact ⟨store, .nothing,
        h.plain hinv .same (tried_moved rfl (by rintro _ _ ⟨⟩))⟩
  | @remove who digest _ =>
      exact ⟨store, .nothing,
        h.plain hinv .same (tried_moved rfl (by rintro _ _ ⟨⟩))⟩
  | advance hnext => exact refines_advance hinv h hnext
  | fault hnext => exact ⟨store, .nothing, refines_fault hinv h hnext⟩
  | kill who =>
      refine ⟨store, .nothing, h.plain hinv .same ?_⟩
      intro other after later hafter htried
      by_cases heq : other = who
      · subst heq
        simp [Machine.kill] at hafter
      · exact ⟨later, by simpa [Machine.kill, heq] using hafter, htried⟩
  | tick => exact ⟨store, .nothing, h.view, h.named, h.tried⟩
  | crash hcrash =>
      obtain ⟨left, hadmitted, hshows⟩ := h.crash hinv hcrash
      exact ⟨left, .crash hcrash rfl hadmitted, hshows⟩

end Steps

/-- A run of the processes beside the run of the object store it stands for. -/
inductive Refined (P : Platform) : Machine → ObjectStore P → Prop where
  | start : Refined P .start .empty
  | step {m next : Machine} {store left : ObjectStore P}
      (hrun : Refined P m store) (hstep : Step P m next)
      (hstands : Stands m next store left) (hshows : Shows next left) :
      Refined P next left

theorem Shows.start : Shows (P := P) .start .empty :=
  ⟨fun _ => rfl,
    fun _ _ _ hmem => by simp [Volume.values, Machine.start] at hmem,
    fun _ _ _ hprocess => by cases hprocess⟩

/-- Every run of admissions, removals, collections and crashes on the volume is
a run of the object store, and at its end every path reads as the store
answers; what an admission that returned has hashed was put in that run. -/
theorem refines (hreach : Reachable P m) :
    ∃ store : ObjectStore P, Refined P m store ∧
      (∀ digest, store.openObject digest = contentAt m.disk digest) ∧
      ∀ who writer preexisting,
        m.process who = some (.writer writer (.returned preexisting)) →
          writer.hashed ∈ store.admitted := by
  have hrun : ∃ store : ObjectStore P, Refined P m store ∧ Shows m store := by
    induction hreach with
    | refl => exact ⟨_, .start, .start⟩
    | tail hsteps hstep ih =>
        obtain ⟨store, hrun, hshows⟩ := ih
        obtain ⟨left, hstands, hleft⟩ :=
          refines_step (Inv.start.run hsteps) hshows hstep
        exact ⟨left, .step hrun hstep hstands hleft, hleft⟩
  obtain ⟨store, hrun, hshows⟩ := hrun
  exact ⟨store, hrun, hshows.view, fun who writer preexisting hprocess =>
    hshows.tried who writer _ hprocess trivial⟩

namespace TwoBlocks

/-- The same bytes once more, in one block. -/
def shared : Machine :=
  drive platform 1 11
    (returned.newWriter 1 (tempName 1 1 0) [[1, 2, 3]] none)

/-- Then their removal. -/
def removed : Machine := drive platform 2 4 (shared.become 2
  (.remover digest .asked))

theorem removed_reachable : Reachable platform removed := by
  have hshared : Reachable platform shared :=
    (returned_reachable.tail (returned_next _ _)).trans drive_run
  exact (hshared.tail (.remove _ (by decide +kernel))).trans drive_run

theorem refined : ∃ store : ObjectStore platform,
    Refined platform removed store ∧
      store.openObject digest = none ∧ [1, 2, 3] ∈ store.admitted := by
  obtain ⟨store, hrun, hopens, hadmitted⟩ := refines removed_reachable
  have hreturned : removed.process 1 = some (.writer
      ⟨tempName 1 1 0, 5, [1, 2, 3], none⟩ (.returned true)) := by
    decide +kernel
  refine ⟨store, hrun, ?_, hadmitted 1 _ true hreturned⟩
  rw [hopens]
  decide +kernel

end TwoBlocks

end TensorFS.Install
