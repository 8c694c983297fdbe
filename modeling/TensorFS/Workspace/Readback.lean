import TensorFS.Data.Walk
import TensorFS.Tfm1.Recarry
import TensorFS.Workspace.Plant
import TensorFS.Workspace.Roots

namespace TensorFS

open Data

/-! The replayed tree, read back. -/

/-- A directory's node on the walk's stack. -/
def openDirectory (pair : Text × InodeRow) : Option (Nat × Text) :=
  if pair.2.inode.kind = .directory then some (pair.2.id, pair.1) else none

theorem stageWalk_eq (db : Db) (fuel : Nat) (stack : List (Nat × Text)) :
    stageWalk db fuel stack = stackWalk
      (fun node => visitChildren db node.1 node.2) openDirectory fuel stack := by
  induction fuel generalizing stack with
  | zero =>
      cases stack with
      | nil => rfl
      | cons node stack => rfl
  | succ fuel ih =>
      cases stack with
      | nil => rfl
      | cons node stack =>
          rw [stageWalk, stackWalk, ih]
          rfl

def rowOf (workspace : WorkspaceRow) (snapshot : Snapshot) (seat : Text → Nat)
    (pair : Text × Entry) : InodeRow :=
  ⟨seat pair.1, workspace.id, (snapshot.own pair).2.inode⟩

/-- What the walk notes for an entry. -/
def noted (workspace : WorkspaceRow) (snapshot : Snapshot) (seat : Text → Nat)
    (pair : Text × Entry) : Text × InodeRow :=
  (pair.1, rowOf workspace snapshot seat pair)

section

variable {U : Unicode} {base db : Db} {workspace : WorkspaceRow}
  {snapshot : Snapshot} {seat : Text → Nat}

theorem Planted.visitChildren
    (h : Planted base workspace snapshot snapshot.entries db seat)
    (hcanonical : Canonical U snapshot) (hlinked : base.Linked)
    (hvacant : base.Vacant workspace) {folder : Text}
    (hfolder : IsFolder snapshot.entries folder) :
    visitChildren db (seat folder) folder =
      (snapshot.entries.filter fun pair => folderOf pair.1 = folder).map
        (noted workspace snapshot seat) := by
  have hbase : (base.dirents.filter fun dirent =>
      dirent.parent = seat folder) = [] := by
    rw [List.filter_eq_nil_iff]
    intro dirent hdirent
    simpa using h.base_parent hlinked hvacant hfolder hdirent
  have hsame : snapshot.entries.filter ((fun dirent : Dirent =>
      decide (dirent.parent = seat folder)) ∘ fun pair =>
        direntOf seat pair.1) =
      snapshot.entries.filter fun pair => folderOf pair.1 = folder := by
    apply List.filter_congr
    intro pair hpair
    have hown := @Canonical.folder_of_mem U snapshot hcanonical _ [] pair
      (List.append_nil _).symm hpair
    rw [Function.comp_apply, decide_eq_decide]
    constructor
    · exact h.seat_folder hvacant hown hfolder
    · intro heq
      exact congrArg seat heq
  rw [TensorFS.visitChildren, Db.children, h.dirents, List.filter_append, hbase,
    List.nil_append, List.filter_map, hsame, List.filterMap_map,
    List.map_filterMap]
  rw [← List.filterMap_eq_map]
  apply List.filterMap_congr
  intro pair hpair
  obtain ⟨hmem, hat⟩ := List.mem_filter.mp hpair
  have hfolderOf := of_decide_eq_true hat
  have hfound : db.inode (direntOf seat pair.1).child =
    some (rowOf workspace snapshot seat pair) := h.found pair hmem
  rw [Function.comp_apply, hfound, Option.map_some, Option.map_some,
    Function.comp_apply, noted, ← hfolderOf]
  show some (childPath (folderOf pair.1) (leafOf pair.1), _) = _
  rw [childPath_folderOf (hcanonical.valid hmem)]

theorem noted_inj (hcanonical : Canonical U snapshot)
    {left right : Text × Entry} (hleft : left ∈ snapshot.entries)
    (hright : right ∈ snapshot.entries)
    (h : noted workspace snapshot seat left =
      noted workspace snapshot seat right) : left = right :=
  hcanonical.path_inj hleft hright (Prod.mk.inj h).1

/-- A noted item opens a node when its entry is a directory. -/
theorem openDirectory_noted (hcanonical : Canonical U snapshot)
    {pair : Text × Entry} (hpair : pair ∈ snapshot.entries)
    {node : Nat × Text} :
    openDirectory (noted workspace snapshot seat pair) = some node ↔
      pair.2 = .directory ∧ node = (seat pair.1, pair.1) := by
  obtain ⟨path, entry⟩ := pair
  cases entry with
  | directory =>
      simp [openDirectory, noted, rowOf, Snapshot.own, Entry.inode, Inode.kind,
        @eq_comm _ node]
  | file executable body =>
      simp [openDirectory, noted, rowOf, Snapshot.own, Entry.inode, Inode.kind]
  | symlink target =>
      simp [openDirectory, noted, rowOf, Snapshot.own, Entry.inode, Inode.kind]
  | hardlink ordinal =>
      obtain ⟨carrier, executable, body, hown, _⟩ := hcanonical.own_link hpair
      simp [openDirectory, noted, rowOf, hown, Entry.inode, Inode.kind]

theorem Planted.hangs
    (h : Planted base workspace snapshot snapshot.entries db seat)
    (hcanonical : Canonical U snapshot) (hlinked : base.Linked)
    (hvacant : base.Vacant workspace) :
    Hangs (fun node : Nat × Text => TensorFS.visitChildren db node.1 node.2)
      openDirectory (workspace.rootInode, [])
      (fun item => (seat (folderOf item.1), folderOf item.1))
      (fun item => item.1.length)
      (snapshot.entries.map (noted workspace snapshot seat)) := by
  have hnodup : snapshot.entries.Nodup :=
    List.Nodup.of_map Prod.fst
      (List.pairwise_map.mpr (hcanonical.sorted.imp ne_of_lt))
  have hnode : ∀ node, (node = (workspace.rootInode, []) ∨
      ∃ item ∈ snapshot.entries.map (noted workspace snapshot seat),
        openDirectory item = some node) →
      IsFolder snapshot.entries node.2 ∧ node.1 = seat node.2 := by
    rintro node (rfl | ⟨item, hitem, hopens⟩)
    · exact ⟨.inl rfl, h.root.symm⟩
    · obtain ⟨⟨path, entry⟩, hpair, rfl⟩ := List.mem_map.mp hitem
      obtain ⟨rfl, rfl⟩ := (openDirectory_noted hcanonical hpair).mp hopens
      exact ⟨.inr hpair, rfl⟩
  constructor
  · exact hnodup.map_on fun left hleft right hright =>
      noted_inj hcanonical hleft hright
  · intro left hleft right hright node hopens hopens'
    obtain ⟨pair, hpair, rfl⟩ := List.mem_map.mp hleft
    obtain ⟨other, hother, rfl⟩ := List.mem_map.mp hright
    obtain ⟨_, rfl⟩ := (openDirectory_noted hcanonical hpair).mp hopens
    obtain ⟨_, hsame⟩ := (openDirectory_noted hcanonical hother).mp hopens'
    rw [hcanonical.path_inj hpair hother (congrArg Prod.snd hsame)]
  · intro item hitem hopens
    obtain ⟨pair, hpair, rfl⟩ := List.mem_map.mp hitem
    obtain ⟨_, hsame⟩ := (openDirectory_noted hcanonical hpair).mp hopens
    exact (validatePath_segments (hcanonical.valid hpair)).1
      (congrArg Prod.snd hsame).symm
  · intro node hat
    obtain ⟨hfolder, hseat⟩ := hnode node hat
    rw [hseat, h.visitChildren hcanonical hlinked hvacant hfolder]
    exact (hnodup.filter _).map_on fun left hleft right hright =>
      noted_inj hcanonical (List.mem_filter.mp hleft).1
        (List.mem_filter.mp hright).1
  · intro node hat item
    obtain ⟨hfolder, hseat⟩ := hnode node hat
    obtain ⟨inode, folder⟩ := node
    dsimp only at hfolder hseat ⊢
    rw [hseat, h.visitChildren hcanonical hlinked hvacant hfolder, List.mem_map,
      List.mem_map]
    constructor
    · rintro ⟨pair, hpair, rfl⟩
      obtain ⟨hmem, hin⟩ := List.mem_filter.mp hpair
      have hfolderOf := of_decide_eq_true hin
      exact ⟨⟨pair, hmem, rfl⟩, by simp only [noted, hfolderOf]⟩
    · rintro ⟨⟨pair, hpair, rfl⟩, habove⟩
      refine ⟨pair, List.mem_filter.mpr ⟨hpair, ?_⟩, rfl⟩
      exact decide_eq_true (congrArg Prod.snd habove)
  · intro item hitem
    obtain ⟨pair, hpair, rfl⟩ := List.mem_map.mp hitem
    have hfolder := @Canonical.folder_of_mem U snapshot hcanonical _ [] pair
      (List.append_nil _).symm hpair
    show (seat (folderOf pair.1), folderOf pair.1) = _ ∨ _
    rcases hfolder with hroot | hmem
    · rw [hroot, h.root]
      exact .inl rfl
    · refine .inr ⟨_, List.mem_map.mpr ⟨_, hmem, rfl⟩,
        (openDirectory_noted hcanonical hmem).mpr ⟨rfl, rfl⟩, ?_⟩
      exact folderOf_length (hcanonical.valid hpair)

theorem Planted.walk
    (h : Planted base workspace snapshot snapshot.entries db seat)
    (hcanonical : Canonical U snapshot) (hlinked : base.Linked)
    (hvacant : base.Vacant workspace) :
    ∃ visited, stageWalk db db.walkFuel [(workspace.rootInode, [])] =
        some visited ∧
      visited.Perm (snapshot.entries.map (noted workspace snapshot seat)) := by
  rw [stageWalk_eq]
  apply stackWalk_perm (h.hangs hcanonical hlinked hvacant)
  rw [Db.walkFuel, h.dirents, List.length_append, List.length_map,
    List.length_map]
  omega

end

/-! Staging what the walk noted. -/

/-- The files noted for one inode. -/
def filesAt (visited : List (Text × InodeRow)) (inode : Nat) : List Text :=
  (visited.filter fun pair =>
    decide (pair.2.inode.kind = .file) && decide (pair.2.id = inode)).map
      Prod.fst

theorem get?_pathsByInode (paths : OrdMap Nat (List Text))
    (visited : List (Text × InodeRow)) (inode : Nat) :
    ((pathsByInode paths visited).get? inode).getD [] =
      (paths.get? inode).getD [] ++ filesAt visited inode := by
  induction visited generalizing paths with
  | nil => exact (List.append_nil _).symm
  | cons head rest ih =>
      obtain ⟨path, row⟩ := head
      unfold pathsByInode filesAt
      by_cases hfile : row.inode.kind = .file
      · rw [if_pos hfile, ih, OrdMap.get?_insert]
        by_cases hid : inode = row.id
        · subst hid
          simp [filesAt, hfile]
        · simp [filesAt, hid, Ne.symm hid]
      · rw [if_neg hfile, ih]
        simp [filesAt, hfile]

theorem mem_pathsByInode {visited : List (Text × InodeRow)} {inode : Nat}
    {paths : List Text}
    (h : (inode, paths) ∈ (pathsByInode .empty visited).entries) :
    paths = filesAt visited inode := by
  have hget := get?_pathsByInode .empty visited inode
  rw [OrdMap.get?_eq_some.mpr h] at hget
  exact hget

theorem exists_group {visited : List (Text × InodeRow)} {inode : Nat}
    {path : Text} (h : path ∈ filesAt visited inode) :
    (inode, filesAt visited inode) ∈ (pathsByInode .empty visited).entries := by
  have hget := get?_pathsByInode .empty visited inode
  rw [OrdMap.get?_empty, Option.getD_none, List.nil_append] at hget
  apply OrdMap.get?_eq_some.mp
  cases hfound : (pathsByInode .empty visited).get? inode with
  | none =>
      rw [hfound] at hget
      rw [← hget] at h
      cases h
  | some paths =>
      rw [hfound] at hget
      rw [← hget]
      rfl

/-- Sorting puts the least path first. -/
theorem insertionSort_of_least {paths : List Text} {carrier : Text}
    (hnodup : paths.Nodup) (hmem : carrier ∈ paths)
    (hleast : ∀ path ∈ paths, carrier ≤ path) :
    ∃ links, paths.insertionSort (· ≤ ·) = carrier :: links ∧ links.Nodup ∧
      ∀ path, path ∈ links ↔ path ∈ paths ∧ path ≠ carrier := by
  have hperm := List.perm_insertionSort (· ≤ ·) paths
  have hsorted := List.pairwise_insertionSort (· ≤ ·) paths
  generalize paths.insertionSort (· ≤ ·) = sorted at hperm hsorted ⊢
  cases sorted with
  | nil => exact absurd (hperm.mem_iff.mpr hmem) List.not_mem_nil
  | cons head links =>
      obtain ⟨hbelow, _⟩ := List.pairwise_cons.mp hsorted
      have hhead : head = carrier := by
        apply le_antisymm
        · rcases List.mem_cons.mp (hperm.mem_iff.mpr hmem) with heq | hlink
          · exact heq.ge
          · exact hbelow carrier hlink
        · exact hleast head (hperm.mem_iff.mp List.mem_cons_self)
      subst hhead
      obtain ⟨hfresh, hrest⟩ := List.nodup_cons.mp (hperm.nodup_iff.mpr hnodup)
      refine ⟨links, rfl, hrest, fun path => ?_⟩
      rw [← hperm.mem_iff, List.mem_cons]
      constructor
      · intro hlink
        exact ⟨.inr hlink, fun heq => hfresh (heq ▸ hlink)⟩
      · intro h
        obtain ⟨hpath, hne⟩ := h
        exact hpath.resolve_left hne

/-- The same tree without contract stamps, which no mutation carries. -/
def FileBody.unstamped : FileBody → FileBody
  | .tensor format _ logicalSize records =>
      .tensor format .none logicalSize records
  | .blob logicalSize digest => .blob logicalSize digest

def Entry.unstamped : Entry → Entry
  | .file executable body => .file executable body.unstamped
  | entry => entry

def Snapshot.unstamped (snapshot : Snapshot) : Snapshot :=
  { snapshot with
    entries := snapshot.entries.map fun pair => (pair.1, pair.2.unstamped) }

@[simp] theorem FileBody.plannerId_unstamped (body : FileBody) :
    body.unstamped.plannerId = body.plannerId := by
  cases body <;> rfl

@[simp] theorem FileBody.records_unstamped (body : FileBody) :
    body.unstamped.records = body.records := by
  cases body <;> rfl

@[simp] theorem FileBody.contract_unstamped (body : FileBody) :
    body.unstamped.contract = .none := by
  cases body <;> rfl

@[simp] theorem Entry.isFile_unstamped (entry : Entry) :
    entry.unstamped.isFile = entry.isFile := by
  cases entry <;> rfl

@[simp] theorem Entry.isDirectory_unstamped (entry : Entry) :
    entry.unstamped.isDirectory = entry.isDirectory := by
  cases entry <;> rfl

theorem Snapshot.ordinalPath_unstamped (snapshot : Snapshot) (ordinal : Nat) :
    snapshot.unstamped.ordinalPath ordinal = snapshot.ordinalPath ordinal := by
  unfold ordinalPath unstamped
  rw [List.filter_map, List.getElem?_map, Option.map_map]
  simp only [Function.comp_def, Entry.isFile_unstamped]

/-- The declaration that an entry is staged as. -/
def staged (snapshot : Snapshot) (pair : Text × Entry) : Text × Pending :=
  (pair.1, snapshot.unstamped.pendingOf pair.2.unstamped)

theorem declarations_unstamped (snapshot : Snapshot) :
    snapshot.unstamped.declarations = snapshot.entries.map (staged snapshot) := by
  unfold Snapshot.declarations
  rw [show snapshot.unstamped.entries = snapshot.entries.map
    fun pair => (pair.1, pair.2.unstamped) from rfl, List.map_map]
  rfl

theorem EntryOk.unstamped {assigned : Nat} {entry : Entry}
    (h : EntryOk assigned entry) : EntryOk assigned entry.unstamped := by
  cases entry with
  | file executable body =>
      cases body with
      | tensor format contract logicalSize records => exact h
      | blob logicalSize digest => exact h
  | directory => exact h
  | symlink target => exact h
  | hardlink ordinal => exact h

theorem EntriesOk.unstamped {U : Unicode} {previous : Option Text}
    {assigned : Nat} {entries : List (Text × Entry)}
    (h : EntriesOk U previous assigned entries) :
    EntriesOk U previous assigned
      (entries.map fun pair => (pair.1, pair.2.unstamped)) := by
  induction entries generalizing previous assigned with
  | nil => exact h
  | cons head rest ih =>
      obtain ⟨hpath, horder, hentry, hrest⟩ := h
      refine ⟨hpath, horder, hentry.unstamped, ?_⟩
      rw [Entry.isFile_unstamped]
      exact ih hrest

theorem Canonical.unstamped {U : Unicode} {snapshot : Snapshot}
    (h : Canonical U snapshot) : Canonical U snapshot.unstamped where
  entries := h.entries.unstamped
  tree := by
    refine (validateTree_congr ?_).mp h.tree
    rw [Snapshot.unstamped, List.map_map]
    apply List.map_congr_left
    intro pair _
    simp
  count := by
    rw [Snapshot.unstamped, List.length_map]
    exact h.count

section

variable {U : Unicode} {base db : Db} {workspace : WorkspaceRow}
  {snapshot : Snapshot} {seat : Text → Nat} {visited : List (Text × InodeRow)}

/-- What the walk leaves behind. -/
def Visits (workspace : WorkspaceRow) (snapshot : Snapshot) (seat : Text → Nat)
    (visited : List (Text × InodeRow)) : Prop :=
  visited.Perm (snapshot.entries.map (noted workspace snapshot seat))

theorem Visits.mem (h : Visits workspace snapshot seat visited)
    {item : Text × InodeRow} :
    item ∈ visited ↔
      ∃ pair ∈ snapshot.entries, noted workspace snapshot seat pair = item := by
  rw [List.Perm.mem_iff h, List.mem_map]

theorem Visits.nodup (h : Visits workspace snapshot seat visited)
    (hcanonical : Canonical U snapshot) : (visited.map Prod.fst).Nodup := by
  rw [(List.Perm.map Prod.fst h).nodup_iff, List.map_map]
  exact List.pairwise_map.mpr (hcanonical.sorted.imp ne_of_lt)

theorem Visits.mem_filesAt (h : Visits workspace snapshot seat visited)
    {inode : Nat} {path : Text} :
    path ∈ filesAt visited inode ↔ ∃ pair ∈ snapshot.entries, pair.1 = path ∧
      (snapshot.own pair).2.inode.kind = .file ∧ seat pair.1 = inode := by
  simp only [filesAt, List.mem_map, List.mem_filter, h.mem, Bool.and_eq_true,
    decide_eq_true_eq]
  constructor
  · rintro ⟨item, ⟨⟨pair, hpair, rfl⟩, hkind, hseat⟩, rfl⟩
    exact ⟨pair, hpair, rfl, hkind, hseat⟩
  · rintro ⟨pair, hpair, rfl, hkind, hseat⟩
    exact ⟨_, ⟨⟨pair, hpair, rfl⟩, hkind, hseat⟩, rfl⟩

theorem Visits.filesAt_nodup (h : Visits workspace snapshot seat visited)
    (hcanonical : Canonical U snapshot) (inode : Nat) :
    (filesAt visited inode).Nodup :=
  nodup_filter_keys (h.nodup hcanonical) _

/-- Content is a file exactly when the entry is a file or a link. -/
theorem Canonical.own_file (h : Canonical U snapshot) {pair : Text × Entry}
    (hpair : pair ∈ snapshot.entries)
    (hkind : (snapshot.own pair).2.inode.kind = .file) :
    ∃ carrier executable body,
      snapshot.own pair = (carrier, .file executable body) ∧
        (carrier, Entry.file executable body) ∈ snapshot.entries ∧
          staged snapshot pair = (pair.1, if pair.1 = carrier then
            .file executable body.plannerId .none body.records
          else .hardlinkTo carrier) := by
  obtain ⟨path, entry⟩ := pair
  cases entry with
  | directory => cases hkind
  | symlink target => cases hkind
  | file executable body =>
      refine ⟨path, executable, body, rfl, hpair, ?_⟩
      simp [staged, Entry.unstamped, Snapshot.pendingOf]
  | hardlink ordinal =>
      obtain ⟨carrier, executable, body, hown, hpath, hcarrier, hlt⟩ :=
        h.own_link hpair
      refine ⟨carrier, executable, body, hown, hcarrier, ?_⟩
      simp [staged, Entry.unstamped, Snapshot.pendingOf,
        Snapshot.ordinalPath_unstamped, hpath, ne_of_gt hlt]

/-- The group of one file, with all its names. -/
theorem Visits.group (h : Visits workspace snapshot seat visited)
    (hplanted : Planted base workspace snapshot snapshot.entries db seat)
    (hcanonical : Canonical U snapshot) {carrier : Text} {executable : Bool}
    {body : FileBody}
    (hcarrier : (carrier, Entry.file executable body) ∈ snapshot.entries) :
    (∀ item, item ∈ stageGroup db (seat carrier)
        (filesAt visited (seat carrier)) ↔
      ∃ pair ∈ snapshot.entries,
        snapshot.own pair = (carrier, .file executable body) ∧
          item = staged snapshot pair) ∧
      (stageGroup db (seat carrier)
        (filesAt visited (seat carrier))).Nodup := by
  have hself : snapshot.own (carrier, .file executable body) =
      (carrier, .file executable body) := rfl
  have hnames : ∀ path, path ∈ filesAt visited (seat carrier) ↔
      ∃ pair ∈ snapshot.entries, pair.1 = path ∧
        snapshot.own pair = (carrier, .file executable body) := by
    intro path
    rw [h.mem_filesAt]
    constructor
    · rintro ⟨pair, hpair, hpath, _, hseat⟩
      exact ⟨pair, hpair, hpath,
        (hplanted.shared pair hpair _ hcarrier).mp hseat⟩
    · rintro ⟨pair, hpair, hpath, hown⟩
      exact ⟨pair, hpair, hpath, by rw [hown]; rfl,
        (hplanted.shared pair hpair _ hcarrier).mpr hown⟩
  have hstaged : ∀ pair ∈ snapshot.entries,
      snapshot.own pair = (carrier, .file executable body) →
        staged snapshot pair = (pair.1, if pair.1 = carrier then
          .file executable body.plannerId .none body.records
        else .hardlinkTo carrier) := by
    intro pair hpair hown
    obtain ⟨found, _, _, hfound, _, hstaged⟩ :=
      hcanonical.own_file hpair (by rw [hown]; rfl)
    rw [hown] at hfound
    cases hfound
    exact hstaged
  have hleast : ∀ path ∈ filesAt visited (seat carrier), carrier ≤ path := by
    intro path hpath
    obtain ⟨⟨found, entry⟩, hpair, rfl, hown⟩ := (hnames path).mp hpath
    cases entry with
    | directory => cases hown
    | symlink target => cases hown
    | file executable body =>
        cases hown
        exact le_refl _
    | hardlink ordinal =>
        obtain ⟨other, _, _, hother, _, _, hlt⟩ := hcanonical.own_link hpair
        rw [hown] at hother
        cases hother
        exact le_of_lt hlt
  obtain ⟨links, hsorted, hlinksNodup, hlinks⟩ := insertionSort_of_least
    (h.filesAt_nodup hcanonical (seat carrier))
    ((hnames carrier).mpr ⟨_, hcarrier, rfl, hself⟩) hleast
  have hinode : (db.inode (seat carrier)).map InodeRow.inode =
      some (.file executable body.plannerId .none) := by
    rw [hplanted.found _ hcarrier]
    rfl
  have hgroup : stageGroup db (seat carrier) (filesAt visited (seat carrier)) =
      (carrier, .file executable body.plannerId .none body.records) ::
        links.map fun path => (path, .hardlinkTo carrier) := by
    unfold stageGroup
    rw [hsorted, hinode]
    dsimp only
    rw [hplanted.records _ hcarrier executable body rfl]
  rw [hgroup]
  constructor
  · intro item
    rw [List.mem_cons, List.mem_map]
    constructor
    · rintro (rfl | ⟨path, hpath, rfl⟩)
      · exact ⟨_, hcarrier, hself, by
          rw [hstaged _ hcarrier hself, if_pos rfl]⟩
      · obtain ⟨hmem, hne⟩ := (hlinks path).mp hpath
        obtain ⟨pair, hpair, rfl, hown⟩ := (hnames path).mp hmem
        exact ⟨pair, hpair, hown, by rw [hstaged pair hpair hown, if_neg hne]⟩
    · rintro ⟨pair, hpair, hown, rfl⟩
      rw [hstaged pair hpair hown]
      by_cases hat : pair.1 = carrier
      · exact .inl (by rw [if_pos hat, hat])
      · refine .inr ⟨pair.1, (hlinks pair.1).mpr
          ⟨(hnames pair.1).mpr ⟨pair, hpair, rfl, hown⟩, hat⟩, ?_⟩
        rw [if_neg hat]
  · rw [List.nodup_cons]
    constructor
    · intro hmem
      obtain ⟨path, _, heq⟩ := List.mem_map.mp hmem
      cases heq
    · exact hlinksNodup.map fun left right heq => (Prod.mk.inj heq).1

theorem Visits.group_of (h : Visits workspace snapshot seat visited)
    (hcanonical : Canonical U snapshot) {group : Nat × List Text}
    (hgroup : group ∈ (pathsByInode .empty visited).entries) :
    group.2 = filesAt visited group.1 ∧ (filesAt visited group.1 = [] ∨
      ∃ carrier executable body,
        (carrier, Entry.file executable body) ∈ snapshot.entries ∧
          ∃ pair ∈ snapshot.entries, seat pair.1 = group.1 ∧
            snapshot.own pair = (carrier, .file executable body)) := by
  refine ⟨mem_pathsByInode hgroup, ?_⟩
  cases hpaths : filesAt visited group.1 with
  | nil => exact .inl rfl
  | cons path rest =>
      right
      have hmem : path ∈ filesAt visited group.1 := by
        rw [hpaths]
        exact List.mem_cons_self
      obtain ⟨pair, hpair, _, hkind, hseat⟩ := h.mem_filesAt.mp hmem
      obtain ⟨carrier, executable, body, hown, hcarrier, _⟩ :=
        hcanonical.own_file hpair hkind
      exact ⟨carrier, executable, body, hcarrier, pair, hpair, hseat, hown⟩

theorem Visits.mem_group (h : Visits workspace snapshot seat visited)
    (hplanted : Planted base workspace snapshot snapshot.entries db seat)
    (hcanonical : Canonical U snapshot) {group : Nat × List Text}
    (hgroup : group ∈ (pathsByInode .empty visited).entries) :
    (∀ item ∈ stageGroup db group.1 group.2, ∃ pair ∈ snapshot.entries,
      (snapshot.own pair).2.inode.kind = .file ∧ seat pair.1 = group.1 ∧
        item = staged snapshot pair) ∧
      (stageGroup db group.1 group.2).Nodup := by
  obtain ⟨hpaths, hcases⟩ := h.group_of hcanonical hgroup
  rw [hpaths]
  rcases hcases with hnone | hfile
  · rw [hnone]
    exact ⟨fun _ hitem => absurd hitem List.not_mem_nil, List.nodup_nil⟩
  · obtain ⟨carrier, executable, body, hcarrier, pair, hpair, hseat, hown⟩ :=
      hfile
    have hsame := (hplanted.shared pair hpair _ hcarrier).mpr hown
    obtain ⟨hitems, hnodup⟩ := h.group hplanted hcanonical hcarrier
    rw [← hseat, hsame]
    refine ⟨fun item hitem => ?_, hnodup⟩
    obtain ⟨other, hother, hotherOwn, heq⟩ := (hitems item).mp hitem
    exact ⟨other, hother, by rw [hotherOwn]; rfl,
      (hplanted.shared other hother _ hcarrier).mpr hotherOwn, heq⟩

theorem Visits.mem_groups (h : Visits workspace snapshot seat visited)
    (hplanted : Planted base workspace snapshot snapshot.entries db seat)
    (hcanonical : Canonical U snapshot) {item : Text × Pending} :
    item ∈ (pathsByInode .empty visited).entries.flatMap
        (fun group => stageGroup db group.1 group.2) ↔
      ∃ pair ∈ snapshot.entries, (snapshot.own pair).2.inode.kind = .file ∧
        item = staged snapshot pair := by
  rw [List.mem_flatMap]
  constructor
  · rintro ⟨group, hgroup, hitem⟩
    obtain ⟨pair, hpair, hkind, _, heq⟩ :=
      (h.mem_group hplanted hcanonical hgroup).1 item hitem
    exact ⟨pair, hpair, hkind, heq⟩
  · rintro ⟨pair, hpair, hkind, rfl⟩
    obtain ⟨carrier, executable, body, hown, hcarrier, _⟩ :=
      hcanonical.own_file hpair hkind
    have hsame := (hplanted.shared pair hpair _ hcarrier).mpr hown
    refine ⟨(seat carrier, filesAt visited (seat carrier)), exists_group
      (h.mem_filesAt.mpr ⟨pair, hpair, rfl, hkind, hsame⟩), ?_⟩
    exact ((h.group hplanted hcanonical hcarrier).1 _).mpr
      ⟨pair, hpair, hown, rfl⟩

theorem Visits.mem_directories (h : Visits workspace snapshot seat visited)
    (hcanonical : Canonical U snapshot) {item : Text × Pending} :
    item ∈ visited.filterMap stageDirectory ↔
      ∃ path, (path, Entry.directory) ∈ snapshot.entries ∧
        item = (path, .directory) := by
  simp only [List.mem_filterMap, h.mem]
  constructor
  · rintro ⟨_, ⟨⟨path, entry⟩, hpair, rfl⟩, hstage⟩
    cases entry with
    | directory => exact ⟨path, hpair, (Option.some.inj hstage).symm⟩
    | file executable body => cases hstage
    | symlink target => cases hstage
    | hardlink ordinal =>
        obtain ⟨carrier, executable, body, hown, _⟩ := hcanonical.own_link hpair
        simp [stageDirectory, noted, rowOf, hown, Entry.inode] at hstage
  · rintro ⟨path, hpair, rfl⟩
    exact ⟨_, ⟨_, hpair, rfl⟩, rfl⟩

theorem Visits.mem_symlinks (h : Visits workspace snapshot seat visited)
    (hcanonical : Canonical U snapshot) {item : Text × Pending} :
    item ∈ visited.filterMap stageSymlink ↔
      ∃ path target, (path, Entry.symlink target) ∈ snapshot.entries ∧
        item = (path, .symlink target) := by
  simp only [List.mem_filterMap, h.mem]
  constructor
  · rintro ⟨_, ⟨⟨path, entry⟩, hpair, rfl⟩, hstage⟩
    cases entry with
    | symlink target =>
        exact ⟨path, target, hpair, (Option.some.inj hstage).symm⟩
    | file executable body => cases hstage
    | directory => cases hstage
    | hardlink ordinal =>
        obtain ⟨carrier, executable, body, hown, _⟩ := hcanonical.own_link hpair
        simp [stageSymlink, noted, rowOf, hown, Entry.inode] at hstage
  · rintro ⟨path, target, hpair, rfl⟩
    exact ⟨_, ⟨_, hpair, rfl⟩, rfl⟩

/-- The staged declarations are those of the snapshot. -/
theorem Visits.mem_stagePending (h : Visits workspace snapshot seat visited)
    (hplanted : Planted base workspace snapshot snapshot.entries db seat)
    (hcanonical : Canonical U snapshot) {item : Text × Pending} :
    item ∈ stagePending db visited ↔ item ∈ snapshot.unstamped.declarations := by
  rw [declarations_unstamped, stagePending, List.mem_append, List.mem_append,
    h.mem_directories hcanonical, h.mem_symlinks hcanonical,
    h.mem_groups hplanted hcanonical, List.mem_map]
  constructor
  · rintro ((⟨path, hpair, rfl⟩ | ⟨path, target, hpair, rfl⟩) |
      ⟨pair, hpair, _, rfl⟩)
    · exact ⟨_, hpair, rfl⟩
    · exact ⟨_, hpair, rfl⟩
    · exact ⟨pair, hpair, rfl⟩
  · rintro ⟨⟨path, entry⟩, hpair, rfl⟩
    cases entry with
    | directory => exact .inl (.inl ⟨path, hpair, rfl⟩)
    | symlink target => exact .inl (.inr ⟨path, target, hpair, rfl⟩)
    | file executable body => exact .inr ⟨_, hpair, rfl, rfl⟩
    | hardlink ordinal =>
        obtain ⟨carrier, executable, body, hown, _⟩ := hcanonical.own_link hpair
        exact .inr ⟨_, hpair, by rw [hown]; rfl, rfl⟩

theorem keys_filterMap_sublist {f : Text × InodeRow → Option (Text × Pending)}
    (hf : ∀ pair item, f pair = some item → item.1 = pair.1)
    (visited : List (Text × InodeRow)) :
    ((visited.filterMap f).map Prod.fst).Sublist (visited.map Prod.fst) := by
  induction visited with
  | nil => exact .slnil
  | cons pair rest ih =>
      cases hstage : f pair with
      | none =>
          rw [List.filterMap_cons_none hstage]
          exact ih.cons _
      | some item =>
          rw [List.filterMap_cons_some hstage, List.map_cons, List.map_cons,
            hf pair item hstage]
          exact ih.cons_cons _

theorem Visits.groups_nodup (h : Visits workspace snapshot seat visited)
    (hplanted : Planted base workspace snapshot snapshot.entries db seat)
    (hcanonical : Canonical U snapshot) :
    ((pathsByInode .empty visited).entries.flatMap
      fun group => stageGroup db group.1 group.2).Nodup := by
  rw [List.nodup_flatMap]
  constructor
  · intro group hgroup
    exact (h.mem_group hplanted hcanonical hgroup).2
  · apply (pathsByInode .empty visited).sorted.imp_of_mem
    intro left right hleft hright hlt item hitem hitem'
    obtain ⟨pair, hpair, _, hseat, hstaged⟩ :=
      (h.mem_group hplanted hcanonical hleft).1 item hitem
    obtain ⟨other, hother, _, hseat', hstaged'⟩ :=
      (h.mem_group hplanted hcanonical hright).1 item hitem'
    have hsame := hcanonical.path_inj hpair hother
      (Prod.mk.inj (hstaged.symm.trans hstaged')).1
    rw [← hseat, ← hseat', hsame] at hlt
    exact lt_irrefl _ hlt

theorem Visits.stagePending_nodup (h : Visits workspace snapshot seat visited)
    (hplanted : Planted base workspace snapshot snapshot.entries db seat)
    (hcanonical : Canonical U snapshot) : (stagePending db visited).Nodup := by
  have hkeys := h.nodup hcanonical
  have hpart : ∀ f : Text × InodeRow → Option (Text × Pending),
      (∀ pair item, f pair = some item → item.1 = pair.1) →
        (visited.filterMap f).Nodup := fun f hf =>
    List.Nodup.of_map _ (hkeys.sublist (keys_filterMap_sublist hf visited))
  have hdirectories : (visited.filterMap stageDirectory).Nodup := by
    apply hpart
    intro pair item hstage
    unfold stageDirectory at hstage
    split at hstage
    · exact (congrArg Prod.fst (Option.some.inj hstage)).symm
    · cases hstage
  have hsymlinks : (visited.filterMap stageSymlink).Nodup := by
    apply hpart
    intro pair item hstage
    unfold stageSymlink at hstage
    split at hstage
    · exact (congrArg Prod.fst (Option.some.inj hstage)).symm
    · cases hstage
  have hfile : ∀ pair ∈ snapshot.entries,
      (snapshot.own pair).2.inode.kind = .file →
        (staged snapshot pair).2 ≠ .directory ∧
          ∀ target, (staged snapshot pair).2 ≠ .symlink target := by
    intro pair hpair hkind
    obtain ⟨_, _, _, _, _, hstaged⟩ := hcanonical.own_file hpair hkind
    rw [hstaged]
    dsimp only
    split
    · exact ⟨nofun, fun _ => nofun⟩
    · exact ⟨nofun, fun _ => nofun⟩
  rw [stagePending, List.nodup_append, List.nodup_append]
  refine ⟨⟨hdirectories, hsymlinks, ?_⟩, h.groups_nodup hplanted hcanonical, ?_⟩
  · intro left hleft right hright heq
    obtain ⟨_, _, rfl⟩ := (h.mem_directories hcanonical).mp hleft
    obtain ⟨_, _, _, rfl⟩ := (h.mem_symlinks hcanonical).mp hright
    cases heq
  · intro left hleft right hright heq
    obtain ⟨pair, hpair, hkind, rfl⟩ :=
      (h.mem_groups hplanted hcanonical).mp hright
    obtain ⟨hdirectory, hsymlink⟩ := hfile pair hpair hkind
    rcases List.mem_append.mp hleft with hleft | hleft
    · obtain ⟨_, _, rfl⟩ := (h.mem_directories hcanonical).mp hleft
      exact hdirectory (congrArg Prod.snd heq).symm
    · obtain ⟨_, target, _, rfl⟩ := (h.mem_symlinks hcanonical).mp hleft
      exact hsymlink target (congrArg Prod.snd heq).symm

theorem Visits.perm (h : Visits workspace snapshot seat visited)
    (hplanted : Planted base workspace snapshot snapshot.entries db seat)
    (hcanonical : Canonical U snapshot) :
    (stagePending db visited).Perm snapshot.unstamped.declarations := by
  rw [List.perm_ext_iff_of_nodup (h.stagePending_nodup hplanted hcanonical)]
  · exact fun item => h.mem_stagePending hplanted hcanonical
  · exact List.Nodup.of_map Prod.fst (List.pairwise_map.mpr
      (hcanonical.unstamped.declarations_sorted.imp ne_of_lt))

/-- An entry of the snapshot, as the head shows it. -/
def Entry.shown : Entry → TreeEntry
  | .directory => .directory
  | .file executable body =>
      .file executable body.plannerId .none body.records
  | .symlink target => .symlink target
  | .hardlink ordinal => .hardlink ordinal

/-- The tree of the snapshot, as the head shows it. -/
def Snapshot.shown (snapshot : Snapshot) : HeadTree :=
  ⟨snapshot.entries.map fun pair => (pair.1, pair.2.shown)⟩

theorem Canonical.resolve_unstamped (hcanonical : Canonical U snapshot)
    {pending : List (Text × Pending)}
    (hperm : pending.Perm snapshot.unstamped.declarations) :
    (⟨none, pending⟩ : SnapshotBuilder).finishTree U = .ok snapshot.shown := by
  have hother := hcanonical.unstamped
  obtain ⟨entries, hcollect, hentries⟩ := hother.collect_declarations
  have hcollect' := collectPending_perm hperm hcollect
  have hmap : (entries.entries.map fun pair =>
      (pair.1, treeEntryOf entries.entries pair.2)) =
        snapshot.shown.entries := by
    rw [hentries]
    conv_lhs => arg 2; rw [declarations_unstamped]
    rw [List.map_map, Snapshot.shown]
    apply List.map_congr_left
    intro pair hpair
    obtain ⟨path, entry⟩ := pair
    cases entry with
    | directory => rfl
    | symlink target => rfl
    | file executable body =>
        simp [staged, Entry.unstamped, Snapshot.pendingOf, treeEntryOf,
          Entry.shown]
    | hardlink ordinal =>
        have hlink : (path, Entry.hardlink ordinal) ∈
            snapshot.unstamped.entries :=
          List.mem_map.mpr ⟨_, hpair, rfl⟩
        simp [staged, Entry.unstamped, Snapshot.pendingOf, treeEntryOf,
          Entry.shown, hother.ordinalOf_declarations hlink]
  have htree : validateTree U TreeEntry.isDirectory snapshot.shown.entries =
      .ok () := by
    refine (validateTree_congr ?_).mp hcanonical.tree
    rw [Snapshot.shown, List.map_map]
    apply List.map_congr_left
    rintro ⟨path, entry⟩ _
    cases entry <;> rfl
  have hresolve := @SnapshotBuilder.resolve_rooted U ⟨none, pending⟩ entries
    hcollect' (by rw [hentries]; exact hother.rooted)
    (by rw [hmap]; exact htree)
  rw [SnapshotBuilder.finishTree, hresolve, except_ok_bind, hmap]

/-- The head of the replayed workspace is the snapshot's tree. -/
theorem Planted.buildTree
    (h : Planted base workspace snapshot snapshot.entries db seat)
    (hcanonical : Canonical U snapshot) (hlinked : base.Linked)
    (hvacant : base.Vacant workspace) :
    buildTree U db workspace = .ok snapshot.shown := by
  obtain ⟨visited, hwalk, hvisits⟩ := h.walk hcanonical hlinked hvacant
  have hperm := Visits.perm hvisits h hcanonical
  have hcount : (stagePending db visited).length < 2 ^ 64 := by
    rw [hperm.length_eq, declarations_unstamped, List.length_map]
    exact hcanonical.count
  rw [TensorFS.buildTree, stageBuilder_eq_ok.mpr ⟨visited, hwalk, hcount, rfl⟩,
    except_ok_bind, checked_eq_ok]
  exact hcanonical.resolve_unstamped hperm

end

end TensorFS
