import TensorFS.Workspace.Linked

namespace TensorFS

open Data

/-! A snapshot's tree, replayed into an empty workspace. -/

/-- A workspace as it was created: a root, and nothing in it. -/
structure Db.Vacant (db : Db) (workspace : WorkspaceRow) : Prop where
  owner : ∃ row ∈ db.workspaces, row.id = workspace.id
  root : ∃ row ∈ db.inodes, row.id = workspace.rootInode
  empty : ∀ dirent ∈ db.dirents, dirent.parent ≠ workspace.rootInode

def Snapshot.fileAt (snapshot : Snapshot) (ordinal : Nat) :
    Option (Text × Entry) :=
  (snapshot.entries.filter fun pair => pair.2.isFile)[ordinal]?

/-- Where the content of an entry is kept: a link's at its carrier. -/
def Snapshot.own (snapshot : Snapshot) (pair : Text × Entry) : Text × Entry :=
  match pair.2 with
  | .hardlink ordinal => (snapshot.fileAt ordinal).getD pair
  | _ => pair

/-- The inode row of an entry that is no link. -/
def Entry.inode : Entry → Inode
  | .directory => .directory
  | .file executable body => .file executable body.plannerId .none
  | .symlink target => .symlink target
  | .hardlink _ => .directory

def leafOf (path : Text) : Text := (splitParent path).2

def folderOf (path : Text) : Text := (parentOf path).getD []

/-! Paths. -/

theorem splitParent_eq (path : Text) :
    splitParent path = (parentOf path, leafOf path) := by
  unfold leafOf splitParent parentOf
  cases rsplitOnce '/' path with
  | none => rfl
  | some parts => rfl

theorem parentOf_ne_nil {U : Unicode} {path parent : Text}
    (h : validatePath U path = .ok ()) (hparent : parentOf path = some parent) :
    parent ≠ [] := by
  obtain ⟨base, _, hcases⟩ := splitParent_valid h
  rw [splitParent_eq] at hcases
  rcases hcases with ⟨hnone, _⟩ | ⟨found, hsome, hne, _⟩
  · rw [hparent] at hnone
    cases hnone
  · rw [hparent] at hsome
    cases hsome
    exact hne

theorem segmentsOf_snoc {U : Unicode} {path : Text}
    (h : validatePath U path = .ok ()) :
    segmentsOf path = segmentsOf (folderOf path) ++ [leafOf path] := by
  obtain ⟨base, hsegments, hcases⟩ := splitParent_valid h
  rw [splitParent_eq] at hsegments hcases
  unfold folderOf
  rcases hcases with ⟨hnone, rfl⟩ | ⟨parent, hsome, _, rfl⟩
  · dsimp only at hnone
    rw [hsegments, hnone]
    rfl
  · dsimp only at hsome
    rw [hsegments, hsome, Option.getD_some]

theorem childPath_folderOf {U : Unicode} {path : Text}
    (h : validatePath U path = .ok ()) :
    childPath (folderOf path) (leafOf path) = path := by
  cases hsplit : rsplitOnce '/' path with
  | none =>
      simp [folderOf, leafOf, parentOf, splitParent, hsplit, childPath]
  | some parts =>
      obtain ⟨parent, name⟩ := parts
      have hparent : parentOf path = some parent := by
        rw [parentOf, hsplit]
        rfl
      have hne := parentOf_ne_nil h hparent
      have hpath := (rsplitOnce_sound hsplit).1
      simp only [folderOf, leafOf, parentOf, splitParent, hsplit, childPath,
        Option.map_some, Option.getD_some, if_neg hne]
      exact hpath.symm

theorem folderOf_length {U : Unicode} {path : Text}
    (h : validatePath U path = .ok ()) : (folderOf path).length < path.length := by
  unfold folderOf
  cases hparent : parentOf path with
  | none => exact List.length_pos_iff.mpr (validatePath_segments h).1
  | some parent =>
      obtain ⟨⟨front, name⟩, hparts, rfl⟩ := Option.map_eq_some_iff.mp hparent
      rw [(rsplitOnce_sound hparts).1, Option.getD_some, List.length_append,
        List.length_cons]
      exact Nat.lt_add_of_pos_right (Nat.succ_pos _)

theorem lt_append_cons (front : Text) (c : Char) (back : Text) :
    front < front ++ c :: back := by
  induction front with
  | nil => exact List.Lex.nil
  | cons head front ih => exact List.Lex.cons ih

theorem parentOf_lt {path parent : Text} (h : parentOf path = some parent) :
    parent < path := by
  obtain ⟨⟨front, name⟩, hsplit, rfl⟩ := Option.map_eq_some_iff.mp h
  rw [(rsplitOnce_sound hsplit).1]
  exact lt_append_cons front '/' name

/-! The entries of a canonical snapshot. -/

section

variable {U : Unicode} {snapshot : Snapshot}

theorem Canonical.own_link (h : Canonical U snapshot) {path : Text}
    {ordinal : Nat} (hlink : (path, Entry.hardlink ordinal) ∈ snapshot.entries) :
    ∃ carrier executable body,
      snapshot.own (path, .hardlink ordinal) = (carrier, .file executable body) ∧
        snapshot.ordinalPath ordinal = some carrier ∧
          (carrier, Entry.file executable body) ∈ snapshot.entries ∧
            carrier < path := by
  obtain ⟨carrier, executable, body, before, rest, hpath, hlt, hsplit,
    hcount⟩ := h.carrier hlink
  refine ⟨carrier, executable, body, ?_, hpath, by rw [hsplit]; simp, hlt⟩
  have hat : snapshot.fileAt ordinal =
      some (carrier, .file executable body) := by
    rw [Snapshot.fileAt, hsplit, List.filter_append,
      List.getElem?_append_right (by rw [hcount]), hcount, Nat.sub_self]
    rfl
  simp only [Snapshot.own, hat, Option.getD_some]

theorem own_of_ne {pair : Text × Entry}
    (h : ∀ ordinal, pair.2 ≠ .hardlink ordinal) : snapshot.own pair = pair := by
  unfold Snapshot.own
  split
  · rename_i ordinal heq
    exact absurd heq (h ordinal)
  · rfl

theorem Canonical.path_inj (h : Canonical U snapshot) {left right : Text × Entry}
    (hleft : left ∈ snapshot.entries) (hright : right ∈ snapshot.entries)
    (hpath : left.1 = right.1) : left = right := by
  have hnodup : (snapshot.entries.map Prod.fst).Nodup :=
    List.pairwise_map.mpr (h.sorted.imp ne_of_lt)
  exact eq_of_key hnodup hleft hright hpath

/-- What sorts before an entry stands before it. -/
theorem Canonical.mem_before (h : Canonical U snapshot)
    {before rest : List (Text × Entry)} {pair other : Text × Entry}
    (hsplit : snapshot.entries = before ++ pair :: rest)
    (hother : other ∈ snapshot.entries) (hlt : other.1 < pair.1) :
    other ∈ before := by
  have hsorted := h.sorted
  rw [hsplit] at hother hsorted
  obtain ⟨_, hright, _⟩ := List.pairwise_append.mp hsorted
  rcases List.mem_append.mp hother with hmem | hmem
  · exact hmem
  · rcases List.mem_cons.mp hmem with rfl | hmem
    · exact absurd hlt (lt_irrefl _)
    · exact absurd hlt
        (not_lt_of_gt ((List.pairwise_cons.mp hright).1 other hmem))

theorem Canonical.lt_of_before (h : Canonical U snapshot)
    {before rest : List (Text × Entry)} {pair other : Text × Entry}
    (hsplit : snapshot.entries = before ++ pair :: rest)
    (hother : other ∈ before) : other.1 < pair.1 := by
  have hsorted := h.sorted
  rw [hsplit] at hsorted
  exact (List.pairwise_append.mp hsorted).2.2 other hother pair
    List.mem_cons_self

theorem Canonical.parent (h : Canonical U snapshot) {pair : Text × Entry}
    (hpair : pair ∈ snapshot.entries) {parent : Text}
    (hparent : parentOf pair.1 = some parent) :
    (parent, Entry.directory) ∈ snapshot.entries := by
  obtain ⟨entry, hentry, hdirectory⟩ :=
    (validateTree_eq_ok.mp h.tree).2 pair hpair parent hparent
  cases entry with
  | directory => exact hentry
  | file executable body => cases hdirectory
  | symlink target => cases hdirectory
  | hardlink ordinal => cases hdirectory

/-- The root, or a directory among the entries. -/
def IsFolder (before : List (Text × Entry)) (folder : Text) : Prop :=
  folder = [] ∨ (folder, Entry.directory) ∈ before

theorem Canonical.folder (h : Canonical U snapshot)
    {before rest : List (Text × Entry)} {pair : Text × Entry}
    (hsplit : snapshot.entries = before ++ pair :: rest) :
    IsFolder before (folderOf pair.1) := by
  have hpair : pair ∈ snapshot.entries := by
    rw [hsplit]
    simp
  unfold IsFolder folderOf
  cases hparent : parentOf pair.1 with
  | none => exact .inl rfl
  | some parent =>
      exact .inr (h.mem_before hsplit (h.parent hpair hparent)
        (parentOf_lt hparent))

theorem Canonical.folder_of_mem (h : Canonical U snapshot)
    {before rest : List (Text × Entry)} {pair : Text × Entry}
    (hsplit : snapshot.entries = before ++ rest) (hpair : pair ∈ before) :
    IsFolder before (folderOf pair.1) := by
  obtain ⟨front, back, rfl⟩ := List.append_of_mem hpair
  have hfolder := @Canonical.folder U snapshot h front (back ++ rest) pair
    (by rw [hsplit, List.append_assoc, List.cons_append])
  exact hfolder.imp_right fun hmem => List.mem_append_left _ hmem

theorem Canonical.valid (h : Canonical U snapshot) {pair : Text × Entry}
    (hpair : pair ∈ snapshot.entries) : validatePath U pair.1 = .ok () :=
  (h.entryOk hpair).1

/-- The content of an entry is at most as far as the entry. -/
theorem Canonical.own_mem (h : Canonical U snapshot)
    {before rest : List (Text × Entry)} {pair : Text × Entry}
    (hsplit : snapshot.entries = before ++ rest) (hpair : pair ∈ before) :
    snapshot.own pair ∈ before ∧
      snapshot.own (snapshot.own pair) = snapshot.own pair := by
  obtain ⟨path, entry⟩ := pair
  cases entry with
  | directory => exact ⟨hpair, rfl⟩
  | file executable body => exact ⟨hpair, rfl⟩
  | symlink target => exact ⟨hpair, rfl⟩
  | hardlink ordinal =>
      have hentries : (path, Entry.hardlink ordinal) ∈ snapshot.entries := by
        rw [hsplit]
        exact List.mem_append_left _ hpair
      obtain ⟨carrier, executable, body, hown, _, hcarrier, hlt⟩ :=
        h.own_link hentries
      rw [hown]
      obtain ⟨front, back, rfl⟩ := List.append_of_mem hpair
      refine ⟨List.mem_append_left _ ?_, rfl⟩
      exact h.mem_before (by rw [hsplit, List.append_assoc, List.cons_append])
        hcarrier hlt

end

/-! The tables while the entries are replayed. -/

def direntOf (seat : Text → Nat) (path : Text) : Dirent :=
  ⟨seat (folderOf path), leafOf path, seat path⟩

/-- The entries `before` have been replayed over `base`; `seat` is the inode of
each path. -/
structure Planted (base : Db) (workspace : WorkspaceRow) (snapshot : Snapshot)
    (before : List (Text × Entry)) (db : Db) (seat : Text → Nat) : Prop where
  workspaces : db.workspaces = base.workspaces
  inodes : ∃ extra, db.inodes = base.inodes ++ extra
  root : seat [] = workspace.rootInode
  dirents : db.dirents =
    base.dirents ++ before.map fun pair => direntOf seat pair.1
  found : ∀ pair ∈ before, db.inode (seat pair.1) =
    some ⟨seat pair.1, workspace.id, (snapshot.own pair).2.inode⟩
  records : ∀ pair ∈ before, ∀ executable body,
    (snapshot.own pair).2 = .file executable body →
      db.readRecords (seat pair.1) = body.records
  fresh : ∀ pair ∈ before, ∀ row ∈ base.inodes, row.id < seat pair.1
  shared : ∀ left ∈ before, ∀ right ∈ before,
    seat left.1 = seat right.1 ↔ snapshot.own left = snapshot.own right

theorem findRow_of_unique {ρ κ : Type} [DecidableEq κ] {key : ρ → κ}
    {rows : List ρ} {row : ρ} (hrow : row ∈ rows)
    (hunique : ∀ other ∈ rows, key other = key row → other = row) :
    findRow key rows (key row) = some row := by
  cases hfound : findRow key rows (key row) with
  | none => exact absurd rfl (findRow_eq_none.mp hfound row hrow)
  | some other =>
      obtain ⟨hmem, hkey⟩ := findRow_mem hfound
      rw [hunique other hmem hkey]

section

variable {U : Unicode} {base db : Db} {workspace : WorkspaceRow}
  {snapshot : Snapshot} {before rest : List (Text × Entry)} {seat : Text → Nat}

theorem Planted.start (base : Db) (workspace : WorkspaceRow)
    (snapshot : Snapshot) :
    Planted base workspace snapshot [] base fun _ => workspace.rootInode where
  workspaces := rfl
  inodes := ⟨[], (List.append_nil _).symm⟩
  root := rfl
  dirents := (List.append_nil _).symm
  found _ h := absurd h List.not_mem_nil
  records _ h := absurd h List.not_mem_nil
  fresh _ h := absurd h List.not_mem_nil
  shared _ h := absurd h List.not_mem_nil

/-- Two folders have two seats. -/
theorem Planted.seat_folder (h : Planted base workspace snapshot before db seat)
    (hvacant : base.Vacant workspace) {left right : Text}
    (hleft : IsFolder before left) (hright : IsFolder before right)
    (hseat : seat left = seat right) : left = right := by
  obtain ⟨row, hrow, hid⟩ := hvacant.root
  have hroot : ∀ folder, (folder, Entry.directory) ∈ before →
      seat folder ≠ seat [] := by
    intro folder hfolder heq
    have hlt := h.fresh _ hfolder row hrow
    rw [hid, ← h.root, ← heq] at hlt
    exact lt_irrefl _ hlt
  rcases hleft with rfl | hleft
  · rcases hright with rfl | hright
    · rfl
    · exact absurd hseat.symm (hroot right hright)
  · rcases hright with rfl | hright
    · exact absurd hseat (hroot left hleft)
    · have hown := (h.shared _ hleft _ hright).mp hseat
      rw [own_of_ne (fun _ => Entry.noConfusion),
        own_of_ne (fun _ => Entry.noConfusion)] at hown
      exact congrArg Prod.fst hown

/-- The old dirents lie outside the folders of the workspace. -/
theorem Planted.base_parent
    (h : Planted base workspace snapshot before db seat)
    (hlinked : base.Linked) (hvacant : base.Vacant workspace) {folder : Text}
    (hfolder : IsFolder before folder) {dirent : Dirent}
    (hdirent : dirent ∈ base.dirents) : dirent.parent ≠ seat folder := by
  rcases hfolder with rfl | hfolder
  · rw [h.root]
    exact hvacant.empty dirent hdirent
  · obtain ⟨⟨row, hrow, hid⟩, _⟩ := hlinked dirent hdirent
    have hlt := h.fresh _ hfolder row hrow
    rw [hid] at hlt
    exact ne_of_lt hlt

/-- A dirent in a folder of the workspace belongs to an entry there. -/
theorem Planted.mem_folder (h : Planted base workspace snapshot before db seat)
    (hcanonical : Canonical U snapshot)
    (hsplit : snapshot.entries = before ++ rest)
    (hlinked : base.Linked) (hvacant : base.Vacant workspace) {folder : Text}
    (hfolder : IsFolder before folder) {dirent : Dirent}
    (hdirent : dirent ∈ db.dirents) (hparent : dirent.parent = seat folder) :
    ∃ pair ∈ before, dirent = direntOf seat pair.1 ∧
      folderOf pair.1 = folder := by
  rw [h.dirents] at hdirent
  rcases List.mem_append.mp hdirent with hold | hnew
  · exact absurd hparent (h.base_parent hlinked hvacant hfolder hold)
  · obtain ⟨pair, hpair, rfl⟩ := List.mem_map.mp hnew
    refine ⟨pair, hpair, rfl, ?_⟩
    exact h.seat_folder hvacant (hcanonical.folder_of_mem hsplit hpair) hfolder
      hparent

theorem Planted.dirent (h : Planted base workspace snapshot before db seat)
    (hcanonical : Canonical U snapshot)
    (hsplit : snapshot.entries = before ++ rest)
    (hlinked : base.Linked) (hvacant : base.Vacant workspace)
    {pair : Text × Entry} (hpair : pair ∈ before) :
    db.dirent (seat (folderOf pair.1)) (leafOf pair.1) =
      some (direntOf seat pair.1) := by
  have hmem : direntOf seat pair.1 ∈ db.dirents := by
    rw [h.dirents]
    exact List.mem_append_right _ (List.mem_map.mpr ⟨pair, hpair, rfl⟩)
  have hvalid : ∀ other ∈ before, validatePath U other.1 = .ok () := by
    intro other hother
    apply hcanonical.valid
    rw [hsplit]
    exact List.mem_append_left _ hother
  apply findRow_of_unique hmem
  intro dirent hdirent hkey
  obtain ⟨hparent, hname⟩ := Prod.mk.inj hkey
  obtain ⟨other, hother, rfl, hfolder⟩ := h.mem_folder hcanonical hsplit hlinked
    hvacant (hcanonical.folder_of_mem hsplit hpair) hdirent hparent
  have hpath : other.1 = pair.1 := by
    have hleaf : leafOf other.1 = leafOf pair.1 := hname
    rw [← childPath_folderOf (hvalid other hother), hfolder, hleaf,
      childPath_folderOf (hvalid pair hpair)]
  rw [hpath]

theorem Planted.child (h : Planted base workspace snapshot before db seat)
    (hcanonical : Canonical U snapshot)
    (hsplit : snapshot.entries = before ++ rest)
    (hlinked : base.Linked) (hvacant : base.Vacant workspace)
    {pair : Text × Entry} (hpair : pair ∈ before) :
    db.child (seat (folderOf pair.1)) (leafOf pair.1) =
      some ⟨seat pair.1, workspace.id, (snapshot.own pair).2.inode⟩ := by
  rw [Db.child, h.dirent hcanonical hsplit hlinked hvacant hpair]
  exact h.found pair hpair

/-- Every replayed path resolves. -/
theorem Planted.resolve (h : Planted base workspace snapshot before db seat)
    (hcanonical : Canonical U snapshot)
    (hsplit : snapshot.entries = before ++ rest)
    (hlinked : base.Linked) (hvacant : base.Vacant workspace)
    {pair : Text × Entry} (hpair : pair ∈ before) :
    resolveSegments db workspace.resolvedRoot (segmentsOf pair.1) =
      some ⟨seat pair.1, (snapshot.own pair).2.inode.kind⟩ := by
  induction hlength : pair.1.length using Nat.strong_induction_on
    generalizing pair with
  | _ length ih =>
      have hentries : pair ∈ snapshot.entries := by
        rw [hsplit]
        exact List.mem_append_left _ hpair
      rw [segmentsOf_snoc (hcanonical.valid hentries), resolveSegments_snoc]
      refine ⟨seat (folderOf pair.1), _, ?_,
        h.child hcanonical hsplit hlinked hvacant hpair, rfl⟩
      have hfolder := hcanonical.folder_of_mem hsplit hpair
      generalize hat : folderOf pair.1 = folder at hfolder
      rcases hfolder with rfl | hfolder
      · rw [h.root]
        rfl
      · have hshorter := folderOf_length (hcanonical.valid hentries)
        rw [hat, hlength] at hshorter
        exact ih folder.length hshorter hfolder rfl

/-- The next entry finds its place free. -/
theorem Planted.place (h : Planted base workspace snapshot before db seat)
    (hcanonical : Canonical U snapshot) {pair : Text × Entry}
    (hsplit : snapshot.entries = before ++ pair :: rest)
    (hlinked : base.Linked) (hvacant : base.Vacant workspace) :
    resolveNewLeaf U db workspace pair.1 =
      .ok (seat (folderOf pair.1), leafOf pair.1) := by
  have hentries : pair ∈ snapshot.entries := by
    rw [hsplit]
    simp
  have hvalid := hcanonical.valid hentries
  have hfolder := hcanonical.folder hsplit
  have hbefore : ∀ other ∈ before, other ∈ snapshot.entries := by
    intro other hother
    rw [hsplit]
    exact List.mem_append_left _ hother
  have hparent : resolveNewParent U db workspace (parentOf pair.1) =
      .ok (seat (folderOf pair.1)) := by
    unfold folderOf at hfolder ⊢
    cases hparent : parentOf pair.1 with
    | none =>
        rw [Option.getD_none, h.root]
        rfl
    | some parent =>
        rw [hparent] at hfolder
        have hmem : (parent, Entry.directory) ∈ before :=
          hfolder.resolve_left (parentOf_ne_nil hvalid hparent)
        have hresolved := resolveExisting_eq_ok.mpr
          ⟨.inr (hcanonical.valid (hbefore _ hmem)),
            h.resolve hcanonical hsplit hlinked hvacant hmem⟩
        rw [resolveNewParent, Option.getD_some, hresolved, except_ok_bind]
        rfl
  have hlook : ∀ dirent ∈ db.dirents,
      dirent.parent = seat (folderOf pair.1) → ∃ other ∈ before,
        dirent = direntOf seat other.1 ∧ folderOf other.1 = folderOf pair.1 :=
    fun dirent hdirent hat => h.mem_folder hcanonical hsplit hlinked hvacant
      hfolder hdirent hat
  have hfold : ∀ other ∈ before, folderOf other.1 = folderOf pair.1 →
      caseFold U (leafOf other.1) ≠ caseFold U (leafOf pair.1) := by
    intro other hother hsame hleaf
    have hfolded : caseFold U other.1 = caseFold U pair.1 := by
      rw [← childPath_folderOf (hcanonical.valid (hbefore other hother)),
        ← childPath_folderOf hvalid, hsame]
      unfold childPath
      split
      · exact hleaf
      · unfold caseFold at hleaf ⊢
        rw [List.flatMap_append, List.flatMap_append, List.flatMap_cons,
          List.flatMap_cons, hleaf]
    have heq := eq_of_key (validateTree_eq_ok.mp hcanonical.tree).1
      (hbefore other hother) hentries hfolded
    have hlt := hcanonical.lt_of_before hsplit hother
    rw [heq] at hlt
    exact lt_irrefl _ hlt
  rw [resolveNewLeaf, splitParent_eq]
  simp only [except_bind_eq_ok, exists_unit, checked_eq_ok, require_eq_ok]
  refine ⟨hvalid, _, hparent, ?_, ?_, rfl⟩
  · rw [Db.dirent, findRow_eq_none]
    intro dirent hdirent hkey
    obtain ⟨hat, hname⟩ := Prod.mk.inj hkey
    obtain ⟨other, hother, rfl, hsame⟩ := hlook dirent hdirent hat
    exact hfold other hother hsame (congrArg (caseFold U) hname)
  · intro sibling hsibling
    obtain ⟨dirent, hdirent, rfl⟩ := List.mem_map.mp hsibling
    obtain ⟨hdirent, hat⟩ := List.mem_filter.mp hdirent
    obtain ⟨other, hother, rfl, hsame⟩ :=
      hlook dirent hdirent (of_decide_eq_true hat)
    exact hfold other hother hsame

/-- One more path, seated at `id`. -/
def seatAt (seat : Text → Nat) (path : Text) (id : Nat) (other : Text) : Nat :=
  if other = path then id else seat other

/-- What replaying one entry has to leave for the next. -/
structure Grows (db db' : Db) (workspace : WorkspaceRow) (snapshot : Snapshot)
    (before : List (Text × Entry)) (seat : Text → Nat) (pair : Text × Entry)
    (id : Nat) : Prop where
  workspaces : db'.workspaces = db.workspaces
  inodes : ∃ extra, db'.inodes = db.inodes ++ extra
  dirents : db'.dirents =
    db.dirents ++ [⟨seat (folderOf pair.1), leafOf pair.1, id⟩]
  found : db'.inode id = some ⟨id, workspace.id, (snapshot.own pair).2.inode⟩
  records : ∀ executable body, (snapshot.own pair).2 = .file executable body →
    db'.readRecords id = body.records
  kept : ∀ other ∈ before,
    db'.readRecords (seat other.1) = db.readRecords (seat other.1)
  shared : ∀ other ∈ before,
    seat other.1 = id ↔ snapshot.own other = snapshot.own pair

theorem Db.inode_append {row : InodeRow} {id : Nat} {extra : List InodeRow}
    (hinodes : db.inodes = base.inodes ++ extra)
    (h : base.inode id = some row) : db.inode id = some row := by
  rw [Db.inode, findRow, hinodes, List.find?_append]
  rw [Db.inode, findRow] at h
  rw [h, Option.some_or]

theorem Planted.grow (h : Planted base workspace snapshot before db seat)
    (hcanonical : Canonical U snapshot) {pair : Text × Entry}
    (hsplit : snapshot.entries = before ++ pair :: rest) {db' : Db} {id : Nat}
    (hgrows : Grows db db' workspace snapshot before seat pair id)
    (hid : ∀ row ∈ base.inodes, row.id < id) :
    Planted base workspace snapshot (before ++ [pair]) db'
      (seatAt seat pair.1 id) := by
  have hentries : pair ∈ snapshot.entries := by
    rw [hsplit]
    simp
  have hnew : seatAt seat pair.1 id pair.1 = id := if_pos rfl
  have hold : ∀ other ∈ before, seatAt seat pair.1 id other.1 = seat other.1 :=
    fun other hother => if_neg (ne_of_lt (hcanonical.lt_of_before hsplit hother))
  have hfolder : ∀ folder, IsFolder before folder →
      seatAt seat pair.1 id folder = seat folder := by
    intro folder hfolder
    rcases hfolder with rfl | hmem
    · exact if_neg fun heq =>
        (validatePath_segments (hcanonical.valid hentries)).1 heq.symm
    · exact hold _ hmem
  obtain ⟨extra, hextra⟩ := h.inodes
  obtain ⟨extra', hextra'⟩ := hgrows.inodes
  constructor
  · rw [hgrows.workspaces, h.workspaces]
  · exact ⟨extra ++ extra', by rw [hextra', hextra, List.append_assoc]⟩
  · rw [hfolder [] (.inl rfl), h.root]
  · rw [hgrows.dirents, h.dirents, List.append_assoc, List.map_append,
      List.map_singleton, direntOf, hnew,
      hfolder _ (hcanonical.folder hsplit)]
    congr 2
    apply List.map_congr_left
    intro other hother
    rw [direntOf, direntOf, hold other hother,
      hfolder _ (hcanonical.folder_of_mem hsplit hother)]
  · intro other hother
    rcases List.mem_append.mp hother with hother | hother
    · rw [hold other hother]
      exact Db.inode_append hextra' (h.found other hother)
    · rw [List.mem_singleton.mp hother, hnew]
      exact hgrows.found
  · intro other hother executable body hbody
    rcases List.mem_append.mp hother with hother | hother
    · rw [hold other hother, hgrows.kept other hother]
      exact h.records other hother executable body hbody
    · rw [List.mem_singleton.mp hother] at hbody ⊢
      rw [hnew]
      exact hgrows.records executable body hbody
  · intro other hother row hrow
    rcases List.mem_append.mp hother with hother | hother
    · rw [hold other hother]
      exact h.fresh other hother row hrow
    · rw [List.mem_singleton.mp hother, hnew]
      exact hid row hrow
  · intro left hleft right hright
    rcases List.mem_append.mp hleft with hleft | hleft
    · rw [hold left hleft]
      rcases List.mem_append.mp hright with hright | hright
      · rw [hold right hright]
        exact h.shared left hleft right hright
      · rw [List.mem_singleton.mp hright, hnew]
        exact hgrows.shared left hleft
    · rw [List.mem_singleton.mp hleft, hnew]
      rcases List.mem_append.mp hright with hright | hright
      · rw [hold right hright, eq_comm, hgrows.shared right hright]
        exact eq_comm
      · rw [List.mem_singleton.mp hright, hnew]
        simp

/-- The folder of a replayed path has its inode row. -/
theorem Planted.folder_row (h : Planted base workspace snapshot before db seat)
    (hvacant : base.Vacant workspace) {folder : Text}
    (hfolder : IsFolder before folder) :
    ∃ row ∈ db.inodes, row.id = seat folder := by
  rcases hfolder with rfl | hfolder
  · obtain ⟨row, hrow, hid⟩ := hvacant.root
    obtain ⟨extra, hextra⟩ := h.inodes
    refine ⟨row, ?_, hid.trans h.root.symm⟩
    rw [hextra]
    exact List.mem_append_left _ hrow
  · obtain ⟨hmem, hid⟩ := findRow_mem (h.found _ hfolder)
    exact ⟨_, hmem, hid⟩

/-- A new inode under the next path. -/
theorem Planted.createLeaf (h : Planted base workspace snapshot before db seat)
    (hcanonical : Canonical U snapshot) {pair : Text × Entry}
    (hsplit : snapshot.entries = before ++ pair :: rest)
    (hlinked : base.Linked) (hvacant : base.Vacant workspace) (inode : Inode) :
    createLeaf U db workspace pair.1 inode =
      .ok (db.addLeaf workspace.id (seat (folderOf pair.1)) (leafOf pair.1)
        inode, nextId (db.inodes.map InodeRow.id)) := by
  have hfree : ∀ dirent ∈ db.dirents,
      dirent.key ≠ (seat (folderOf pair.1), leafOf pair.1) := by
    have hplace := h.place hcanonical hsplit hlinked hvacant
    obtain ⟨_, hleaf⟩ := resolveNewLeaf_newLeaf hplace
    exact hleaf.free
  have howner : ∃ row ∈ db.workspaces, row.id = workspace.id := by
    rw [h.workspaces]
    exact hvacant.owner
  obtain ⟨row, hrow, hid⟩ :=
    h.folder_row hvacant (hcanonical.folder hsplit)
  have hinsert : db.insertInode workspace.id inode =
      .ok ({ db with inodes := db.inodes ++
        [⟨nextId (db.inodes.map InodeRow.id), workspace.id, inode⟩] },
          nextId (db.inodes.map InodeRow.id)) :=
    Db.insertInode_eq_ok.mpr ⟨howner, rfl, rfl⟩
  have hdirent : Db.insertDirent { db with inodes := db.inodes ++
        [⟨nextId (db.inodes.map InodeRow.id), workspace.id, inode⟩] }
      (seat (folderOf pair.1)) (leafOf pair.1)
      (nextId (db.inodes.map InodeRow.id)) =
        .ok (db.addLeaf workspace.id (seat (folderOf pair.1)) (leafOf pair.1)
          inode) :=
    Db.insertDirent_eq_ok.mpr ⟨⟨⟨row, List.mem_append_left _ hrow, hid⟩,
      ⟨_, List.mem_append_right _ (List.mem_singleton.mpr rfl), rfl⟩, hfree⟩,
      rfl⟩
  simp only [TensorFS.createLeaf, h.place hcanonical hsplit hlinked hvacant,
    except_ok_bind, hinsert, hdirent]

/-- The records under one inode in an object map. -/
def recordsIn (maps : List (Nat × FileRecord)) (inode : Nat) :
    List FileRecord :=
  (maps.filter fun entry => entry.1 = inode).map Prod.snd

theorem recordsIn_put (maps : List (Nat × FileRecord)) (id : Nat)
    (records : List FileRecord) (inode : Nat) :
    recordsIn ((maps.filter fun entry => entry.1 ≠ id) ++
        records.map fun record => (id, record)) inode =
      if inode = id then records else recordsIn maps inode := by
  unfold recordsIn
  rw [List.filter_append, List.filter_filter, List.filter_map, List.map_append,
    List.map_map]
  by_cases heq : inode = id
  · subst heq
    simp [Function.comp_def]
  · have hnone : records.filter ((fun entry : Nat × FileRecord =>
        decide (entry.1 = inode)) ∘ fun record => (id, record)) = [] := by
      rw [List.filter_eq_nil_iff]
      intro record _
      simpa using Ne.symm heq
    rw [hnone, List.map_nil, List.append_nil, if_neg heq]
    congr 1
    apply List.filter_congr
    intro entry _
    by_cases hat : entry.1 = inode
    · simp [hat, heq]
    · simp [hat]

/-- An entry with content of its own. -/
theorem Planted.grows_leaf (h : Planted base workspace snapshot before db seat)
    (hcanonical : Canonical U snapshot) {pair : Text × Entry}
    (hsplit : snapshot.entries = before ++ pair :: rest)
    (hown : snapshot.own pair = pair) {maps : List (Nat × FileRecord)}
    (hrecords : ∀ executable body, pair.2 = .file executable body →
      recordsIn maps (nextId (db.inodes.map InodeRow.id)) = body.records)
    (hkept : ∀ inode, inode ≠ nextId (db.inodes.map InodeRow.id) →
      recordsIn maps inode = db.readRecords inode) :
    Grows db { db.addLeaf workspace.id (seat (folderOf pair.1))
        (leafOf pair.1) pair.2.inode with objectMaps := maps }
      workspace snapshot before seat pair
      (nextId (db.inodes.map InodeRow.id)) := by
  have hid : ∀ row ∈ db.inodes,
      row.id ≠ nextId (db.inodes.map InodeRow.id) := fun row hrow =>
    nextId_ne (List.mem_map.mpr ⟨row, hrow, rfl⟩)
  have hseat : ∀ other ∈ before,
      seat other.1 ≠ nextId (db.inodes.map InodeRow.id) := by
    intro other hother
    obtain ⟨hmem, _⟩ := findRow_mem (h.found other hother)
    exact hid _ hmem
  constructor
  · rfl
  · exact ⟨_, rfl⟩
  · rfl
  · rw [hown]
    show List.find? _ (db.inodes ++ [_]) = _
    rw [List.find?_append, List.find?_eq_none.mpr, Option.none_or]
    · simp
    · intro row hrow
      simpa using hid row hrow
  · intro executable body hbody
    rw [hown] at hbody
    exact hrecords executable body hbody
  · intro other hother
    exact hkept _ (hseat other hother)
  · intro other hother
    refine iff_of_false (hseat other hother) fun heq => ?_
    have hmem := (hcanonical.own_mem hsplit hother).1
    rw [heq, hown] at hmem
    exact lt_irrefl _ (hcanonical.lt_of_before hsplit hmem)

/-- A link shares the seat of its carrier. -/
theorem Planted.grows_link (h : Planted base workspace snapshot before db seat)
    {pair carrier : Text × Entry} (hcarrier : carrier ∈ before)
    (hself : snapshot.own carrier = carrier)
    (hown : snapshot.own pair = carrier) :
    Grows db (db.addDirent (seat (folderOf pair.1)) (leafOf pair.1)
        (seat carrier.1))
      workspace snapshot before seat pair (seat carrier.1) where
  workspaces := rfl
  inodes := ⟨[], (List.append_nil _).symm⟩
  dirents := rfl
  found := by
    have hfound := h.found carrier hcarrier
    rw [hself] at hfound
    rw [hown]
    exact hfound
  records executable body hbody := by
    rw [hown] at hbody
    exact h.records carrier hcarrier executable body (hself.symm ▸ hbody)
  kept _ _ := rfl
  shared other hother := by
    rw [h.shared other hother carrier hcarrier, hself, hown]

/-- One entry replayed. -/
theorem Planted.step (h : Planted base workspace snapshot before db seat)
    (hcanonical : Canonical U snapshot) {pair : Text × Entry}
    (hsplit : snapshot.entries = before ++ pair :: rest)
    (hlinked : base.Linked) (hvacant : base.Vacant workspace) :
    ∃ db' seat', applyMutation U db workspace
        (cloneMutation snapshot pair.1 pair.2) = .ok db' ∧
      Planted base workspace snapshot (before ++ [pair]) db' seat' := by
  have hentries : pair ∈ snapshot.entries := by
    rw [hsplit]
    simp
  have hcreate := h.createLeaf hcanonical hsplit hlinked hvacant
  have hlarge : ∀ row ∈ base.inodes,
      row.id < nextId (db.inodes.map InodeRow.id) := by
    intro row hrow
    obtain ⟨extra, hextra⟩ := h.inodes
    apply lt_nextId
    rw [hextra, List.map_append]
    exact List.mem_append_left _ (List.mem_map.mpr ⟨row, hrow, rfl⟩)
  have hgrows := @Planted.grows_leaf U base db workspace snapshot before rest
    seat h hcanonical pair hsplit
  obtain ⟨path, entry⟩ := pair
  cases entry with
  | directory =>
      refine ⟨_, _, ?_, h.grow hcanonical hsplit
        (@hgrows rfl db.objectMaps (fun _ _ h => by cases h) fun _ _ => rfl)
        hlarge⟩
      simp only [cloneMutation, applyMutation, mkdir, hcreate, except_ok_bind]
      rfl
  | symlink target =>
      obtain ⟨_, _, htarget⟩ := hcanonical.entryOk hentries
      refine ⟨_, _, ?_, h.grow hcanonical hsplit
        (@hgrows rfl db.objectMaps (fun _ _ h => by cases h) fun _ _ => rfl)
        hlarge⟩
      simp only [cloneMutation, applyMutation, symlink, hcreate, except_ok_bind,
        checked_eq_ok.mpr htarget]
      rfl
  | file executable body =>
      let id := nextId (db.inodes.map InodeRow.id)
      let maps := (db.objectMaps.filter fun entry => entry.1 ≠ id) ++
        body.records.map fun record => (id, record)
      refine ⟨_, _, ?_, h.grow hcanonical hsplit
        (@hgrows rfl maps ?_ ?_) hlarge⟩
      · simp only [cloneMutation, applyMutation, createFile, hcreate,
          except_ok_bind]
        exact Db.insertRecords_eq_ok.mpr ⟨.inr ⟨_, List.mem_append_right _
          (List.mem_singleton.mpr rfl), rfl⟩, rfl⟩
      · intro found foundBody heq
        cases heq
        exact (recordsIn_put _ _ _ _).trans (if_pos rfl)
      · intro inode hne
        exact (recordsIn_put _ _ _ _).trans (if_neg hne)
  | hardlink ordinal =>
      obtain ⟨carrier, executable, body, hown, hpath, hcarrier, hlt⟩ :=
        hcanonical.own_link hentries
      have hbefore := hcanonical.mem_before hsplit hcarrier hlt
      have hresolved := resolveFile_eq_ok.mpr (resolveExisting_eq_ok.mpr
        ⟨.inr (hcanonical.valid hcarrier),
          h.resolve hcanonical hsplit hlinked hvacant hbefore⟩)
      have hplace := h.place hcanonical hsplit hlinked hvacant
      obtain ⟨_, hleaf⟩ := resolveNewLeaf_newLeaf hplace
      have hfound := h.found _ hbefore
      obtain ⟨hrow, _⟩ := findRow_mem hfound
      refine ⟨_, _, ?_, h.grow hcanonical hsplit
        (h.grows_link hbefore rfl hown) (h.fresh _ hbefore)⟩
      simp only [cloneMutation, applyMutation, hardlink, hpath,
        Option.getD_some, hresolved, hplace, except_ok_bind]
      exact Db.insertDirent_eq_ok.mpr ⟨⟨h.folder_row hvacant
        (hcanonical.folder hsplit), ⟨_, hrow, rfl⟩, hleaf.free⟩, rfl⟩

/-- The whole tree replayed. -/
theorem Planted.run (h : Planted base workspace snapshot before db seat)
    (hcanonical : Canonical U snapshot)
    (hsplit : snapshot.entries = before ++ rest)
    (hlinked : base.Linked) (hvacant : base.Vacant workspace) :
    ∃ db' seat', applyMutations U workspace db
        (rest.map fun pair => cloneMutation snapshot pair.1 pair.2) = .ok db' ∧
      Planted base workspace snapshot snapshot.entries db' seat' := by
  induction rest generalizing before db seat with
  | nil =>
      rw [List.append_nil] at hsplit
      exact ⟨db, seat, rfl, hsplit ▸ h⟩
  | cons pair rest ih =>
      obtain ⟨middle, next, hstep, hplanted⟩ :=
        h.step hcanonical hsplit hlinked hvacant
      obtain ⟨db', seat', hrun, hfinal⟩ := ih hplanted
        (by rw [hsplit, List.append_assoc, List.singleton_append])
      refine ⟨db', seat', ?_, hfinal⟩
      rw [List.map_cons, applyMutations, hstep, except_ok_bind, hrun]

end

end TensorFS
