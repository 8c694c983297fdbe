import TensorFS.Data.Hierarchy
import TensorFS.Workspace.Linked

namespace TensorFS

open Data

/-! The trees of the workspaces in the dirent table. -/

namespace Db

def Edge (db : Db) (parent : Nat) (name : Text) (child : Nat) : Prop :=
  ⟨parent, name, child⟩ ∈ db.dirents

def IsDirectory (db : Db) (id : Nat) : Prop :=
  ∃ row ∈ db.inodes, row.id = id ∧ row.inode.kind = .directory

def IsRoot (db : Db) (id : Nat) : Prop :=
  ∃ workspace ∈ db.workspaces, workspace.rootInode = id

def Owns (db : Db) (workspaceId id : Nat) : Prop :=
  ∃ row ∈ db.inodes, row.id = id ∧ row.workspaceId = workspaceId

/-- A name or a lease refers to the inode. -/
def Held (db : Db) (id : Nat) : Prop :=
  (∃ dirent ∈ db.dirents, dirent.child = id) ∨
    ∃ lease ∈ db.leases, lease.inode = some id

/-- Each workspace's inodes hang below its root, apart from unlinked ones that
a lease holds; the loose ones need not be held. -/
structure Forest (db : Db) (loose : List Nat) : Prop where
  workspaceIds : (db.workspaces.map WorkspaceRow.id).Nodup
  inodeIds : (db.inodes.map InodeRow.id).Nodup
  direntKeys : (db.dirents.map Dirent.key).Nodup
  leaseIds : (db.leases.map LeaseRow.id).Nodup
  tree : Hierarchy db.Edge db.IsDirectory db.IsRoot
  named : ∀ dirent ∈ db.dirents, dirent.name ≠ []
  linked : db.Linked
  together : ∀ dirent ∈ db.dirents, ∀ owner,
    db.Owns owner dirent.parent ↔ db.Owns owner dirent.child
  rootOwned : ∀ workspace ∈ db.workspaces,
    db.Owns workspace.id workspace.rootInode
  owned : ∀ row ∈ db.inodes, ∃ workspace ∈ db.workspaces,
    workspace.id = row.workspaceId
  leased : ∀ lease ∈ db.leases, ∀ id ∈ lease.inode,
    ∃ owner, lease.workspaceId = some owner ∧ db.Owns owner id
  held : ∀ row ∈ db.inodes, db.IsRoot row.id ∨ db.Held row.id ∨ row.id ∈ loose

/-! The tables read through their keys. -/

end Db

def InodeRow.shape (row : InodeRow) : Nat × Nat × Kind :=
  (row.id, row.workspaceId, row.inode.kind)

def WorkspaceRow.shape (row : WorkspaceRow) : Nat × Nat :=
  (row.id, row.rootInode)

namespace Db

variable {db db' : Db} {loose : List Nat}

theorem isDirectory_iff {id : Nat} :
    db.IsDirectory id ↔
      ∃ owner, (id, owner, Kind.directory) ∈ db.inodes.map InodeRow.shape := by
  simp only [IsDirectory, List.mem_map, InodeRow.shape, Prod.mk.injEq]
  constructor
  · rintro ⟨row, hrow, hid, hkind⟩
    exact ⟨row.workspaceId, row, hrow, hid, rfl, hkind⟩
  · rintro ⟨owner, row, hrow, hid, _, hkind⟩
    exact ⟨row, hrow, hid, hkind⟩

theorem owns_iff {owner id : Nat} :
    db.Owns owner id ↔
      ∃ kind, (id, owner, kind) ∈ db.inodes.map InodeRow.shape := by
  simp only [Owns, List.mem_map, InodeRow.shape, Prod.mk.injEq]
  constructor
  · rintro ⟨row, hrow, hid, howner⟩
    exact ⟨_, row, hrow, hid, howner, rfl⟩
  · rintro ⟨kind, row, hrow, hid, howner, _⟩
    exact ⟨row, hrow, hid, howner⟩

theorem isRoot_iff {id : Nat} :
    db.IsRoot id ↔
      ∃ workspace, (workspace, id) ∈ db.workspaces.map WorkspaceRow.shape := by
  simp only [IsRoot, List.mem_map, WorkspaceRow.shape, Prod.mk.injEq]
  constructor
  · rintro ⟨row, hrow, hid⟩
    exact ⟨_, row, hrow, rfl, hid⟩
  · rintro ⟨_, row, hrow, _, hid⟩
    exact ⟨row, hrow, hid⟩

namespace Forest

/-- Labels, record maps and generations do not matter. -/
theorem same (h : db.Forest loose)
    (hworkspaces : db'.workspaces.map WorkspaceRow.shape =
      db.workspaces.map WorkspaceRow.shape)
    (hinodes : db'.inodes.map InodeRow.shape = db.inodes.map InodeRow.shape)
    (hdirents : db'.dirents = db.dirents) (hleases : db'.leases = db.leases) :
    db'.Forest loose := by
  have hedge : db'.Edge = db.Edge := by
    funext parent name child
    rw [Edge, Edge, hdirents]
  have hdirectory : db'.IsDirectory = db.IsDirectory := by
    funext id
    rw [eq_iff_iff, isDirectory_iff, isDirectory_iff, hinodes]
  have hroot : db'.IsRoot = db.IsRoot := by
    funext id
    rw [eq_iff_iff, isRoot_iff, isRoot_iff, hworkspaces]
  have howns : db'.Owns = db.Owns := by
    funext owner id
    rw [eq_iff_iff, owns_iff, owns_iff, hinodes]
  have hheld : db'.Held = db.Held := by
    funext id
    rw [Held, Held, hdirents, hleases]
  have hrow : ∀ row ∈ db'.inodes, ∃ old ∈ db.inodes,
      old.id = row.id ∧ old.workspaceId = row.workspaceId := by
    intro row hrow
    have hmem := List.mem_map_of_mem (f := InodeRow.shape) hrow
    rw [hinodes] at hmem
    obtain ⟨old, hold, hshape⟩ := List.mem_map.mp hmem
    simp only [InodeRow.shape, Prod.mk.injEq] at hshape
    exact ⟨old, hold, hshape.1, hshape.2.1⟩
  have hworkspace : ∀ left right : Db,
      left.workspaces.map WorkspaceRow.shape =
        right.workspaces.map WorkspaceRow.shape →
      ∀ row ∈ left.workspaces, ∃ old ∈ right.workspaces,
        old.id = row.id ∧ old.rootInode = row.rootInode := by
    intro left right hsame row hrow
    have hmem := List.mem_map_of_mem (f := WorkspaceRow.shape) hrow
    rw [hsame] at hmem
    obtain ⟨old, hold, hshape⟩ := List.mem_map.mp hmem
    simp only [WorkspaceRow.shape, Prod.mk.injEq] at hshape
    exact ⟨old, hold, hshape⟩
  have hids : ∀ left : Db, left.inodes.map InodeRow.id =
      (left.inodes.map InodeRow.shape).map Prod.fst := by
    intro left
    rw [List.map_map]
    rfl
  have hworkspaceIds : ∀ left : Db, left.workspaces.map WorkspaceRow.id =
      (left.workspaces.map WorkspaceRow.shape).map Prod.fst := by
    intro left
    rw [List.map_map]
    rfl
  constructor
  · rw [hworkspaceIds, hworkspaces, ← hworkspaceIds]
    exact h.workspaceIds
  · rw [hids, hinodes, ← hids]
    exact h.inodeIds
  · rw [hdirents]
    exact h.direntKeys
  · rw [hleases]
    exact h.leaseIds
  · rw [hedge, hdirectory, hroot]
    exact h.tree
  · rw [hdirents]
    exact h.named
  · exact h.linked.same hdirents (by rw [hids, hinodes, ← hids])
  · rw [hdirents, howns]
    exact h.together
  · intro workspace hmem
    obtain ⟨old, hold, hid, hrootInode⟩ :=
      hworkspace db' db hworkspaces workspace hmem
    rw [howns, ← hid, ← hrootInode]
    exact h.rootOwned old hold
  · intro row hmem
    obtain ⟨old, hold, _, howner⟩ := hrow row hmem
    obtain ⟨workspace, hworkspaceMem, hid⟩ := h.owned old hold
    obtain ⟨found, hfound, hfoundId, _⟩ :=
      hworkspace db db' hworkspaces.symm workspace hworkspaceMem
    exact ⟨found, hfound, by rw [hfoundId, hid, howner]⟩
  · rw [hleases, howns]
    exact h.leased
  · intro row hmem
    obtain ⟨old, hold, hid, _⟩ := hrow row hmem
    rw [hroot, hheld, ← hid]
    exact h.held old hold

end Forest

/-! Paths in the tables. -/

theorem edge_of_child {parent : Nat} {name : Text} {row : InodeRow}
    (h : db.child parent name = some row) :
    db.Edge parent name row.id ∧ row ∈ db.inodes := by
  obtain ⟨⟨found, label, child⟩, hdirent, hrow⟩ :=
    Option.bind_eq_some_iff.mp h
  obtain ⟨hmem, hkey⟩ := findRow_mem hdirent
  obtain ⟨hrowMem, rfl⟩ := findRow_mem hrow
  simp only [Dirent.key, Prod.mk.injEq] at hkey
  obtain ⟨rfl, rfl⟩ := hkey
  exact ⟨hmem, hrowMem⟩

theorem resolveSegments_leads {current resolved : ResolvedInode}
    {path : List Text}
    (h : resolveSegments db current path = some resolved) :
    Leads db.Edge current.id path resolved.id := by
  induction path generalizing current with
  | nil =>
      cases h
      rfl
  | cons name path ih =>
      simp only [resolveSegments] at h
      split at h
      · split at h
        · rename_i row hchild
          exact ⟨row.id, (edge_of_child hchild).1, ih h⟩
        · cases h
      · cases h

namespace Forest

variable {workspace : WorkspaceRow}

theorem row_unique (h : db.Forest loose) {left right : InodeRow}
    (hleft : left ∈ db.inodes) (hright : right ∈ db.inodes)
    (hid : left.id = right.id) : left = right :=
  eq_of_key h.inodeIds hleft hright hid

theorem owner_unique (h : db.Forest loose) {owner owner' id : Nat}
    (howns : db.Owns owner id) (howns' : db.Owns owner' id) :
    owner = owner' := by
  obtain ⟨row, hrow, hid, howner⟩ := howns
  obtain ⟨row', hrow', hid', howner'⟩ := howns'
  rw [← howner, ← howner', h.row_unique hrow hrow' (hid.trans hid'.symm)]

theorem isRoot (hworkspace : workspace ∈ db.workspaces) :
    db.IsRoot workspace.rootInode :=
  ⟨workspace, hworkspace, rfl⟩

/-- A path of a workspace ends at an inode of its own. -/
theorem resolve_row (h : db.Forest loose)
    (hworkspace : workspace ∈ db.workspaces) {path : List Text}
    {resolved : ResolvedInode}
    (hresolved : resolveSegments db workspace.resolvedRoot path =
      some resolved) :
    ∃ row ∈ db.inodes, row.id = resolved.id ∧
      row.inode.kind = resolved.kind ∧ row.workspaceId = workspace.id := by
  induction path using List.reverseRecOn generalizing resolved with
  | nil =>
      cases hresolved
      obtain ⟨row, hrow, hid, howner⟩ := h.rootOwned workspace hworkspace
      obtain ⟨row', hrow', hid', hkind⟩ :=
        h.tree.rootInner _ (isRoot hworkspace)
      cases h.row_unique hrow hrow' (hid.trans hid'.symm)
      exact ⟨row, hrow, hid, hkind, howner⟩
  | append_singleton path name ih =>
      obtain ⟨parent, row, hparent, hchild, rfl⟩ :=
        resolveSegments_snoc.mp hresolved
      obtain ⟨above, habove, haboveId, _, howner⟩ := ih hparent
      obtain ⟨hedge, hrow⟩ := edge_of_child hchild
      have howns : db.Owns workspace.id row.id :=
        (h.together _ hedge workspace.id).mp ⟨above, habove, haboveId, howner⟩
      obtain ⟨found, hfound, hfoundId, hfoundOwner⟩ := howns
      cases h.row_unique hfound hrow hfoundId
      exact ⟨row, hrow, rfl, rfl, hfoundOwner⟩

theorem resolve_directory (h : db.Forest loose)
    (hworkspace : workspace ∈ db.workspaces) {path : List Text} {id : Nat}
    (hresolved : resolveSegments db workspace.resolvedRoot path =
      some ⟨id, .directory⟩) : db.IsDirectory id := by
  obtain ⟨row, hrow, hid, hkind, _⟩ := h.resolve_row hworkspace hresolved
  exact ⟨row, hrow, hid, hkind⟩

theorem resolve_owns (h : db.Forest loose)
    (hworkspace : workspace ∈ db.workspaces) {path : List Text}
    {resolved : ResolvedInode}
    (hresolved : resolveSegments db workspace.resolvedRoot path =
      some resolved) : db.Owns workspace.id resolved.id := by
  obtain ⟨row, hrow, hid, _, howner⟩ := h.resolve_row hworkspace hresolved
  exact ⟨row, hrow, hid, howner⟩

theorem not_isDirectory (h : db.Forest loose) {row : InodeRow}
    (hrow : row ∈ db.inodes) (hkind : row.inode.kind ≠ .directory) :
    ¬ db.IsDirectory row.id := by
  rintro ⟨other, hother, hid, hdirectory⟩
  cases h.row_unique hother hrow hid
  exact hkind hdirectory

/-! New names. -/

/-- A new name in a directory, for a file or for an inode without one. -/
theorem addDirent (h : db.Forest loose) {root parent child owner : Nat}
    {path : List Text} {name : Text} (hroot : db.IsRoot root)
    (hleads : Leads db.Edge root path parent)
    (hparent : db.IsDirectory parent) (howns : db.Owns owner parent)
    (hkeys : ∀ dirent ∈ db.dirents, dirent.key ≠ (parent, name))
    (hname : name ≠ []) (hchild : db.Owns owner child)
    (hfree : db.IsDirectory child → ∀ above label, ¬ db.Edge above label child)
    (hchildRoot : ¬ db.IsRoot child) (hloose : ∀ id ∈ loose, id = child) :
    (db.addDirent parent name child).Forest [] := by
  have hedges : ∀ above label below,
      (db.addDirent parent name child).Edge above label below ↔
        db.Edge above label below ∨
          above = parent ∧ label = name ∧ below = child := by
    intro above label below
    simp only [Edge, Db.addDirent, List.mem_append, List.mem_singleton,
      Dirent.mk.injEq]
  have htree := h.tree.grow hroot hleads hparent
    (fun other hedge => hkeys _ hedge rfl) hfree hchildRoot hedges
  refine ⟨h.workspaceIds, h.inodeIds, ?_, h.leaseIds, htree, ?_, ?_, ?_,
    h.rootOwned, h.owned, h.leased, ?_⟩
  · exact nodup_append_key h.direntKeys hkeys
  · intro dirent hdirent
    rcases List.mem_append.mp hdirent with hold | hnew
    · exact h.named dirent hold
    · rw [List.mem_singleton.mp hnew]
      exact hname
  · obtain ⟨row, hrow, hid, _⟩ := hchild
    obtain ⟨above, habove, haboveId, _⟩ := howns
    exact h.linked.add rfl (List.append_nil _).symm ⟨above, habove, haboveId⟩
      ⟨row, hrow, hid⟩
  · intro dirent hdirent other
    rcases List.mem_append.mp hdirent with hold | hnew
    · exact h.together dirent hold other
    · rw [List.mem_singleton.mp hnew]
      constructor
      · intro hother
        rw [h.owner_unique hother howns]
        exact hchild
      · intro hother
        rw [h.owner_unique hother hchild]
        exact howns
  · intro row hrow
    rcases h.held row hrow with hroot | hheld | hloosened
    · exact .inl hroot
    · right
      left
      rcases hheld with ⟨dirent, hdirent, hid⟩ | hlease
      · exact .inl ⟨dirent, List.mem_append_left _ hdirent, hid⟩
      · exact .inr hlease
    · right
      left
      left
      refine ⟨_, List.mem_append_right _ (List.mem_singleton.mpr rfl), ?_⟩
      exact (hloose row.id hloosened).symm

/-- An inode on no path yet. -/
theorem addInode (h : db.Forest []) (hworkspace : workspace ∈ db.workspaces)
    (inode : Inode) {db' : Db} (hworkspaces : db'.workspaces = db.workspaces)
    (hinodes : db'.inodes = db.inodes ++
      [⟨nextId (db.inodes.map InodeRow.id), workspace.id, inode⟩])
    (hdirents : db'.dirents = db.dirents) (hleases : db'.leases = db.leases) :
    db'.Forest [nextId (db.inodes.map InodeRow.id)] := by
  have hfresh : ∀ row ∈ db.inodes,
      row.id ≠ nextId (db.inodes.map InodeRow.id) :=
    fun row hrow => nextId_ne (List.mem_map_of_mem hrow)
  have hedge : db'.Edge = db.Edge := by
    funext parent name child
    rw [Edge, Edge, hdirents]
  have hroot : db'.IsRoot = db.IsRoot := by
    funext id
    rw [IsRoot, IsRoot, hworkspaces]
  have hheld : db'.Held = db.Held := by
    funext id
    rw [Held, Held, hdirents, hleases]
  have hmem : ∀ row, row ∈ db'.inodes ↔ row ∈ db.inodes ∨
      row = ⟨nextId (db.inodes.map InodeRow.id), workspace.id, inode⟩ := by
    intro row
    rw [hinodes, List.mem_append, List.mem_singleton]
  have howns : ∀ owner id, db.Owns owner id → db'.Owns owner id := by
    rintro owner id ⟨row, hrow, hid, howner⟩
    exact ⟨row, (hmem row).mpr (.inl hrow), hid, howner⟩
  have hback : ∀ owner id, (∃ row ∈ db.inodes, row.id = id) →
      db'.Owns owner id → db.Owns owner id := by
    rintro owner id ⟨old, hold, rfl⟩ ⟨row, hrow, hid, howner⟩
    rcases (hmem row).mp hrow with hrow | rfl
    · exact ⟨row, hrow, hid, howner⟩
    · exact absurd hid.symm (hfresh old hold)
  constructor
  · rw [hworkspaces]
    exact h.workspaceIds
  · rw [hinodes]
    exact nodup_append_key h.inodeIds hfresh
  · rw [hdirents]
    exact h.direntKeys
  · rw [hleases]
    exact h.leaseIds
  · rw [hedge, hroot]
    refine h.tree.relabel (fun id hid => ?_) (fun parent name child hedge => ?_)
      (fun _ h => h) (fun root hroot => ?_) h.tree.rootFree
    · obtain ⟨row, hrow, hid, hkind⟩ := hid
      rcases (hmem row).mp hrow with hrow | rfl
      · exact .inl ⟨row, hrow, hid, hkind⟩
      · right
        intro above name hedge
        obtain ⟨_, child, hchild, hchildId⟩ := h.linked _ hedge
        exact hfresh child hchild (hchildId.trans hid.symm)
    · obtain ⟨row, hrow, hid, hkind⟩ := h.tree.parent _ _ _ hedge
      exact ⟨row, (hmem row).mpr (.inl hrow), hid, hkind⟩
    · obtain ⟨row, hrow, hid, hkind⟩ := h.tree.rootInner root hroot
      exact ⟨row, (hmem row).mpr (.inl hrow), hid, hkind⟩
  · rw [hdirents]
    exact h.named
  · intro dirent hdirent
    rw [hdirents] at hdirent
    obtain ⟨⟨parent, hparent, hparentId⟩, child, hchild, hchildId⟩ :=
      h.linked dirent hdirent
    exact ⟨⟨parent, (hmem parent).mpr (.inl hparent), hparentId⟩, child,
      (hmem child).mpr (.inl hchild), hchildId⟩
  · intro dirent hdirent owner
    rw [hdirents] at hdirent
    obtain ⟨hparent, hchild⟩ := h.linked dirent hdirent
    constructor
    · intro hother
      exact howns _ _ ((h.together dirent hdirent owner).mp
        (hback _ _ hparent hother))
    · intro hother
      exact howns _ _ ((h.together dirent hdirent owner).mpr
        (hback _ _ hchild hother))
  · intro found hfound
    rw [hworkspaces] at hfound
    exact howns _ _ (h.rootOwned found hfound)
  · intro row hrow
    rw [hworkspaces]
    rcases (hmem row).mp hrow with hrow | rfl
    · exact h.owned row hrow
    · exact ⟨workspace, hworkspace, rfl⟩
  · intro lease hlease id hid
    rw [hleases] at hlease
    obtain ⟨owner, howner, hleased⟩ := h.leased lease hlease id hid
    exact ⟨owner, howner, howns _ _ hleased⟩
  · intro row hrow
    rw [hroot, hheld]
    rcases (hmem row).mp hrow with hrow | rfl
    · rcases h.held row hrow with hisRoot | hisHeld | hloose
      · exact .inl hisRoot
      · exact .inr (.inl hisHeld)
      · cases hloose
    · exact .inr (.inr (List.mem_singleton.mpr rfl))

/-! Names taken away and moved. -/

theorem deleteDirent (h : db.Forest []) {parent child : Nat} {name : Text}
    (hedge : db.Edge parent name child)
    (hleaf : ∀ label below, ¬ db.Edge child label below) :
    (db.deleteDirent parent name).Forest [child] := by
  have hold : ∀ dirent, dirent ∈ (db.deleteDirent parent name).dirents ↔
      dirent ∈ db.dirents ∧ dirent.key ≠ (parent, name) := by
    intro dirent
    simp [Db.deleteDirent, List.mem_filter]
  have htree : Hierarchy (db.deleteDirent parent name).Edge db.IsDirectory
      db.IsRoot := by
    have hbelow : ∀ other, db.Edge parent name other →
        ∀ label below, ¬ db.Edge other label below := by
      intro other hother
      cases h.tree.keyed _ _ _ _ hother hedge
      exact hleaf
    refine h.tree.prune hbelow fun above label below => ?_
    rw [Edge, hold, Dirent.key, ne_eq, Prod.mk.injEq]
    rfl
  refine ⟨h.workspaceIds, h.inodeIds,
    nodup_filter_keys h.direntKeys _, h.leaseIds, htree,
    fun dirent hdirent => h.named dirent ((hold dirent).mp hdirent).1, ?_,
    fun dirent hdirent => h.together dirent ((hold dirent).mp hdirent).1,
    h.rootOwned, h.owned, h.leased, fun row hrow => ?_⟩
  · exact h.linked.unlinked rfl
      fun dirent hdirent => ((hold dirent).mp hdirent).1
  · rcases h.held row hrow with
      hroot | (⟨dirent, hdirent, hid⟩ | hlease) | hnone
    · exact .inl hroot
    · by_cases hkey : dirent.key = (parent, name)
      · right
        right
        have hsame : dirent = ⟨parent, name, child⟩ :=
          eq_of_key h.direntKeys hdirent hedge hkey
        rw [← hid, hsame, List.mem_singleton]
      · exact .inr (.inl (.inl ⟨dirent, (hold dirent).mpr ⟨hdirent, hkey⟩, hid⟩))
    · exact .inr (.inl (.inr hlease))
    · cases hnone

/-- An inode that nothing holds goes unless it is a root. -/
theorem drop {id : Nat} (h : db.Forest [id]) (hroot : db.IsRoot id → db.Held id)
    {db' : Db} (hdrop : db.dropInodeIfOrphaned id = .ok db') :
    db'.Forest [] := by
  rcases dropInodeIfOrphaned_eq_ok.mp hdrop with
    ⟨hnames, hleases, rfl⟩ | ⟨hheld, rfl⟩
  · have hnotHeld : ¬ db.Held id := by
      rintro (⟨dirent, hdirent, hchild⟩ | ⟨lease, hlease, hinode⟩)
      · exact hnames dirent hdirent hchild
      · exact hleases lease hlease hinode
    have hnotRoot : ¬ db.IsRoot id := fun hisRoot => hnotHeld (hroot hisRoot)
    have hnone : ∀ dirent ∈ db.dirents, dirent.parent ≠ id := by
      rintro ⟨parent, name, child⟩ hdirent rfl
      exact h.tree.childless hnotRoot
        (fun above label hedge => hnames _ hedge rfl) name child hdirent
    have hdirents : (db.dirents.filter fun dirent => dirent.parent ≠ id) =
        db.dirents := by
      rw [List.filter_eq_self]
      intro dirent hdirent
      simpa using hnone dirent hdirent
    have hmem : ∀ row, row ∈ db.inodes.filter (fun row => row.id ≠ id) ↔
        row ∈ db.inodes ∧ row.id ≠ id := by
      intro row
      simp [List.mem_filter]
    have howns : ∀ owner other, other ≠ id → db.Owns owner other →
        ∃ row ∈ db.inodes.filter (fun row => row.id ≠ id),
          row.id = other ∧ row.workspaceId = owner := by
      rintro owner other hne ⟨row, hrow, rfl, howner⟩
      exact ⟨row, (hmem row).mpr ⟨hrow, hne⟩, rfl, howner⟩
    have hback : ∀ owner other,
        (∃ row ∈ db.inodes.filter (fun row => row.id ≠ id),
          row.id = other ∧ row.workspaceId = owner) → db.Owns owner other := by
      rintro owner other ⟨row, hrow, hid, howner⟩
      exact ⟨row, ((hmem row).mp hrow).1, hid, howner⟩
    have hrootNe : ∀ other, db.IsRoot other → other ≠ id := by
      rintro other hother rfl
      exact hnotRoot hother
    rw [hdirents]
    refine ⟨h.workspaceIds, nodup_filter_keys h.inodeIds _, h.direntKeys,
      h.leaseIds, ?_, h.named, ?_, ?_, ?_, ?_, ?_, ?_⟩
    · refine h.tree.relabel (fun other hother => .inl ?_)
        (fun parent name child hedge => ?_) (fun _ hother => hother)
        (fun root hother => ?_) h.tree.rootFree
      · obtain ⟨row, hrow, hid, hkind⟩ := hother
        exact ⟨row, ((hmem row).mp hrow).1, hid, hkind⟩
      · obtain ⟨row, hrow, hid, hkind⟩ := h.tree.parent _ _ _ hedge
        exact ⟨row, (hmem row).mpr ⟨hrow, hid ▸ hnone _ hedge⟩, hid, hkind⟩
      · obtain ⟨row, hrow, hid, hkind⟩ := h.tree.rootInner root hother
        exact ⟨row, (hmem row).mpr ⟨hrow, hid ▸ hrootNe root hother⟩, hid, hkind⟩
    · intro dirent hdirent
      obtain ⟨⟨parent, hparent, hparentId⟩, child, hchild, hchildId⟩ :=
        h.linked dirent hdirent
      exact ⟨⟨parent, (hmem parent).mpr
          ⟨hparent, hparentId ▸ hnone dirent hdirent⟩, hparentId⟩,
        child, (hmem child).mpr
          ⟨hchild, hchildId ▸ hnames dirent hdirent⟩, hchildId⟩
    · intro dirent hdirent owner
      constructor
      · intro hparent
        exact howns _ _ (hnames dirent hdirent)
          ((h.together dirent hdirent owner).mp (hback _ _ hparent))
      · intro hchild
        exact howns _ _ (hnone dirent hdirent)
          ((h.together dirent hdirent owner).mpr (hback _ _ hchild))
    · intro workspace hworkspace
      exact howns _ _ (hrootNe _ (isRoot hworkspace))
        (h.rootOwned workspace hworkspace)
    · exact fun row hrow => h.owned row ((hmem row).mp hrow).1
    · intro lease hlease other hother
      obtain ⟨owner, howner, hleased⟩ := h.leased lease hlease other hother
      refine ⟨owner, howner, howns _ _ ?_ hleased⟩
      rintro rfl
      exact hleases lease hlease hother
    · intro row hrow
      obtain ⟨hold, hne⟩ := (hmem row).mp hrow
      rcases h.held row hold with hisRoot | hisHeld | hloose
      · exact .inl hisRoot
      · exact .inr (.inl hisHeld)
      · exact absurd (List.mem_singleton.mp hloose) hne
  · refine { h with held := fun row hrow => ?_ }
    rcases h.held row hrow with hisRoot | hisHeld | hloose
    · exact .inl hisRoot
    · exact .inr (.inl hisHeld)
    · rw [List.mem_singleton] at hloose
      rw [hloose]
      exact .inr (.inl hheld)

theorem moveDirent (h : db.Forest []) {root parent newParent child owner : Nat}
    {path newPath : List Text} {name newName : Text} (hroot : db.IsRoot root)
    (hleads : Leads db.Edge root path parent)
    (hedge : db.Edge parent name child)
    (hleads' : Leads db.Edge root newPath newParent)
    (hparent : db.IsDirectory newParent)
    (howns : db.Owns owner parent) (howns' : db.Owns owner newParent)
    (hkeys : ∀ dirent ∈ db.dirents, dirent.key ≠ (newParent, newName))
    (hname : newName ≠ [])
    (houtside : db.IsDirectory child → ¬ path ++ [name] <+: newPath) :
    (db.moveDirent parent name newParent newName).Forest [] := by
  have hmem : ∀ dirent,
      dirent ∈ (db.moveDirent parent name newParent newName).dirents ↔
        (dirent ∈ db.dirents ∧ dirent.key ≠ (parent, name)) ∨
          dirent = ⟨newParent, newName, child⟩ := by
    intro dirent
    rw [Db.moveDirent, mem_updateRow]
    refine or_congr Iff.rfl ⟨?_, ?_⟩
    · rintro ⟨old, hold, hkey, rfl⟩
      cases (eq_of_key h.direntKeys hold hedge hkey :
        old = ⟨parent, name, child⟩)
      rfl
    · rintro rfl
      exact ⟨_, hedge, rfl, rfl⟩
  have hedges : ∀ above label below,
      (db.moveDirent parent name newParent newName).Edge above label below ↔
        db.Edge above label below ∧ ¬ (above = parent ∧ label = name) ∨
          above = newParent ∧ label = newName ∧ below = child := by
    intro above label below
    rw [Edge, hmem, Dirent.key, ne_eq, Prod.mk.injEq, Dirent.mk.injEq]
    rfl
  have htree := h.tree.move hroot hleads hedge hleads' hparent
    (fun other hother => hkeys _ hother rfl) houtside hedges
  have hkeep : ∀ id, db.Held id →
      (db.moveDirent parent name newParent newName).Held id := by
    rintro id (⟨dirent, hdirent, hid⟩ | hlease)
    · left
      by_cases hkey : dirent.key = (parent, name)
      · have hsame : dirent = ⟨parent, name, child⟩ :=
          eq_of_key h.direntKeys hdirent hedge hkey
        refine ⟨_, (hmem _).mpr (.inr rfl), ?_⟩
        rw [← hid, hsame]
      · exact ⟨dirent, (hmem dirent).mpr (.inl ⟨hdirent, hkey⟩), hid⟩
    · exact .inr hlease
  refine ⟨h.workspaceIds, h.inodeIds, ?_, h.leaseIds, htree, ?_, ?_, ?_,
    h.rootOwned, h.owned, h.leased, fun row hrow => ?_⟩
  · rw [Db.moveDirent, updateRow, List.map_map]
    refine List.Nodup.map_on (fun left hleft right hright hsame => ?_)
      (List.Nodup.of_map _ h.direntKeys)
    simp only [Function.comp_apply] at hsame
    split at hsame
    · rename_i hleftKey
      split at hsame
      · rename_i hrightKey
        exact eq_of_key h.direntKeys hleft hright
          (hleftKey.trans hrightKey.symm)
      · exact absurd hsame.symm (hkeys right hright)
    · split at hsame
      · exact absurd hsame (hkeys left hleft)
      · exact eq_of_key h.direntKeys hleft hright hsame
  · intro dirent hdirent
    rcases (hmem dirent).mp hdirent with ⟨hold, _⟩ | rfl
    · exact h.named dirent hold
    · exact hname
  · intro dirent hdirent
    rcases (hmem dirent).mp hdirent with ⟨hold, _⟩ | rfl
    · exact h.linked dirent hold
    · obtain ⟨row, hrow, hid, _⟩ := howns'
      exact ⟨⟨row, hrow, hid⟩, (h.linked _ hedge).2⟩
  · intro dirent hdirent other
    rcases (hmem dirent).mp hdirent with ⟨hold, _⟩ | rfl
    · exact h.together dirent hold other
    · have hchild := (h.together _ hedge owner).mp howns
      constructor
      · intro hother
        rw [h.owner_unique hother howns']
        exact hchild
      · intro hother
        rw [h.owner_unique hother hchild]
        exact howns'
  · rcases h.held row hrow with hisRoot | hisHeld | hloose
    · exact .inl hisRoot
    · exact .inr (.inl (hkeep row.id hisHeld))
    · cases hloose

end Forest

end Db

end TensorFS
