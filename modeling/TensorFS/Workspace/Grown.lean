import TensorFS.Workspace.Forest
import TensorFS.Workspace.Usage

namespace TensorFS

open Data

/-! Trees under mutations. -/

section

variable {U : Unicode} {db db' : Db} {workspace : WorkspaceRow}

theorem intercalate_append {sep : Char} {front back : List Text}
    (hfront : front ≠ []) (hback : back ≠ []) :
    [sep].intercalate (front ++ back) =
      [sep].intercalate front ++ sep :: [sep].intercalate back := by
  induction front with
  | nil => exact absurd rfl hfront
  | cons head rest ih =>
      cases rest with
      | nil =>
          cases back with
          | nil => exact absurd rfl hback
          | cons => simp [List.intercalate_cons_cons]
      | cons next rest =>
          have htail := ih (List.cons_ne_nil _ _)
          simp only [List.cons_append, List.intercalate_cons_cons] at htail ⊢
          simp [htail]

/-- A path whose segments go on below another's lies below it as a text. -/
theorem insideSource_of_prefix {source target name : Text}
    {base rest : List Text} (hsource : segmentsOf source = base ++ [name])
    (htarget : segmentsOf target = base ++ [name] ++ rest)
    (hrest : rest ≠ []) : insideSource source target = true := by
  have hjoin : ∀ path : Text, segmentsOf path ≠ [] →
      path = ['/'].intercalate (segmentsOf path) := by
    intro path hne
    unfold segmentsOf at hne ⊢
    split at hne
    · exact absurd rfl hne
    · rename_i hpath
      rw [if_neg hpath, splitPath, List.intercalate_splitOn]
  have hsourceText := hjoin source (by simp [hsource])
  have htargetText := hjoin target (by simp [htarget])
  rw [hsource] at hsourceText
  rw [htarget, intercalate_append (by simp) hrest, ← hsourceText] at htargetText
  rw [insideSource, htargetText, Bool.or_eq_true]
  right
  rw [List.isPrefixOf_iff_prefix]
  exact ⟨['/'].intercalate rest, by simp⟩

theorem NewLeaf.name_ne {path name : Text} {base : List Text} {parent : Nat}
    (h : NewLeaf U db workspace path base parent name) : name ≠ [] := by
  obtain ⟨hne, hsegments⟩ := validatePath_segments h.valid
  have hmem : name ∈ splitPath path := by
    have hpath := h.segments
    rw [segmentsOf, if_neg hne] at hpath
    rw [hpath]
    simp
  exact validateSegment_ne_nil (hsegments name hmem)

/-- The mutation would take the workspace's root directory away. -/
def Mutation.TakesRoot (db : Db) (workspace : WorkspaceRow) :
    Mutation → Prop
  | .rmdir path => path = [] ∧
      (∀ dirent ∈ db.dirents, dirent.parent ≠ workspace.rootInode) ∧
      ∀ lease ∈ db.leases, lease.inode ≠ some workspace.rootInode
  | _ => False

namespace Db.Forest

theorem mono {loose loose' : List Nat} (h : db.Forest loose)
    (hloose : ∀ id ∈ loose, id ∈ loose') : db.Forest loose' :=
  { h with held := fun row hrow =>
      (h.held row hrow).imp_right (Or.imp_right (hloose row.id)) }

theorem leaf (h : db.Forest []) (hworkspace : workspace ∈ db.workspaces)
    {path name : Text} {base : List Text} {parent : Nat}
    (hplace : NewLeaf U db workspace path base parent name) (inode : Inode) :
    (db.addLeaf workspace.id parent name inode).Forest [] := by
  have hfresh : ∀ row ∈ db.inodes,
      row.id ≠ nextId (db.inodes.map InodeRow.id) :=
    fun row hrow => nextId_ne (List.mem_map_of_mem hrow)
  have hadded : ({ db with
      inodes := db.inodes ++
        [⟨nextId (db.inodes.map InodeRow.id), workspace.id, inode⟩] } :
      Db).Forest [nextId (db.inodes.map InodeRow.id)] :=
    h.addInode hworkspace inode rfl rfl rfl rfl
  obtain ⟨row, hrow, hid, hkind⟩ :=
    h.resolve_directory hworkspace hplace.directory
  obtain ⟨own, hown, hownId, howner⟩ :=
    h.resolve_owns hworkspace hplace.directory
  refine hadded.addDirent (isRoot hworkspace)
    (resolveSegments_leads hplace.directory)
    ⟨row, List.mem_append_left _ hrow, hid, hkind⟩
    ⟨own, List.mem_append_left _ hown, hownId, howner⟩ hplace.free
    hplace.name_ne
    ⟨_, List.mem_append_right _ (List.mem_singleton.mpr rfl), rfl, rfl⟩
    (fun _ above label hedge => ?_) ?_ fun id hloose =>
      List.mem_singleton.mp hloose
  · obtain ⟨_, child, hchild, hchildId⟩ := h.linked _ hedge
    exact hfresh child hchild hchildId
  · intro hisRoot
    obtain ⟨root, hroot, hrootId, _⟩ := h.tree.rootInner _ hisRoot
    exact hfresh root hroot hrootId

theorem link (h : db.Forest []) (hworkspace : workspace ∈ db.workspaces)
    {path name : Text} {base target : List Text} {parent child : Nat}
    (hplace : NewLeaf U db workspace path base parent name)
    (hfound : resolveSegments db workspace.resolvedRoot target =
      some ⟨child, .file⟩) :
    (db.addDirent parent name child).Forest [] := by
  obtain ⟨row, hrow, hid, hkind, _⟩ := h.resolve_row hworkspace hfound
  replace hid : row.id = child := hid
  have hfile : ¬ db.IsDirectory child := by
    rw [← hid]
    exact h.not_isDirectory hrow (by simp [hkind])
  exact h.addDirent (isRoot hworkspace)
    (resolveSegments_leads hplace.directory)
    (h.resolve_directory hworkspace hplace.directory)
    (h.resolve_owns hworkspace hplace.directory) hplace.free hplace.name_ne
    (h.resolve_owns hworkspace hfound) (fun hdir => absurd hdir hfile)
    (fun hroot => hfile (h.tree.rootInner _ hroot))
    fun _ hnone => absurd hnone List.not_mem_nil

/-- What a resolved name leaves behind it when it goes. -/
theorem shrink (h : db.Forest []) {parent : Nat} {name : Text}
    {row : InodeRow} (hchild : db.child parent name = some row)
    (hempty : row.inode.kind = .directory →
      ∀ dirent ∈ db.dirents, dirent.parent ≠ row.id)
    (hdrop : (db.deleteDirent parent name).dropInodeIfOrphaned row.id =
      .ok db') : db'.Forest [] := by
  obtain ⟨hedge, hrow⟩ := edge_of_child hchild
  have hleaf : ∀ label below, ¬ db.Edge row.id label below := by
    intro label below hbelow
    by_cases hkind : row.inode.kind = .directory
    · exact hempty hkind _ hbelow rfl
    · exact h.not_isDirectory hrow hkind (h.tree.parent _ _ _ hbelow)
  refine (h.deleteDirent hedge hleaf).drop (fun hroot => ?_) hdrop
  exact absurd hedge (h.tree.rootFree _ hroot parent name)

theorem rename (h : db.Forest []) (hworkspace : workspace ∈ db.workspaces)
    {source target oldName newName : Text} {oldBase newBase : List Text}
    {oldParent newParent : Nat} {row : InodeRow}
    (hold : segmentsOf source = oldBase ++ [oldName])
    (hdirectory : resolveSegments db workspace.resolvedRoot oldBase =
      some ⟨oldParent, .directory⟩)
    (hchild : db.child oldParent oldName = some row)
    (hplace : NewLeaf U db workspace target newBase newParent newName)
    (houtside : row.inode.kind = .directory →
      insideSource source target = false) :
    (db.moveDirent oldParent oldName newParent newName).Forest [] := by
  obtain ⟨hedge, hrow⟩ := edge_of_child hchild
  refine h.moveDirent (isRoot hworkspace) (resolveSegments_leads hdirectory)
    hedge (resolveSegments_leads hplace.directory)
    (h.resolve_directory hworkspace hplace.directory)
    (h.resolve_owns hworkspace hdirectory)
    (h.resolve_owns hworkspace hplace.directory) hplace.free hplace.name_ne
    fun hdir => ?_
  rintro ⟨rest, rfl⟩
  have hkind : row.inode.kind = .directory := by
    by_contra hkind
    exact h.not_isDirectory hrow hkind hdir
  have htarget : segmentsOf target =
      oldBase ++ [oldName] ++ (rest ++ [newName]) := by
    rw [hplace.segments]
    simp
  have hinside := insideSource_of_prefix hold htarget (by simp)
  rw [houtside hkind] at hinside
  cases hinside

/-- Renaming the root moves no name. -/
theorem moveRoot (h : db.Forest []) {newParent : Nat} {newName : Text} :
    (db.moveDirent workspace.rootInode [] newParent newName).Forest [] := by
  refine h.same rfl rfl ?_ rfl
  rw [Db.moveDirent, updateRow]
  have hkept : ∀ dirent ∈ db.dirents,
      (if dirent.key = (workspace.rootInode, [])
        then (⟨newParent, newName, dirent.child⟩ : Dirent) else dirent) =
        dirent := by
    intro dirent hdirent
    refine if_neg fun hkey => h.named dirent hdirent ?_
    exact congrArg Prod.snd hkey
  rw [List.map_congr_left hkept, List.map_id']

theorem dropRoot (h : db.Forest [])
    (hempty : ∀ dirent ∈ db.dirents, dirent.parent ≠ workspace.rootInode)
    (hkept : ¬ Mutation.TakesRoot db workspace (.rmdir []))
    (hdrop : (db.deleteDirent workspace.rootInode []).dropInodeIfOrphaned
      workspace.rootInode = .ok db') : db'.Forest [] := by
  have hsame : db.deleteDirent workspace.rootInode [] = db := by
    have hfilter : (db.dirents.filter fun dirent =>
        dirent.key ≠ (workspace.rootInode, [])) = db.dirents := by
      rw [List.filter_eq_self]
      intro dirent hdirent
      rw [decide_eq_true_eq]
      exact fun hkey => hempty dirent hdirent (congrArg Prod.fst hkey)
    rw [Db.deleteDirent, hfilter]
  rw [hsame] at hdrop
  refine (h.mono fun _ hnone => absurd hnone List.not_mem_nil).drop
    (fun _ => ?_) hdrop
  right
  by_contra hnone
  refine hkept ⟨rfl, hempty, fun lease hlease hinode => hnone ?_⟩
  exact ⟨lease, hlease, hinode⟩

theorem effect (h : db.Forest []) (hworkspace : workspace ∈ db.workspaces)
    {mutation : Mutation} (heffect : Effect U db workspace mutation db')
    (hkept : ¬ mutation.TakesRoot db workspace) : db'.Forest [] := by
  cases heffect with
  | leaf place => exact h.leaf hworkspace place _
  | file place => exact (h.leaf hworkspace place _).same rfl rfl rfl rfl
  | link place _ found => exact h.link hworkspace place found
  | rewrite => exact h.same rfl rfl rfl rfl
  | relabel =>
      refine h.same rfl (map_updateRow InodeRow.shape fun row => ?_) rfl rfl
      cases hinode : row.inode <;>
        simp [InodeRow.shape, Inode.setExecutable, hinode, Inode.kind]
  | move old directory child place _ outside =>
      exact h.rename hworkspace old directory child place outside
  | moveRoot => exact h.moveRoot
  | shrink _ _ child empty dropped => exact h.shrink child empty dropped
  | dropRoot empty dropped => exact h.dropRoot empty hkept dropped

end Db.Forest

/-- Some mutation of a batch takes the root away, where the ones before it
have left the tree. -/
def BatchTakesRoot (U : Unicode) (workspace : WorkspaceRow) :
    Db → List Mutation → Prop
  | _, [] => False
  | db, mutation :: mutations =>
      mutation.TakesRoot db workspace ∨
        ∃ db', applyMutation U db workspace mutation = .ok db' ∧
          BatchTakesRoot U workspace db' mutations

namespace Db.Forest

theorem mutations (h : db.Forest []) (hworkspace : workspace ∈ db.workspaces)
    {mutations : List Mutation}
    (happly : applyMutations U workspace db mutations = .ok db')
    (hkept : ¬ BatchTakesRoot U workspace db mutations) : db'.Forest [] := by
  induction mutations generalizing db with
  | nil =>
      cases happly
      exact h
  | cons mutation mutations ih =>
      simp only [applyMutations, except_bind_eq_ok] at happly
      obtain ⟨middle, hfirst, hrest⟩ := happly
      have heffect := applyMutation_effect hfirst
      refine ih (h.effect hworkspace heffect fun hroot => hkept (.inl hroot))
        ?_ hrest fun hbatch => hkept (.inr ⟨middle, hfirst, hbatch⟩)
      rw [heffect.sameRoots.workspaces]
      exact hworkspace

theorem jobs (h : db.Forest []) (hworkspace : workspace ∈ db.workspaces)
    {jobs : List SealJob}
    (happly : applySealJobs U workspace db jobs = .ok db') :
    db'.Forest [] := by
  induction jobs generalizing db with
  | nil =>
      cases happly
      exact h
  | cons job jobs ih =>
      simp only [applySealJobs, except_bind_eq_ok] at happly
      obtain ⟨next, hfirst, hrest⟩ := happly
      obtain ⟨middle, inode, hrecords, _, rfl⟩ := applySealJob_eq_ok hfirst
      have hmiddle : middle.Forest [] ∧ workspace ∈ middle.workspaces := by
        rcases applyRecords_cases hrecords with ⟨_, rfl⟩ | ⟨_, heffect⟩
        · exact ⟨h, hworkspace⟩
        · refine ⟨h.effect hworkspace heffect id, ?_⟩
          rw [heffect.sameRoots.workspaces]
          exact hworkspace
      have hnext : (middle.updateInode inode.id
          (Inode.relabel job.planner job.contract)).Forest [] := by
        refine hmiddle.1.same rfl ?_ rfl rfl
        refine map_updateRow InodeRow.shape fun row => ?_
        cases hinode : row.inode <;>
          simp [InodeRow.shape, Inode.relabel, hinode, Inode.kind]
      exact ih hnext hmiddle.2 hrest

end Db.Forest

end

/-! Workspaces and leases come and go. -/

section

variable {U : Unicode} {db db' : Db}

theorem createWorkspace_eq_ok {name : Text} :
    createWorkspace db name = .ok db' ↔ db.workspace name = none ∧
      db' = { db with
        workspaces := db.workspaces ++
          [⟨nextId (db.workspaces.map WorkspaceRow.id), name, 0,
            nextId (db.inodes.map InodeRow.id)⟩]
        inodes := db.inodes ++
          [⟨nextId (db.inodes.map InodeRow.id),
            nextId (db.workspaces.map WorkspaceRow.id), .directory⟩] } := by
  have hrows : ∀ (id rootInode : Nat) (rows : List WorkspaceRow),
      (∀ row ∈ rows, row.id ≠ id) →
      updateRow WorkspaceRow.id id
        (fun row => { row with rootInode := rootInode })
        (rows ++ [⟨id, name, 0, 0⟩]) = rows ++ [⟨id, name, 0, rootInode⟩] := by
    intro id rootInode rows hfresh
    rw [updateRow, List.map_append,
      List.map_congr_left fun row hrow => if_neg (hfresh row hrow),
      List.map_id']
    simp
  simp only [createWorkspace, except_bind_eq_ok, require_eq_ok, exists_unit,
    Prod.exists, Db.insertInode_eq_ok, Except.ok.injEq]
  constructor
  · rintro ⟨hname, _, _, ⟨_, rfl, rfl⟩, rfl⟩
    refine ⟨hname, ?_⟩
    rw [hrows _ _ _ fun row hrow => nextId_ne (List.mem_map_of_mem hrow)]
  · rintro ⟨hname, rfl⟩
    refine ⟨hname, _, _, ⟨⟨_, List.mem_append_right _
      (List.mem_singleton.mpr rfl), rfl⟩, rfl, rfl⟩, ?_⟩
    rw [hrows _ _ _ fun row hrow => nextId_ne (List.mem_map_of_mem hrow)]

namespace Db.Forest

theorem created (h : db.Forest []) {name : Text}
    (hcreated : createWorkspace db name = .ok db') : db'.Forest [] := by
  have hlinked := h.linked.created hcreated
  obtain ⟨_, rfl⟩ := createWorkspace_eq_ok.mp hcreated
  have hfresh : ∀ row ∈ db.inodes,
      row.id ≠ nextId (db.inodes.map InodeRow.id) :=
    fun row hrow => nextId_ne (List.mem_map_of_mem hrow)
  have hnoEdge : ∀ above label,
      ¬ db.Edge above label (nextId (db.inodes.map InodeRow.id)) := by
    intro above label hedge
    obtain ⟨_, child, hchild, hid⟩ := h.linked _ hedge
    exact hfresh child hchild hid
  have hback : ∀ (owner id : Nat), (∃ row ∈ db.inodes, row.id = id) →
      ∀ row ∈ db.inodes ++ [⟨nextId (db.inodes.map InodeRow.id),
        nextId (db.workspaces.map WorkspaceRow.id), .directory⟩],
        row.id = id → row.workspaceId = owner → db.Owns owner id := by
    rintro owner id ⟨old, hold, rfl⟩ row hrow hid howner
    rcases List.mem_append.mp hrow with hrow | hnew
    · exact ⟨row, hrow, hid, howner⟩
    · rw [List.mem_singleton.mp hnew] at hid
      exact absurd hid.symm (hfresh old hold)
  refine ⟨?_, ?_, h.direntKeys, h.leaseIds, ?_, h.named, hlinked, ?_, ?_, ?_,
    ?_, ?_⟩
  · exact nodup_append_key h.workspaceIds
      fun row hrow => nextId_ne (List.mem_map_of_mem hrow)
  · exact nodup_append_key h.inodeIds hfresh
  · refine h.tree.relabel (fun id hid => ?_) (fun parent name child hedge => ?_)
      (fun root hroot => ?_) (fun root hroot => ?_) fun root hroot => ?_
    · obtain ⟨row, hrow, rfl, hkind⟩ := hid
      rcases List.mem_append.mp hrow with hrow | hnew
      · exact .inl ⟨row, hrow, rfl, hkind⟩
      · right
        rw [List.mem_singleton.mp hnew]
        exact hnoEdge
    · obtain ⟨row, hrow, hid, hkind⟩ := h.tree.parent _ _ _ hedge
      exact ⟨row, List.mem_append_left _ hrow, hid, hkind⟩
    · obtain ⟨workspace, hworkspace, hid⟩ := hroot
      exact ⟨workspace, List.mem_append_left _ hworkspace, hid⟩
    · obtain ⟨workspace, hworkspace, rfl⟩ := hroot
      rcases List.mem_append.mp hworkspace with hold | hnew
      · obtain ⟨row, hrow, hid, hkind⟩ := h.tree.rootInner _ (isRoot hold)
        exact ⟨row, List.mem_append_left _ hrow, hid, hkind⟩
      · rw [List.mem_singleton.mp hnew]
        exact ⟨_, List.mem_append_right _ (List.mem_singleton.mpr rfl), rfl, rfl⟩
    · obtain ⟨workspace, hworkspace, rfl⟩ := hroot
      rcases List.mem_append.mp hworkspace with hold | hnew
      · exact h.tree.rootFree _ (isRoot hold)
      · rw [List.mem_singleton.mp hnew]
        exact hnoEdge
  · intro dirent hdirent owner
    obtain ⟨hparent, hchild⟩ := h.linked dirent hdirent
    constructor
    · rintro ⟨row, hrow, hid, howner⟩
      obtain ⟨found, hfound, hfoundId, hfoundOwner⟩ :=
        (h.together dirent hdirent owner).mp
          (hback owner _ hparent row hrow hid howner)
      exact ⟨found, List.mem_append_left _ hfound, hfoundId, hfoundOwner⟩
    · rintro ⟨row, hrow, hid, howner⟩
      obtain ⟨found, hfound, hfoundId, hfoundOwner⟩ :=
        (h.together dirent hdirent owner).mpr
          (hback owner _ hchild row hrow hid howner)
      exact ⟨found, List.mem_append_left _ hfound, hfoundId, hfoundOwner⟩
  · intro workspace hworkspace
    rcases List.mem_append.mp hworkspace with hold | hnew
    · obtain ⟨row, hrow, hid, howner⟩ := h.rootOwned workspace hold
      exact ⟨row, List.mem_append_left _ hrow, hid, howner⟩
    · rw [List.mem_singleton.mp hnew]
      exact ⟨_, List.mem_append_right _ (List.mem_singleton.mpr rfl), rfl, rfl⟩
  · intro row hrow
    rcases List.mem_append.mp hrow with hold | hnew
    · obtain ⟨workspace, hworkspace, hid⟩ := h.owned row hold
      exact ⟨workspace, List.mem_append_left _ hworkspace, hid⟩
    · rw [List.mem_singleton.mp hnew]
      exact ⟨_, List.mem_append_right _ (List.mem_singleton.mpr rfl), rfl⟩
  · intro lease hlease id hid
    obtain ⟨owner, howner, row, hrow, hrowId, hrowOwner⟩ :=
      h.leased lease hlease id hid
    exact ⟨owner, howner, row, List.mem_append_left _ hrow, hrowId, hrowOwner⟩
  · intro row hrow
    rcases List.mem_append.mp hrow with hold | hnew
    · rcases h.held row hold with ⟨workspace, hworkspace, hid⟩ | hheld
      · exact .inl ⟨workspace, List.mem_append_left _ hworkspace, hid⟩
      · exact .inr hheld
    · rw [List.mem_singleton.mp hnew]
      exact .inl ⟨_, List.mem_append_right _ (List.mem_singleton.mpr rfl), rfl⟩

theorem deleted (h : db.Forest []) {name : Text}
    (hdeleted : deleteWorkspace db name = .ok db') : db'.Forest [] := by
  have hlinked := h.linked.deleted hdeleted
  simp only [deleteWorkspace, except_bind_eq_ok, require_eq_ok, exists_unit,
    workspaceRow_eq_ok, Except.ok.injEq] at hdeleted
  obtain ⟨workspace, hfound, _, rfl⟩ := hdeleted
  obtain ⟨hworkspace, _⟩ := findRow_mem hfound
  have hown : ∀ id, (db.inodes.any fun row =>
      decide (row.id = id) && decide (row.workspaceId = workspace.id)) = true ↔
      db.Owns workspace.id id := by
    intro id
    simp [Owns, List.any_eq_true, and_left_comm]
  have hinode : ∀ row, row ∈ db.inodes.filter
      (fun row => row.workspaceId ≠ workspace.id) ↔
      row ∈ db.inodes ∧ row.workspaceId ≠ workspace.id := by
    intro row
    simp [List.mem_filter]
  have hrow : ∀ row ∈ db.inodes, row.workspaceId ≠ workspace.id ↔
      ¬ db.Owns workspace.id row.id := by
    intro row hmem
    refine not_congr ⟨fun howner => ⟨row, hmem, rfl, howner⟩, fun howns => ?_⟩
    exact h.owner_unique ⟨row, hmem, rfl, rfl⟩ howns
  have hroot : ∀ row ∈ db.workspaces, row.id ≠ workspace.id ↔
      ¬ db.Owns workspace.id row.rootInode := by
    intro row hmem
    refine not_congr ⟨fun hid => hid ▸ h.rootOwned row hmem, fun howns => ?_⟩
    exact h.owner_unique (h.rootOwned row hmem) howns
  have hmemWorkspace : ∀ row, row ∈ db.workspaces.filter
      (fun row => row.id ≠ workspace.id) ↔
      row ∈ db.workspaces ∧ row.id ≠ workspace.id := by
    intro row
    simp [List.mem_filter]
  have hdirent : ∀ dirent, dirent ∈ (db.dirents.filter fun dirent =>
      !(db.inodes.any fun row => decide (row.id = dirent.parent) &&
        decide (row.workspaceId = workspace.id))) ↔
      dirent ∈ db.dirents ∧ ¬ db.Owns workspace.id dirent.parent := by
    intro dirent
    rw [List.mem_filter, Bool.not_eq_true', ← Bool.not_eq_true, hown]
  have howns : ∀ owner id, ¬ db.Owns workspace.id id → db.Owns owner id →
      ∃ row ∈ db.inodes.filter (fun row => row.workspaceId ≠ workspace.id),
        row.id = id ∧ row.workspaceId = owner := by
    rintro owner id hnot ⟨row, hmem, rfl, howner⟩
    exact ⟨row, (hinode row).mpr ⟨hmem, (hrow row hmem).mpr hnot⟩, rfl, howner⟩
  have hback : ∀ owner id, (∃ row ∈ db.inodes.filter
      (fun row => row.workspaceId ≠ workspace.id),
      row.id = id ∧ row.workspaceId = owner) → db.Owns owner id := by
    rintro owner id ⟨row, hmem, hid, howner⟩
    exact ⟨row, ((hinode row).mp hmem).1, hid, howner⟩
  refine ⟨nodup_filter_keys h.workspaceIds _, nodup_filter_keys h.inodeIds _,
    nodup_filter_keys h.direntKeys _, nodup_filter_keys h.leaseIds _, ?_, ?_,
    hlinked, ?_, ?_, ?_, ?_, ?_⟩
  · have hsame : ∀ parent name child, db.Edge parent name child →
        (¬ db.Owns workspace.id parent ↔ ¬ db.Owns workspace.id child) :=
      fun parent name child hedge => not_congr (h.together _ hedge _)
    refine h.tree.restrict hsame
      (fun parent name child => hdirent ⟨parent, name, child⟩)
      (fun id => ?_) fun root => ?_
    · constructor
      · rintro ⟨row, hmem, rfl, hkind⟩
        obtain ⟨hold, hne⟩ := (hinode row).mp hmem
        exact ⟨⟨row, hold, rfl, hkind⟩, (hrow row hold).mp hne⟩
      · rintro ⟨⟨row, hmem, rfl, hkind⟩, hnot⟩
        exact ⟨row, (hinode row).mpr ⟨hmem, (hrow row hmem).mpr hnot⟩, rfl, hkind⟩
    · constructor
      · rintro ⟨row, hmem, rfl⟩
        obtain ⟨hold, hne⟩ := (hmemWorkspace row).mp hmem
        exact ⟨isRoot hold, (hroot row hold).mp hne⟩
      · rintro ⟨⟨row, hmem, rfl⟩, hnot⟩
        exact ⟨row, (hmemWorkspace row).mpr ⟨hmem, (hroot row hmem).mpr hnot⟩,
          rfl⟩
  · exact fun dirent hmem => h.named dirent ((hdirent dirent).mp hmem).1
  · intro dirent hmem owner
    obtain ⟨hold, hnot⟩ := (hdirent dirent).mp hmem
    have hsame := h.together dirent hold
    constructor
    · intro hparent
      exact howns _ _ (fun howned => hnot ((hsame _).mpr howned))
        ((hsame owner).mp (hback _ _ hparent))
    · intro hchild
      exact howns _ _ hnot ((hsame owner).mpr (hback _ _ hchild))
  · intro row hmem
    obtain ⟨hold, hne⟩ := (hmemWorkspace row).mp hmem
    exact howns _ _ ((hroot row hold).mp hne) (h.rootOwned row hold)
  · intro row hmem
    obtain ⟨hold, hne⟩ := (hinode row).mp hmem
    obtain ⟨owner, howner, hid⟩ := h.owned row hold
    exact ⟨owner, (hmemWorkspace owner).mpr ⟨howner, hid ▸ hne⟩, hid⟩
  · intro lease hmem id hid
    obtain ⟨hold, hne⟩ := List.mem_filter.mp hmem
    obtain ⟨owner, howner, hleased⟩ := h.leased lease hold id hid
    refine ⟨owner, howner, howns _ _ (fun howned => ?_) hleased⟩
    rw [h.owner_unique hleased howned] at howner
    simp [howner] at hne
  · intro row hmem
    obtain ⟨hold, hne⟩ := (hinode row).mp hmem
    have hnot := (hrow row hold).mp hne
    rcases h.held row hold with hisRoot | (hname | hlease) | hnone
    · obtain ⟨owner, howner, hid⟩ := hisRoot
      refine .inl ⟨owner, (hmemWorkspace owner).mpr
        ⟨howner, (hroot owner howner).mpr ?_⟩, hid⟩
      rw [hid]
      exact hnot
    · obtain ⟨dirent, hmemDirent, hid⟩ := hname
      refine .inr (.inl (.inl ⟨dirent, (hdirent dirent).mpr
        ⟨hmemDirent, fun howned => hnot ?_⟩, hid⟩))
      rw [← hid]
      exact (h.together dirent hmemDirent _).mp howned
    · obtain ⟨lease, hmemLease, hid⟩ := hlease
      refine .inr (.inl (.inr ⟨lease, List.mem_filter.mpr ⟨hmemLease, ?_⟩, hid⟩))
      obtain ⟨owner, howner, hleased⟩ := h.leased lease hmemLease _ hid
      rw [decide_eq_true_eq, howner]
      rintro ⟨rfl⟩
      exact hnot hleased
    · cases hnone

/-- A lease granted on an inode of its workspace, or on none. -/
theorem granted (h : db.Forest []) {lease : LeaseRow}
    (hworkspaces : db'.workspaces = db.workspaces)
    (hinodes : db'.inodes = db.inodes) (hdirents : db'.dirents = db.dirents)
    (hleases : db'.leases = db.leases ++ [lease])
    (hfresh : lease.id = nextId (db.leases.map LeaseRow.id))
    (howns : ∀ id ∈ lease.inode,
      ∃ owner, lease.workspaceId = some owner ∧ db.Owns owner id) :
    db'.Forest [] := by
  have hold : ({ db' with leases := db.leases } : Db).Forest [] :=
    h.same (by rw [hworkspaces]) (by rw [hinodes]) hdirents rfl
  have hmem : ∀ other, other ∈ db'.leases ↔ other ∈ db.leases ∨ other = lease := by
    intro other
    rw [hleases, List.mem_append, List.mem_singleton]
  have hownsSame : ∀ owner id, db.Owns owner id → db'.Owns owner id := by
    intro owner id howner
    rwa [Owns, hinodes]
  refine { hold with leaseIds := ?_, leased := ?_, held := ?_ }
  · rw [hleases]
    refine nodup_append_key h.leaseIds fun other hother => ?_
    rw [hfresh]
    exact nextId_ne (List.mem_map_of_mem hother)
  · intro other hother id hid
    rcases (hmem other).mp hother with hother | rfl
    · obtain ⟨owner, howner, hleased⟩ := h.leased other hother id hid
      exact ⟨owner, howner, hownsSame owner id hleased⟩
    · obtain ⟨owner, howner, hleased⟩ := howns id hid
      exact ⟨owner, howner, hownsSame owner id hleased⟩
  · intro row hrow
    rcases hold.held row hrow with hisRoot | (hname | hlease) | hnone
    · exact .inl hisRoot
    · exact .inr (.inl (.inl hname))
    · obtain ⟨other, hother, hid⟩ := hlease
      exact .inr (.inl (.inr ⟨other, (hmem other).mpr (.inl hother), hid⟩))
    · cases hnone

/-- A release that leaves every root held. -/
theorem released (h : db.Forest []) {lease : Nat}
    (hkept : ∀ row, db.lease lease = some row → ∀ id ∈ row.inode,
      db.IsRoot id → ∃ other ∈ db.leases, other.id ≠ lease ∧
        other.inode = some id)
    (hreleased : releaseLease db lease = .ok db') : db'.Forest [] := by
  have hmem : ∀ other, other ∈ (db.deleteLease lease).leases ↔
      other ∈ db.leases ∧ other.id ≠ lease := by
    intro other
    simp [Db.deleteLease, List.mem_filter]
  have hdeleted : ∀ row, db.lease lease = some row →
      (db.deleteLease lease).Forest row.inode.toList := by
    intro row hrow
    obtain ⟨hrowMem, hrowId⟩ := findRow_mem hrow
    refine ⟨h.workspaceIds, h.inodeIds, h.direntKeys,
      nodup_filter_keys h.leaseIds _, h.tree, h.named, h.linked, h.together,
      h.rootOwned, h.owned, fun other hother => ?_, fun found hfound => ?_⟩
    · exact h.leased other ((hmem other).mp hother).1
    · rcases h.held found hfound with hisRoot | (hname | hlease) | hnone
      · exact .inl hisRoot
      · exact .inr (.inl (.inl hname))
      · obtain ⟨other, hother, hid⟩ := hlease
        by_cases hsame : other.id = lease
        · right
          right
          have heq : other = row :=
            eq_of_key h.leaseIds hother hrowMem (hsame.trans hrowId.symm)
          rw [← heq, hid]
          exact List.mem_singleton.mpr rfl
        · exact .inr (.inl (.inr
            ⟨other, (hmem other).mpr ⟨hother, hsame⟩, hid⟩))
      · cases hnone
  unfold releaseLease at hreleased
  split at hreleased
  · exact absurd hreleased refuse_ne_ok
  · rename_i hrow
    cases hreleased
    exact hdeleted _ hrow
  · rename_i hrow
    refine (hdeleted _ hrow).drop (fun hroot => ?_) hreleased
    obtain ⟨other, hother, hne, hid⟩ := hkept _ hrow _ rfl hroot
    exact .inr ⟨other, (hmem other).mpr ⟨hother, hne⟩, hid⟩

end Db.Forest

end

end TensorFS
