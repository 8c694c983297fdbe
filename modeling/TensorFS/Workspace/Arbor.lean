import TensorFS.Data.Walk
import TensorFS.Workspace.Grown

namespace TensorFS

open Data

variable {P : Platform}

/-! The tree of each workspace, over whole runs. -/

/-- The call's next step takes a root directory away. -/
def Call.TakesRoot (store : ObjectStore P) (db : Db) : Call → Prop
  | .commit name mutations [] =>
      (∃ db', commitTransaction P store db name mutations = .ok db') ∧
        ∃ workspace, db.workspace name = some workspace ∧
          BatchTakesRoot P.unicode workspace db mutations
  | _ => False

theorem advanceCall_forest {db : Db} {store : ObjectStore P} {call : Call}
    (h : db.Forest []) (hkept : ¬ call.TakesRoot store db) :
    (advanceCall db store call).db.Forest [] := by
  have hmove : TableMove store db call (advanceCall db store call).db :=
    advanceCall_move
  generalize (advanceCall db store call).db = moved at hmove ⊢
  have hinserted : ∀ (db : Db) (id : SnapshotId) (generation : Nat),
      db.Forest [] → (db.insertSnapshot id generation).Forest [] := by
    intro db id generation h
    unfold Db.insertSnapshot
    split
    · exact h
    · exact h.same rfl rfl rfl rfl
  have hgeneration : ∀ (db : Db) (id generation : Nat), db.Forest [] →
      (db.setGeneration id generation).Forest [] := by
    intro db id generation h
    exact h.same (map_updateRow WorkspaceRow.shape fun _ => rfl) rfl rfl rfl
  cases hmove with
  | stays => exact h
  | committed hcommit =>
      obtain ⟨_, workspace, middle, hfound, hmutations, rfl⟩ :=
        commitTransaction_eq_ok.mp hcommit
      refine hgeneration _ _ _ (h.mutations (findRow_mem hfound).1 hmutations ?_)
      exact fun hbatch => hkept ⟨⟨_, hcommit⟩, workspace, hfound, hbatch⟩
  | sealed hseal =>
      obtain ⟨workspace, middle, hfound, _, hjobs, rfl⟩ :=
        sealTransaction_eq_ok hseal
      have hmiddle := h.jobs (findRow_mem hfound).1 hjobs
      refine hinserted _ _ _ ?_
      unfold Db.sealGeneration
      split
      · exact hmiddle
      · exact hgeneration _ _ _ hmiddle
  | rooted id => exact hinserted _ _ _ h

namespace World

/-- The step takes no root directory away: no commit that removes an empty and
unleased root by the empty path, and no release of a root's last lease. -/
def KeepsRoots (w : World P) : Action → Prop
  | .releaseLease lease => ∀ row, w.db.lease lease = some row →
      ∀ id ∈ row.inode, w.db.IsRoot id →
        ∃ other ∈ w.db.leases, other.id ≠ lease ∧ other.inode = some id
  | .advance index => ∀ call, w.calls[index]? = some call →
      ¬ call.TakesRoot w.store w.db
  | _ => True

variable {w : World P}

theorem settle_forest (h : w.db.Forest []) {outcome : Outcome Db}
    (hok : ∀ db, outcome = .ok db → db.Forest []) :
    (w.settle outcome).db.Forest [] := by
  cases outcome with
  | ok db => exact hok db rfl
  | error failure => exact h

theorem step_forest (h : w.db.Forest []) {action : Action}
    (hkept : w.KeepsRoots action) : (w.step action).db.Forest [] := by
  cases action with
  | createWorkspace name =>
      exact settle_forest h fun db hdb => h.created hdb
  | deleteWorkspace name =>
      exact settle_forest h fun db hdb => h.deleted hdb
  | deleteSnapshot id =>
      refine settle_forest h fun db hdb => ?_
      obtain ⟨_, rfl⟩ := deleteSnapshot_eq_ok.mp hdb
      exact h.same rfl rfl rfl rfl
  | acquireUnlinkedLease name path holder =>
      refine settle_forest h fun db hdb => ?_
      obtain ⟨⟨found, lease⟩, hfound, rfl⟩ := except_map_eq_ok.mp hdb
      obtain ⟨workspace, inode, hworkspace, hinode, _, hlease, rfl⟩ :=
        acquireUnlinkedLease_eq_ok.mp hfound
      refine h.granted rfl rfl rfl rfl hlease ?_
      rintro _ ⟨⟩
      exact ⟨_, rfl, h.resolve_owns (findRow_mem hworkspace).1
        (resolveExisting_eq_ok.mp hinode).2⟩
  | acquirePendingSyncLease id holder =>
      refine settle_forest h fun db hdb => ?_
      obtain ⟨⟨found, lease, snapshot⟩, hfound, rfl⟩ := except_map_eq_ok.mp hdb
      obtain ⟨_, hlease, rfl⟩ := acquirePendingSyncLease_eq_ok.mp hfound
      exact h.granted rfl rfl rfl rfl hlease fun _ hnone => by cases hnone
  | releaseLease lease =>
      exact settle_forest h fun db hdb => h.released hkept hdb
  | collect =>
      simp only [step]
      split
      · rename_i hcollect
        simp only [TensorFS.collect, except_bind_eq_ok, Except.ok.injEq,
          Prod.mk.injEq] at hcollect
        obtain ⟨_, _, rfl, _⟩ := hcollect
        exact h.same rfl rfl rfl rfl
      · exact h
  | admitObject bytes => exact h
  | beginCommit name mutations =>
      simp only [step]
      split
      · exact h
      · exact h
  | beginSeal seams name parent => exact h
  | beginAdopt bytes =>
      simp only [step]
      split
      · exact h
      · exact h
  | advance index =>
      cases hcall : w.calls[index]? with
      | none =>
          simp only [step, hcall]
          exact h
      | some call =>
          rw [step_advance hcall]
          exact advanceCall_forest h (hkept call hcall)

theorem run_forest (h : w.db.Forest []) {actions : List Action}
    (hkept : ∀ k action, actions[k]? = some action →
      (w.run (actions.take k)).KeepsRoots action) :
    (w.run actions).db.Forest [] := by
  induction actions generalizing w with
  | nil => exact h
  | cons action actions ih =>
      refine ih (step_forest h (hkept 0 action rfl)) fun k later hlater => ?_
      exact hkept (k + 1) later hlater

theorem empty_forest : (World.empty : World P).db.Forest [] where
  workspaceIds := List.nodup_nil
  inodeIds := List.nodup_nil
  direntKeys := List.nodup_nil
  leaseIds := List.nodup_nil
  tree := {
    keyed := fun _ _ _ _ hedge => absurd hedge List.not_mem_nil
    parent := fun _ _ _ hedge => absurd hedge List.not_mem_nil
    single := fun _ _ _ _ _ _ hedge => absurd hedge List.not_mem_nil
    rootInner := fun root hroot => by
      obtain ⟨workspace, hworkspace, _⟩ := hroot
      cases hworkspace
    rootFree := fun _ _ _ _ hedge => absurd hedge List.not_mem_nil
    reached := fun _ _ _ hedge => absurd hedge List.not_mem_nil }
  named := fun _ hdirent => absurd hdirent List.not_mem_nil
  linked := fun _ hdirent => absurd hdirent List.not_mem_nil
  together := fun _ hdirent => absurd hdirent List.not_mem_nil
  rootOwned := fun _ hworkspace => absurd hworkspace List.not_mem_nil
  owned := fun _ hrow => absurd hrow List.not_mem_nil
  leased := fun _ hlease => absurd hlease List.not_mem_nil
  held := fun _ hrow => absurd hrow List.not_mem_nil

end World

/-! What the trees are. -/

namespace Db

variable {db : Db} {workspace : WorkspaceRow}

/-- What the walk of the staging pass pushes for a dirent. -/
def opened (db : Db) (dirent : Dirent) : Option Nat :=
  (db.inode dirent.child).bind fun row =>
    if row.inode.kind = .directory then some row.id else none

def below (db : Db) (parent : Nat) : List Dirent :=
  db.dirents.filter fun dirent => dirent.parent = parent

/-- The walk ends as soon as it ends on the inodes alone. -/
theorem stageWalk_isSome (db : Db) (fuel : Nat) (stack : List (Nat × Text)) :
    (stageWalk db fuel stack).isSome =
      (stackWalk db.below db.opened fuel (stack.map Prod.fst)).isSome := by
  have hpush : ∀ (inode : Nat) (base : Text),
      (visitedDirectories (visitChildren db inode base)).map Prod.fst =
        (db.below inode).filterMap db.opened := by
    intro inode base
    rw [visitedDirectories, visitChildren, children, List.filterMap_map,
      List.filterMap_filterMap, List.map_filterMap]
    refine List.filterMap_congr fun dirent _ => ?_
    cases hrow : db.inode dirent.child with
    | none => simp [opened, hrow]
    | some row =>
        by_cases hkind : row.inode.kind = .directory
        · simp [opened, hrow, hkind]
        · simp [opened, hrow, hkind]
  induction fuel generalizing stack with
  | zero =>
      cases stack with
      | nil => rfl
      | cons node stack => rfl
  | succ fuel ih =>
      cases stack with
      | nil => rfl
      | cons node stack =>
          obtain ⟨inode, base⟩ := node
          have hrest := ih
            ((visitedDirectories (visitChildren db inode base)).reverse ++ stack)
          rw [List.map_append, List.map_reverse, hpush] at hrest
          simp only [stageWalk, List.map_cons, stackWalk, Option.bind_eq_bind,
            Option.isSome_bind, Option.isSome_some] at hrest ⊢
          simpa using hrest

namespace Forest

theorem opened_eq_some {loose : List Nat} (h : db.Forest loose)
    {dirent : Dirent} {node : Nat} :
    db.opened dirent = some node ↔
      dirent.child = node ∧ db.IsDirectory node := by
  simp only [opened, Option.bind_eq_some_iff, Db.inode,
    findRow_eq_some h.inodeIds]
  constructor
  · rintro ⟨row, ⟨hrow, hid⟩, hkind⟩
    split at hkind
    · rename_i hdirectory
      cases hkind
      exact ⟨hid.symm, row, hrow, rfl, hdirectory⟩
    · cases hkind
  · rintro ⟨rfl, row, hrow, hid, hkind⟩
    exact ⟨row, ⟨hrow, hid⟩, by rw [if_pos hkind, hid]⟩

/-- The dirents of one workspace hang below its root. -/
theorem hangs {loose : List Nat} (h : db.Forest loose)
    (hworkspace : workspace ∈ db.workspaces) :
    ∃ all : List Dirent, all.length ≤ db.dirents.length ∧
      ∃ rank, Hangs db.below db.opened workspace.rootInode Dirent.parent rank
        all := by
  classical
  obtain ⟨depth, hdepth⟩ := h.tree.exists_rank
  have hnodup : db.dirents.Nodup := List.Nodup.of_map _ h.direntKeys
  have hmem : ∀ dirent, dirent ∈ db.dirents.filter
      (fun dirent => db.Owns workspace.id dirent.parent) ↔
      dirent ∈ db.dirents ∧ db.Owns workspace.id dirent.parent := by
    intro dirent
    simp [List.mem_filter]
  have hnode : ∀ node, (node = workspace.rootInode ∨
      ∃ item ∈ db.dirents.filter
        (fun dirent => db.Owns workspace.id dirent.parent),
        db.opened item = some node) → db.Owns workspace.id node := by
    rintro node (rfl | ⟨item, hitem, hopens⟩)
    · exact h.rootOwned workspace hworkspace
    · obtain ⟨hdirent, howns⟩ := (hmem item).mp hitem
      rw [← (h.opened_eq_some.mp hopens).1]
      exact (h.together item hdirent _).mp howns
  refine ⟨db.dirents.filter fun dirent => db.Owns workspace.id dirent.parent,
    List.length_filter_le _ _, fun dirent => depth dirent.parent, ?_⟩
  constructor
  · exact hnodup.filter _
  · intro left hleft right hright node hopensLeft hopensRight
    obtain ⟨rfl, hdirectory⟩ := h.opened_eq_some.mp hopensLeft
    obtain ⟨hsame, _⟩ := h.opened_eq_some.mp hopensRight
    obtain ⟨leftParent, leftName, child⟩ := left
    obtain ⟨rightParent, rightName, rightChild⟩ := right
    simp only at hsame hdirectory
    subst hsame
    obtain ⟨rfl, rfl⟩ := h.tree.single _ _ _ _ _ hdirectory
      ((hmem _).mp hleft).1 ((hmem _).mp hright).1
    rfl
  · intro item hitem hopens
    obtain ⟨hchild, _⟩ := h.opened_eq_some.mp hopens
    refine h.tree.rootFree _ (isRoot hworkspace) item.parent item.name ?_
    rw [← hchild]
    exact ((hmem item).mp hitem).1
  · exact fun node _ => hnodup.filter _
  · intro node hopened item
    rw [hmem, below, List.mem_filter, decide_eq_true_eq]
    constructor
    · rintro ⟨hitem, rfl⟩
      exact ⟨⟨hitem, hnode _ hopened⟩, rfl⟩
    · rintro ⟨⟨hitem, _⟩, habove⟩
      exact ⟨hitem, habove⟩
  · intro item hitem
    obtain ⟨hdirent, howns⟩ := (hmem item).mp hitem
    have hparent := h.tree.parent item.parent item.name item.child hdirent
    obtain ⟨root, path, hroot, hleads⟩ :=
      h.tree.reached item.parent item.name item.child hdirent
    induction path using List.reverseRecOn with
    | nil =>
        left
        cases hleads
        obtain ⟨owner, howner, hid⟩ := hroot
        have hsame := h.rootOwned owner howner
        rw [hid] at hsame
        rw [← hid, eq_of_key h.workspaceIds howner hworkspace
          (h.owner_unique hsame howns)]
    | append_singleton path name _ =>
        right
        obtain ⟨above, _, hedge⟩ := leads_snoc.mp hleads
        refine ⟨⟨above, name, item.parent⟩, (hmem _).mpr ⟨hedge, ?_⟩,
          h.opened_eq_some.mpr ⟨rfl, hparent⟩, hdepth _ _ _ hedge hparent⟩
        exact (h.together _ hedge _).mpr howns

theorem walks {loose : List Nat} (h : db.Forest loose)
    (hworkspace : workspace ∈ db.workspaces) :
    ∃ visited, stageWalk db db.walkFuel [(workspace.rootInode, [])] =
      some visited := by
  obtain ⟨all, hlength, rank, hhangs⟩ := h.hangs hworkspace
  have hfuel : all.length < db.walkFuel := by
    rw [walkFuel]
    omega
  obtain ⟨noted, hnoted, _⟩ := stackWalk_perm hhangs hfuel
  rw [← Option.isSome_iff_exists, stageWalk_isSome]
  exact Option.isSome_iff_exists.mpr ⟨noted, hnoted⟩

end Forest

/-- The inode is on a path of the workspace. -/
def Below (db : Db) (workspace : WorkspaceRow) (id : Nat) : Prop :=
  ∃ path, Leads db.Edge workspace.rootInode path id

/-- The root is a directory, what is reached from it is a tree on directories,
nothing dangles and nothing of the workspace is lost; so the staging walk
ends. -/
structure Arboreal (db : Db) (workspace : WorkspaceRow) : Prop where
  root : ∃ row ∈ db.inodes, row.id = workspace.rootInode ∧
    row.inode = .directory
  child : ∀ dirent ∈ db.dirents, db.Below workspace dirent.parent →
    ∃ row ∈ db.inodes, row.id = dirent.child
  single : ∀ left ∈ db.dirents, ∀ right ∈ db.dirents,
    db.Below workspace left.parent → db.IsDirectory left.child →
    left.child = right.child → left = right
  acyclic : ∀ id, db.Below workspace id →
    ¬ Relation.TransGen (fun parent child => ∃ name, db.Edge parent name child)
      id id
  held : ∀ row ∈ db.inodes, row.workspaceId = workspace.id →
    row.id = workspace.rootInode ∨ db.Held row.id
  walks : ∃ visited, stageWalk db db.walkFuel [(workspace.rootInode, [])] =
    some visited

theorem Forest.arboreal (h : db.Forest [])
    (hworkspace : workspace ∈ db.workspaces) : db.Arboreal workspace := by
  refine ⟨?_, fun dirent hdirent _ => (h.linked dirent hdirent).2, ?_, ?_, ?_,
    h.walks hworkspace⟩
  · obtain ⟨row, hrow, hid, hkind⟩ := h.tree.rootInner _ (isRoot hworkspace)
    refine ⟨row, hrow, hid, ?_⟩
    cases hinode : row.inode <;> simp [hinode, Inode.kind] at hkind ⊢
  · intro left hleft right hright _ hdirectory hsame
    obtain ⟨leftParent, leftName, child⟩ := left
    obtain ⟨rightParent, rightName, rightChild⟩ := right
    simp only at hsame hdirectory
    subst hsame
    obtain ⟨rfl, rfl⟩ := h.tree.single _ _ _ _ _ hdirectory hleft hright
    rfl
  · obtain ⟨rank, hrank⟩ := h.tree.exists_rank
    have hlt : ∀ above child,
        Relation.TransGen (fun parent child => ∃ name, db.Edge parent name child)
          above child → db.IsDirectory child → rank above < rank child := by
      intro above child hpath
      induction hpath with
      | single hedge =>
          obtain ⟨name, hedge⟩ := hedge
          exact fun hdirectory => hrank _ _ _ hedge hdirectory
      | tail _ hedge ih =>
          obtain ⟨name, hedge⟩ := hedge
          intro hdirectory
          have hmiddle := h.tree.parent _ _ _ hedge
          exact (ih hmiddle).trans (hrank _ _ _ hedge hdirectory)
    intro id _ hcircle
    have hdirectory : db.IsDirectory id := by
      obtain ⟨child, ⟨name, hedge⟩, _⟩ := Relation.TransGen.head'_iff.mp hcircle
      exact h.tree.parent _ _ _ hedge
    exact absurd (hlt id id hcircle hdirectory) (lt_irrefl _)
  · intro row hrow howner
    rcases h.held row hrow with ⟨owner, hmem, hid⟩ | hheld | hnone
    · left
      have hsame := h.rootOwned owner hmem
      rw [hid] at hsame
      rw [← hid, eq_of_key h.workspaceIds hmem hworkspace
        (h.owner_unique hsame ⟨row, hrow, rfl, howner⟩)]
    · exact .inr hheld
    · cases hnone

end Db

/-- Every workspace keeps its tree as long as no step takes its root away. -/
theorem arboreal_of_kept_roots (P : Platform) (actions : List Action)
    (hkept : ∀ k action, actions[k]? = some action →
      ((World.empty : World P).run (actions.take k)).KeepsRoots action) :
    ∀ workspace ∈ ((World.empty : World P).run actions).db.workspaces,
      ((World.empty : World P).run actions).db.Arboreal workspace :=
  fun _ hworkspace =>
    (World.run_forest World.empty_forest hkept).arboreal hworkspace

/-- Only the removal of the empty path takes a root away. -/
theorem not_batchTakesRoot {U : Unicode} {workspace : WorkspaceRow} {db : Db}
    {mutations : List Mutation} (h : .rmdir [] ∉ mutations) :
    ¬ BatchTakesRoot U workspace db mutations := by
  induction mutations generalizing db with
  | nil => exact id
  | cons mutation mutations ih =>
      rw [List.mem_cons, not_or] at h
      rintro (htakes | ⟨db', _, hbatch⟩)
      · cases mutation with
        | rmdir path =>
            obtain ⟨rfl, _⟩ := htakes
            exact h.1 rfl
        | _ => exact htakes
      · exact ih h.2 hbatch

/-! A root removed by the empty path, and a directory removed by its own. -/

namespace RootRemoved

def platform : Platform := ⟨asciiUnicode, sha256, fun _ => none⟩

def removed : World platform :=
  World.run .empty
    [.createWorkspace ['w'], .beginCommit ['w'] [.rmdir []], .advance 0]

def released : World platform :=
  World.run .empty [.createWorkspace ['w'],
    .acquireUnlinkedLease ['w'] [] ['h'], .releaseLease 1]

def row : WorkspaceRow := ⟨1, ['w'], 1, 1⟩

def directory : List Action :=
  [.createWorkspace ['w'], .beginCommit ['w'] [.mkdir ['d']], .advance 0,
    .acquireUnlinkedLease ['w'] ['d'] ['h'],
    .beginCommit ['w'] [.rmdir ['d']], .advance 0, .releaseLease 1]

def begun (k : Nat) : World platform := World.run .empty (directory.take k)

theorem directory_kept (k : Nat) (action : Action)
    (haction : directory[k]? = some action) :
    (begun k).KeepsRoots action := by
  match k with
  | 0 =>
      cases haction
      trivial
  | 1 =>
      cases haction
      trivial
  | 2 =>
      cases haction
      intro call hcall htakes
      have hbegun : (begun 2).calls[0]? =
          some (.commit ['w'] [.mkdir ['d']] []) := rfl
      rw [hbegun] at hcall
      cases hcall
      obtain ⟨_, _, _, hbatch⟩ := htakes
      exact not_batchTakesRoot (by simp) hbatch
  | 3 =>
      cases haction
      trivial
  | 4 =>
      cases haction
      trivial
  | 5 =>
      cases haction
      intro call hcall htakes
      have hbegun : (begun 5).calls[0]? =
          some (.commit ['w'] [.rmdir ['d']] []) := rfl
      rw [hbegun] at hcall
      cases hcall
      obtain ⟨_, _, _, hbatch⟩ := htakes
      exact not_batchTakesRoot (by simp) hbatch
  | 6 =>
      cases haction
      intro lease hlease id hid hroot
      have hfound : (begun 6).db.lease 1 =
          some ⟨1, .unlinked, ['h'], some 1, some 2⟩ := by
        decide +kernel
      rw [hfound] at hlease
      cases hlease
      cases hid
      have hother : ∀ workspace ∈ (begun 6).db.workspaces,
          workspace.rootInode ≠ 2 := by
        decide +kernel
      obtain ⟨workspace, hworkspace, hrootInode⟩ := hroot
      exact absurd hrootInode (hother workspace hworkspace)
  | k + 7 => simp [directory] at haction

end RootRemoved

/-- The root goes with an rmdir of the empty path, and with the last lease on
it. -/
theorem rmdir_empty_path_takes_root :
    RootRemoved.removed.db.workspaces = [RootRemoved.row] ∧
      ¬ RootRemoved.removed.db.Arboreal RootRemoved.row ∧
      RootRemoved.released.db.workspaces =
        [{ RootRemoved.row with headGeneration := 0 }] ∧
      ¬ RootRemoved.released.db.Arboreal
        { RootRemoved.row with headGeneration := 0 } := by
  have hremoved : RootRemoved.removed.db.inodes = [] := by decide +kernel
  have hreleased : RootRemoved.released.db.inodes = [] := by decide +kernel
  refine ⟨by decide +kernel, fun h => ?_, by decide +kernel, fun h => ?_⟩
  · obtain ⟨row, hrow, _⟩ := h.root
    rw [hremoved] at hrow
    cases hrow
  · obtain ⟨row, hrow, _⟩ := h.root
    rw [hreleased] at hrow
    cases hrow

/-- A directory that is removed while a lease holds it, and then released. -/
theorem arboreal_leased_directory :
    (World.run .empty RootRemoved.directory :
        World RootRemoved.platform).db.workspaces =
        [{ RootRemoved.row with headGeneration := 2 }] ∧
      ∀ workspace ∈ (World.run .empty RootRemoved.directory :
          World RootRemoved.platform).db.workspaces,
        (World.run .empty RootRemoved.directory :
          World RootRemoved.platform).db.Arboreal workspace :=
  ⟨by decide +kernel, arboreal_of_kept_roots RootRemoved.platform
    RootRemoved.directory RootRemoved.directory_kept⟩

end TensorFS
