import Mathlib.Data.List.Basic
import Mathlib.Logic.Function.Basic

namespace TensorFS.Data

/-! A file system that can lose power.  A directory entry keeps the values a
crash may bring back until its directory is synced; the content of a file that
was not synced is anything after a crash. -/

inductive Node where
  | file (inode : Nat)
  | directory (inode : Nat)
  deriving DecidableEq

def Node.inode : Node → Nat
  | .file inode | .directory inode => inode

structure Inode (β : Type) where
  content : β
  synced : Bool
  modified : Nat

structure Volume (Name β : Type) where
  lookup : Nat → Name → Option Node
  stale : Nat → Name → List (Option Node)
  inode : Nat → Inode β
  next : Nat

namespace Volume

variable {Name β : Type} {disk : Volume Name β} {dir : Nat} {name : Name}

/-- What the name stands for, or may stand for after a crash. -/
def values (disk : Volume Name β) (dir : Nat) (name : Name) :
    List (Option Node) :=
  disk.lookup dir name :: disk.stale dir name

theorem lookup_mem : disk.lookup dir name ∈ disk.values dir name :=
  List.mem_cons_self

def edit (disk : Volume Name β) (inode : Nat) (content : β) (now : Nat) :
    Volume Name β :=
  { disk with inode := Function.update disk.inode inode ⟨content, false, now⟩ }

def sync (disk : Volume Name β) (inode : Nat) : Volume Name β :=
  { disk with
    inode := Function.update disk.inode inode
      { disk.inode inode with synced := true } }

def syncDirectory (disk : Volume Name β) (dir : Nat) : Volume Name β :=
  { disk with
    stale := fun at' name => if at' = dir then [] else disk.stale at' name }

/-- Each name keeps one of its values and each synced file its content. -/
structure Crash (disk later : Volume Name β) : Prop where
  lookup : ∀ dir name, later.lookup dir name ∈ disk.values dir name
  stale : ∀ dir name, later.stale dir name = []
  inode : ∀ inode, (disk.inode inode).synced = true →
    later.inode inode = disk.inode inode
  synced : ∀ inode, (later.inode inode).synced = true
  next : later.next = disk.next

section Write

variable [DecidableEq Name]

def write (disk : Volume Name β) (dir : Nat) (name : Name)
    (value : Option Node) : Volume Name β :=
  { disk with
    lookup := fun at' name' =>
      if at' = dir ∧ name' = name then value else disk.lookup at' name'
    stale := fun at' name' =>
      if at' = dir ∧ name' = name then disk.values at' name'
      else disk.stale at' name' }

def unlink (disk : Volume Name β) (dir : Nat) (name : Name) : Volume Name β :=
  disk.write dir name none

def link (disk : Volume Name β) (dir : Nat) (name : Name) (node : Node) :
    Volume Name β :=
  disk.write dir name (some node)

/-- A directory entry takes another name in its directory, at the cost of what
had that name. -/
def rename (disk : Volume Name β) (dir : Nat) (source target : Name) :
    Volume Name β :=
  match disk.lookup dir source with
  | some node => (disk.link dir target node).unlink dir source
  | none => disk

def create (disk : Volume Name β) (dir : Nat) (name : Name) (content : β)
    (now : Nat) : Volume Name β :=
  { disk.edit disk.next content now with next := disk.next + 1 }.link dir name
    (.file disk.next)

def makeDirectory (disk : Volume Name β) (dir : Nat) (name : Name) :
    Volume Name β :=
  { disk with next := disk.next + 1 }.link dir name (.directory disk.next)

end Write

end Volume

namespace Volume

variable {Name β : Type} {disk later : Volume Name β} {dir other inode : Nat}
  {name key : Name} {value : Option Node} {path : List Name}

/-! What names can ever stand for. -/

/-- A condition on every entry, those a crash may bring back included. -/
def Named (disk : Volume Name β) (Q : Nat → Name → Node → Prop) : Prop :=
  ∀ dir name node, some node ∈ disk.values dir name → Q dir name node

/-- An entry that no crash changes. -/
def Settled (disk : Volume Name β) (dir : Nat) (name : Name)
    (value : Option Node) : Prop :=
  ∀ found ∈ disk.values dir name, found = value

theorem Named.mono {Q R : Nat → Name → Node → Prop} (h : disk.Named Q)
    (himp : ∀ dir name node, Q dir name node → R dir name node) :
    disk.Named R :=
  fun dir name node hmem => himp dir name node (h dir name node hmem)

theorem Settled.lookup (h : disk.Settled dir name value) :
    disk.lookup dir name = value :=
  h _ lookup_mem

theorem values_syncDirectory :
    (disk.syncDirectory other).values dir name =
      if dir = other then [disk.lookup dir name] else disk.values dir name := by
  simp only [values, syncDirectory]
  split <;> rfl

theorem mem_values_syncDirectory
    (h : value ∈ (disk.syncDirectory other).values dir name) :
    value ∈ disk.values dir name := by
  rw [values_syncDirectory] at h
  split at h
  · exact List.mem_singleton.mp h ▸ lookup_mem
  · exact h

theorem settled_syncDirectory :
    (disk.syncDirectory dir).Settled dir name (disk.lookup dir name) := by
  intro found hfound
  rw [values_syncDirectory, if_pos rfl] at hfound
  exact List.mem_singleton.mp hfound

namespace Crash

variable (h : disk.Crash later)
include h

theorem values : later.values dir name = [later.lookup dir name] := by
  rw [Volume.values, h.stale]

theorem mem_values (hmem : value ∈ later.values dir name) :
    value ∈ disk.values dir name := by
  rw [h.values] at hmem
  exact List.mem_singleton.mp hmem ▸ h.lookup dir name

theorem settled (hsettled : disk.Settled dir name value) :
    later.Settled dir name value :=
  fun found hfound => hsettled found (h.mem_values hfound)

end Crash

/-- What is left when nothing that could be lost was kept. -/
def oldest (disk : Volume Name β) : Volume Name β where
  lookup dir name := (disk.values dir name).getLast (by simp [values])
  stale _ _ := []
  inode at' := ⟨(disk.inode at').content, true, (disk.inode at').modified⟩
  next := disk.next

theorem crash_oldest : disk.Crash disk.oldest where
  lookup _ _ := List.getLast_mem _
  stale _ _ := rfl
  inode at' h := by
    change Inode.mk _ true _ = disk.inode at'
    rw [← h]
  synced _ := rfl
  next := rfl

section Write

variable [DecidableEq Name]

/-- What is left when one name kept a value of its own. -/
def keeping (disk : Volume Name β) (dir : Nat) (name : Name)
    (value : Option Node) : Volume Name β :=
  { disk.oldest with
    lookup := fun other key =>
      if other = dir ∧ key = name then value
      else disk.oldest.lookup other key }

theorem crash_keeping (h : value ∈ disk.values dir name) :
    disk.Crash (disk.keeping dir name value) where
  lookup other key := by
    change (if other = dir ∧ key = name then value else _) ∈ _
    split
    · rename_i heq
      rw [heq.1, heq.2]
      exact h
    · exact crash_oldest.lookup other key
  stale _ _ := rfl
  inode := disk.crash_oldest.inode
  synced _ := rfl
  next := rfl

theorem lookup_write :
    (disk.write other key value).lookup dir name =
      if dir = other ∧ name = key then value else disk.lookup dir name := rfl

theorem values_write :
    (disk.write other key value).values dir name =
      if dir = other ∧ name = key then value :: disk.values dir name
      else disk.values dir name := by
  simp only [values, write]
  split
  · rename_i h
    rw [h.1, h.2]
  · rfl

theorem mem_values_write {found : Option Node} :
    found ∈ (disk.write other key value).values dir name ↔
      (dir = other ∧ name = key ∧ found = value) ∨
        found ∈ disk.values dir name := by
  rw [values_write]
  split
  · rename_i h
    simp [h.1, h.2]
  · rename_i h
    constructor
    · exact .inr
    · rintro (⟨hdir, hname, -⟩ | hfound)
      · exact absurd ⟨hdir, hname⟩ h
      · exact hfound

theorem lookup_rename {source target : Name} {node : Node}
    (h : disk.lookup other source = some node) :
    (disk.rename other source target).lookup dir name =
      if dir = other ∧ name = source then none
      else if dir = other ∧ name = target then some node
      else disk.lookup dir name := by
  rw [rename, h]
  rfl

theorem mem_values_rename {source target : Name} {found : Option Node}
    (h : found ∈ (disk.rename other source target).values dir name) :
    (dir = other ∧ name = source ∧ found = none) ∨
      (dir = other ∧ name = target ∧ found = disk.lookup other source) ∨
        found ∈ disk.values dir name := by
  unfold rename at h
  split at h
  · rename_i node hlookup
    rcases mem_values_write.mp h with hsource | h
    · exact .inl hsource
    · rw [hlookup]
      exact .inr (mem_values_write.mp h)
  · exact .inr (.inr h)

theorem inode_rename {source target : Name} :
    (disk.rename other source target).inode = disk.inode := by
  unfold rename
  split <;> rfl

theorem next_rename {source target : Name} :
    (disk.rename other source target).next = disk.next := by
  unfold rename
  split <;> rfl

theorem mem_values_create {content : β} {now : Nat} {found : Option Node} :
    found ∈ (disk.create other key content now).values dir name ↔
      (dir = other ∧ name = key ∧ found = some (.file disk.next)) ∨
        found ∈ disk.values dir name :=
  mem_values_write

theorem mem_values_makeDirectory {found : Option Node} :
    found ∈ (disk.makeDirectory other key).values dir name ↔
      (dir = other ∧ name = key ∧ found = some (.directory disk.next)) ∨
        found ∈ disk.values dir name :=
  mem_values_write

end Write

/-! Paths below a directory. -/

def directoryAt (disk : Volume Name β) : Nat → List Name → Option Nat
  | dir, [] => some dir
  | dir, name :: path =>
      match disk.lookup dir name with
      | some (.directory below) => directoryAt disk below path
      | _ => none

def nodeAt (disk : Volume Name β) (dir : Nat) (path : List Name)
    (name : Name) : Option Node :=
  (disk.directoryAt dir path).bind fun parent => disk.lookup parent name

def fileAt (disk : Volume Name β) (dir : Nat) (path : List Name)
    (name : Name) : Option Nat :=
  match disk.nodeAt dir path name with
  | some (.file inode) => some inode
  | _ => none

theorem fileAt_eq_some :
    disk.fileAt dir path name = some inode ↔
      ∃ parent, disk.directoryAt dir path = some parent ∧
        disk.lookup parent name = some (.file inode) := by
  have hnode : disk.fileAt dir path name = some inode ↔
      disk.nodeAt dir path name = some (.file inode) := by
    unfold fileAt
    split
    · rename_i found heq
      rw [heq]
      simp
    · rename_i hne
      constructor
      · intro h
        cases h
      · exact fun h => absurd h (hne inode)
  rw [hnode, nodeAt, Option.bind_eq_some_iff]

theorem directoryAt_cons {target : Nat} :
    disk.directoryAt dir (name :: path) = some target ↔
      ∃ below, disk.lookup dir name = some (.directory below) ∧
        disk.directoryAt below path = some target := by
  rw [directoryAt]
  split
  · rename_i below heq
    simp [heq]
  · rename_i hne
    constructor
    · intro h
      cases h
    · rintro ⟨below, hlookup, -⟩
      exact absurd hlookup (hne below)

theorem directoryAt_congr (h : ∀ dir name, later.lookup dir name =
    disk.lookup dir name) : later.directoryAt dir path =
      disk.directoryAt dir path := by
  induction path generalizing dir with
  | nil => rfl
  | cons name path ih =>
      simp only [directoryAt, h]
      split
      · exact ih
      · rfl

/-- More directories lead at least as far. -/
theorem directoryAt_of {target : Nat}
    (h : disk.directoryAt dir path = some target)
    (hkeep : ∀ dir name below, disk.lookup dir name = some (.directory below) →
      later.lookup dir name = some (.directory below)) :
    later.directoryAt dir path = some target := by
  induction path generalizing dir with
  | nil => exact h
  | cons name path ih =>
      obtain ⟨below, hlookup, hbelow⟩ := directoryAt_cons.mp h
      exact directoryAt_cons.mpr ⟨below, hkeep _ _ _ hlookup, ih hbelow⟩

/-- A condition on the directories that are named, at the end of a path. -/
theorem directoryAt_named {Q : Nat → Prop} {target : Nat}
    (h : disk.directoryAt dir path = some target) (hdir : Q dir)
    (hnamed : disk.Named fun _ _ node =>
      ∀ below, node = .directory below → Q below) : Q target := by
  induction path generalizing dir with
  | nil => exact Option.some.inj h ▸ hdir
  | cons name path ih =>
      obtain ⟨below, hlookup, hbelow⟩ := directoryAt_cons.mp h
      exact ih hbelow (hnamed dir name _ (hlookup ▸ lookup_mem) below rfl)

section Write

variable [DecidableEq Name]

/-- A path that does not use the name leads where it led. -/
theorem directoryAt_write_of_not_mem (h : key ∉ path) :
    (disk.write other key value).directoryAt dir path =
      disk.directoryAt dir path := by
  induction path generalizing dir with
  | nil => rfl
  | cons name path ih =>
      have hne : ¬ (dir = other ∧ name = key) :=
        fun heq => h (heq.2 ▸ List.mem_cons_self)
      simp only [directoryAt, lookup_write, if_neg hne]
      split
      · exact ih fun hmem => h (List.mem_cons_of_mem _ hmem)
      · rfl

theorem directoryAt_write_of_ne (hdir : dir ≠ other)
    (hroot : disk.Named fun _ _ node => node ≠ .directory other) :
    (disk.write other key value).directoryAt dir path =
      disk.directoryAt dir path := by
  induction path generalizing dir with
  | nil => rfl
  | cons name path ih =>
      have hne : ¬ (dir = other ∧ name = key) := fun heq => hdir heq.1
      simp only [directoryAt, lookup_write, if_neg hne]
      split
      · rename_i below hlookup
        apply ih
        rintro rfl
        exact hroot dir name _ (hlookup ▸ lookup_mem) rfl
      · rfl

end Write

end Volume

end TensorFS.Data
