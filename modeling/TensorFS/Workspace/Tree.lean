import TensorFS.Tfm1.Bijection
import TensorFS.Workspace.Mutation

namespace TensorFS

open Data

/-! Reading the committed tree back out of the dirent graph. -/

def childPath (base name : Text) : Text :=
  if base = [] then name else base ++ '/' :: name

def visitChildren (db : Db) (inode : Nat) (base : Text) :
    List (Text × InodeRow) :=
  (db.children inode).map fun pair => (childPath base pair.1, pair.2)

def visitedDirectories (visited : List (Text × InodeRow)) :
    List (Nat × Text) :=
  visited.filterMap fun pair =>
    if pair.2.inode.kind = .directory then some (pair.2.id, pair.1) else none

/-- The stack walk, top of the stack first.  `fuel` bounds the number of pops;
`none` is a walk that goes on. -/
def stageWalk (db : Db) :
    Nat → List (Nat × Text) → Option (List (Text × InodeRow))
  | _, [] => some []
  | 0, _ :: _ => none
  | fuel + 1, (inode, base) :: stack => do
      let visited := visitChildren db inode base
      let rest ← stageWalk db fuel
        ((visitedDirectories visited).reverse ++ stack)
      some (visited ++ rest)

def stageDirectory (pair : Text × InodeRow) : Option (Text × Pending) :=
  match pair.2.inode with
  | .directory => some (pair.1, .directory)
  | _ => none

def stageSymlink (pair : Text × InodeRow) : Option (Text × Pending) :=
  match pair.2.inode with
  | .symlink target => some (pair.1, .symlink target)
  | _ => none

def pathsByInode :
    OrdMap Nat (List Text) → List (Text × InodeRow) → OrdMap Nat (List Text)
  | paths, [] => paths
  | paths, (path, row) :: rest =>
      if row.inode.kind = .file then
        pathsByInode
          (paths.insert row.id ((paths.get? row.id).getD [] ++ [path])) rest
      else pathsByInode paths rest

/-- One hardlink group: the body at its first sorted path, links to it at the
others. -/
def stageGroup (db : Db) (inode : Nat) (paths : List Text) :
    List (Text × Pending) :=
  match paths.insertionSort (· ≤ ·), (db.inode inode).map InodeRow.inode with
  | carrier :: links, some (.file executable planner contract) =>
      (carrier, .file executable planner contract (db.readRecords inode)) ::
        links.map fun path => (path, .hardlinkTo carrier)
  | _, _ => []

/-- A pop for every dirent and one for the root: more than a tree needs. -/
def Db.walkFuel (db : Db) : Nat := db.dirents.length + 1

def stagePending (db : Db) (visited : List (Text × InodeRow)) :
    List (Text × Pending) :=
  visited.filterMap stageDirectory ++ visited.filterMap stageSymlink ++
    (pathsByInode .empty visited).entries.flatMap
      fun group => stageGroup db group.1 group.2

/-- A walk that does not end grows its vectors until the allocator gives up,
as it does at the latest for a vector longer than a 64-bit length. -/
def stageBuilder (db : Db) (workspace : WorkspaceRow)
    (parent : Option SnapshotId) : Outcome SnapshotBuilder :=
  match stageWalk db db.walkFuel [(workspace.rootInode, [])] with
  | some visited => do
      ensure ((stagePending db visited).length < 2 ^ 64) .panicked
      .ok ⟨parent, stagePending db visited⟩
  | none => .error .panicked

def buildTree (U : Unicode) (db : Db) (workspace : WorkspaceRow) :
    Outcome HeadTree := do
  let builder ← stageBuilder db workspace none
  checked (builder.finishTree U)

def buildSnapshot (U : Unicode) (db : Db) (workspace : WorkspaceRow)
    (parent : Option SnapshotId) : Outcome Snapshot := do
  let builder ← stageBuilder db workspace parent
  checked (builder.finish U)

def headTree (U : Unicode) (db : Db) (name : Text) : Outcome HeadTree := do
  let workspace ← db.workspaceRow name
  buildTree U db workspace

end TensorFS
