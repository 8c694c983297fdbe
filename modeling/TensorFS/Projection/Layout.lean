import TensorFS.Data.Volume
import TensorFS.Layout.Morphism
import TensorFS.Projection.Tree

namespace TensorFS.Projection

open Data

/-! Projected trees and refs as processes on one volume, a system call a step.
Any process may be killed, any call may fail, and the machine may lose power
between two steps. -/

def tmpDir : Nat := 0
def refsDir : Nat := 1
def snapshotsDir : Nat := 2

/-- What an inode holds. -/
inductive Content where
  | bytes (bytes : Bytes)
  | tree (tree : Tree)
  deriving DecidableEq

inductive LayoutError where
  | io
  | invalidRefName (name : Text)
  | unreadableRef (name : Text)
  deriving DecidableEq

inductive Removal where
  | taken
  | absent
  deriving DecidableEq

/-! Names. -/

def scratchToken (process sequence nanos : Nat) : Text :=
  decimal process ++ '-' :: decimal sequence ++ '-' :: decimal nanos

def buildingName (token : Text) : Text := ".building-".toList ++ token
def removedName (token : Text) : Text := ".removed-".toList ++ token
def swapName (token : Text) : Text := ".swap-".toList ++ token

def leaseName (token : Text) : Text :=
  "building-".toList ++ token ++ ".tmp".toList

/-- A ref is one safe path segment. -/
def isRefName (name : Text) : Bool :=
  ! (name.isEmpty || name.utf8Len > 255 || name = ['.'] ||
    name = ['.', '.'] || name.head? = some '.' || name.contains '/' ||
    name.contains '\\' || name.contains '\x00')

def validatedRefName (name : Text) : Except LayoutError Text :=
  if isRefName name then .ok name else .error (.invalidRefName name)

def refBytes (id : SnapshotId) : Bytes :=
  Text.utf8 (Install.toHex id ++ ['\n'])

def parseRef (bytes : Bytes) : Option SnapshotId :=
  (Text.fromUtf8 bytes).bind fun text =>
    SnapshotId.parseHex (LayoutMorphism.trim text)

/-! Processes. -/

/-- The lease of a scratch artifact. -/
structure Lease where
  token : Text
  inode : Nat
  deriving DecidableEq

/-- The two operations that work under a lease. -/
inductive Job where
  | project (snapshot : Snapshot) (symlinks : Bool)
  | set (name : Text) (id : SnapshotId)
  deriving DecidableEq

namespace Job

def scratch : Job → Text → Nat × Text
  | .project _ _, token => (snapshotsDir, buildingName token)
  | .set _ _, token => (refsDir, swapName token)

end Job

/-- Where the work under a lease stands, by the call that returned last. -/
inductive Work where
  | started
  | filling (rest : List (Text × Entry))
  | refused
  | staged (inode : Nat)
  | written (inode : Nat)
  | synced (inode : Nat)
  deriving DecidableEq

/-- Where the deletion of one name stands. -/
inductive Walk where
  | entering
  | emptying (inode : Nat)
  deriving DecidableEq

inductive Stage where
  | asked
  | absent
  | drawn (token : Text)
  | created (lease : Lease)
  | working (lease : Lease) (work : Work)
  | clearing (lease : Lease) (outcome : Except LayoutError Unit) (walk : Walk)
  | unlocking (lease : Lease) (outcome : Except LayoutError Unit)
  | unleasing (lease : Lease) (outcome : Except LayoutError Unit)
  | answered (outcome : Except LayoutError Unit)
  deriving DecidableEq

inductive ReadStage where
  | asked
  | opened (inode : Nat)
  | answered (found : Except LayoutError (Option SnapshotId))
  deriving DecidableEq

/-- What a removal takes away. -/
inductive Target where
  | tree (id : SnapshotId)
  | ref (name : Text)
  deriving DecidableEq

namespace Target

def dir : Target → Nat
  | .tree _ => snapshotsDir
  | .ref _ => refsDir

def name : Target → Text
  | .tree id => treeName id
  | .ref name => name

end Target

inductive RemoveStage where
  | asked
  | named
  | drawn (token : Text)
  | claimed (token : Text) (walk : Walk)
  | answered (outcome : Except LayoutError Removal)
  deriving DecidableEq

/-- What a reap may find. -/
inductive Scratch where
  | building (token : Text)
  | swap (token : Text)
  | removed (dir : Nat) (token : Text)
  | lease (token : Text)
  deriving DecidableEq

namespace Scratch

def dir : Scratch → Nat
  | .building _ => snapshotsDir
  | .swap _ => refsDir
  | .removed dir _ => dir
  | .lease _ => tmpDir

def name : Scratch → Text
  | .building token => buildingName token
  | .swap token => swapName token
  | .removed _ token => removedName token
  | .lease token => leaseName token

/-- The lease that answers for it; a removed artifact has none. -/
def leased : Scratch → Option Text
  | .building token | .swap token | .lease token => some token
  | .removed _ _ => none

end Scratch

inductive ReapStage where
  | listed
  | opened (inode : Nat)
  | held (inode : Nat)
  | doomed (walk : Walk)
  | finished
  deriving DecidableEq

inductive Process where
  | creator (job : Job) (stage : Stage)
  | reader (name : Text) (stage : ReadStage)
  | remover (target : Target) (stage : RemoveStage)
  | reaper (scratch : Scratch) (stage : ReapStage)
  deriving DecidableEq

structure Machine where
  disk : Volume Text Content
  lock : Nat → Option Nat
  process : Nat → Option Process
  issued : List Text

/-- A system call that changes something. -/
inductive Call where
  | nothing
  | lock (inode : Nat)
  | unlock (inode : Nat)
  | makeFile (dir : Nat) (name : Text)
  | makeTree (dir : Nat) (name : Text)
  | edit (inode : Nat) (content : Content)
  | sync (inode : Nat)
  | rename (dir : Nat) (source target : Text)
  | unlink (dir : Nat) (name : Text)
  deriving DecidableEq

namespace Machine

variable (m : Machine)

/-- The layout of a store just opened. -/
def start : Machine where
  disk := ⟨fun _ _ => none, fun _ _ => [], fun _ => ⟨.bytes [], true, 0⟩, 3⟩
  lock _ := none
  process _ := none
  issued := []

def become (who : Nat) (process : Process) : Machine :=
  { m with process := Function.update m.process who (some process) }

def onDisk (disk : Volume Text Content) : Machine := { m with disk := disk }

def perform (who : Nat) : Call → Machine
  | .nothing => m
  | .lock inode => { m with lock := Function.update m.lock inode (some who) }
  | .unlock inode => { m with lock := Function.update m.lock inode none }
  | .makeFile dir name => m.onDisk (m.disk.create dir name (.bytes []) 0)
  | .makeTree dir name => m.onDisk <|
      { m.disk.edit m.disk.next (.tree []) 0 with
        next := m.disk.next + 1 }.link dir name (.directory m.disk.next)
  | .edit inode content => m.onDisk (m.disk.edit inode content 0)
  | .sync inode => m.onDisk (m.disk.sync inode)
  | .rename dir source target => m.onDisk (m.disk.rename dir source target)
  | .unlink dir name => m.onDisk (m.disk.unlink dir name)

def content (inode : Nat) : Content := (m.disk.inode inode).content

/-- The tree under a name. -/
def treeAt (dir : Nat) (name : Text) : Option (Nat × Tree) :=
  match m.disk.lookup dir name with
  | some (.directory inode) =>
      match m.content inode with
      | .tree tree => some (inode, tree)
      | .bytes _ => none
  | _ => none

end Machine

/-- What a step takes from outside: whether its call fails, and how much of a
write goes through before it does; what the object store answers; and which
path a deletion comes to. -/
structure Outside where
  fault : Option Nat
  view : ObjectDigest → Option Bytes
  leaf : Text

section Plan

variable (P : Platform) (o : Outside) (m : Machine)

/-- The next call of a deletion, `none` once it is over: a file is unlinked, a
directory emptied first. -/
def walkNext (dir : Nat) (name : Text) : Walk → Call × Option Walk
  | .entering =>
      match o.fault, m.disk.lookup dir name with
      | none, some (.directory inode) => (.nothing, some (.emptying inode))
      | none, some (.file _) => (.unlink dir name, none)
      | _, _ => (.nothing, none)
  | .emptying inode =>
      match o.fault, m.content inode with
      | none, .tree [] =>
          match m.treeAt dir name with
          | some (_, []) => (.unlink dir name, none)
          | _ => (.nothing, none)
      | none, .tree tree =>
          match tree.erase o.leaf with
          | some left => (.edit inode (.tree left), some (.emptying inode))
          | none => (.nothing, some (.emptying inode))
      | _, _ => (.nothing, none)

def giveUp (lease : Lease) : Call × Stage :=
  (.nothing, .clearing lease (.error .io) .entering)

/-- One entry of `fill`; a write that fails may have put down a part. -/
def fillNext (lease : Lease) (symlinks : Bool) (snapshot : Snapshot)
    (path : Text) (entry : Entry) (rest : List (Text × Entry)) :
    Call × Stage :=
  match m.treeAt snapshotsDir (buildingName lease.token),
    projectEntry P o.view symlinks snapshot path entry, o.fault with
  | some (inode, tree), some artifact, none =>
      match tree.place path artifact with
      | some after =>
          (.edit inode (.tree after), .working lease (.filling rest))
      | none => giveUp lease
  | some (inode, tree), some (.file bytes), some (torn + 1) =>
      match tree.place path (.file (bytes.take torn)) with
      | some after =>
          (.edit inode (.tree after),
            .clearing lease (.error .io) .entering)
      | none => giveUp lease
  | _, _, _ => giveUp lease

/-- A directory takes a name that is free or names an empty one. -/
def renameTree (lease : Lease) (id : SnapshotId) : Call × Stage :=
  match o.fault, m.disk.lookup snapshotsDir (buildingName lease.token),
    m.disk.lookup snapshotsDir (treeName id) with
  | none, some _, none =>
      (.rename snapshotsDir (buildingName lease.token) (treeName id),
        .clearing lease (.ok ()) .entering)
  | none, some _, some (.directory old) =>
      if m.content old = .tree [] then
        (.rename snapshotsDir (buildingName lease.token) (treeName id),
          .clearing lease (.ok ()) .entering)
      else (.nothing, .working lease .refused)
  | _, _, _ => (.nothing, .working lease .refused)

def projectNext (snapshot : Snapshot) (symlinks : Bool) (lease : Lease) :
    Work → Call × Stage
  | .started =>
      match o.fault,
        m.disk.lookup snapshotsDir (buildingName lease.token) with
      | none, none =>
          (.makeTree snapshotsDir (buildingName lease.token),
            .working lease (.filling snapshot.entries))
      | _, _ => giveUp lease
  | .filling ((path, entry) :: rest) =>
      fillNext P o m lease symlinks snapshot path entry rest
  | .filling [] => renameTree o m lease (P.sha256 snapshot.toBytes)
  | .refused =>
      -- another projector of the same snapshot may have won
      match o.fault, m.disk.lookup snapshotsDir
          (treeName (P.sha256 snapshot.toBytes)) with
      | none, some _ => (.nothing, .clearing lease (.ok ()) .entering)
      | _, _ => giveUp lease
  | _ => giveUp lease

def setNext (name : Text) (id : SnapshotId) (lease : Lease) :
    Work → Call × Stage
  | .started =>
      match o.fault, m.disk.lookup refsDir (swapName lease.token) with
      | none, none =>
          (.makeFile refsDir (swapName lease.token),
            .working lease (.staged m.disk.next))
      | _, _ => giveUp lease
  | .staged inode =>
      match o.fault with
      | none =>
          (.edit inode (.bytes (refBytes id)),
            .working lease (.written inode))
      | some torn =>
          (.edit inode (.bytes ((refBytes id).take torn)),
            .clearing lease (.error .io) .entering)
  | .written inode =>
      match o.fault with
      | none => (.sync inode, .working lease (.synced inode))
      | some _ => giveUp lease
  | .synced _ =>
      match o.fault, m.disk.lookup refsDir (swapName lease.token),
        m.disk.lookup refsDir name with
      | none, some _, some (.directory _) => giveUp lease
      | none, some _, _ =>
          (.rename refsDir (swapName lease.token) name,
            .clearing lease (.ok ()) .entering)
      | _, _, _ => giveUp lease
  | _ => giveUp lease

def workNext (lease : Lease) (work : Work) : Job → Call × Stage
  | .project snapshot symlinks =>
      projectNext P o m snapshot symlinks lease work
  | .set name id => setNext o m name id lease work

/-- The next call of an operation that works under a lease; `none` when it
waits for a token or is over. -/
def creatorNext (job : Job) : Stage → Option (Call × Stage)
  | .asked => some <|
      match job with
      | .project snapshot _ =>
          match o.fault, m.disk.lookup snapshotsDir
              (treeName (P.sha256 snapshot.toBytes)) with
          | none, some _ => (.nothing, .answered (.ok ()))
          | _, _ => (.nothing, .absent)
      | .set name _ =>
          match validatedRefName name with
          | .ok _ => (.nothing, .absent)
          | .error error => (.nothing, .answered (.error error))
  | .drawn token => some <|
      match o.fault, m.disk.lookup tmpDir (leaseName token) with
      | none, none =>
          (.makeFile tmpDir (leaseName token),
            .created ⟨token, m.disk.next⟩)
      | none, some _ => (.nothing, .absent)
      | some _, _ => (.nothing, .answered (.error .io))
  | .created lease => some <|
      match o.fault, m.lock lease.inode with
      | none, none => (.lock lease.inode, .working lease .started)
      | _, _ => (.nothing, .answered (.error .io))
  | .working lease work => some (workNext P o m lease work job)
  | .clearing lease outcome walk => some <|
      match walkNext o m (job.scratch lease.token).1
          (job.scratch lease.token).2 walk with
      | (call, some later) => (call, .clearing lease outcome later)
      | (call, none) => (call, .unlocking lease outcome)
  | .unlocking lease outcome =>
      some (.unlock lease.inode, .unleasing lease outcome)
  | .unleasing lease outcome => some <|
      match o.fault, m.disk.lookup tmpDir (leaseName lease.token) with
      | none, some _ =>
          (.unlink tmpDir (leaseName lease.token), .answered outcome)
      | _, _ => (.nothing, .answered outcome)
  | .absent | .answered _ => none

def readerNext (name : Text) : ReadStage → Option (Call × ReadStage)
  | .asked => some <|
      match validatedRefName name with
      | .error error => (.nothing, .answered (.error error))
      | .ok _ =>
          match o.fault, m.disk.lookup refsDir name with
          | none, none => (.nothing, .answered (.ok none))
          | none, some (.file inode) => (.nothing, .opened inode)
          | _, _ => (.nothing, .answered (.error .io))
  | .opened inode => some <|
      match o.fault, m.content inode with
      | none, .bytes bytes =>
          match parseRef bytes with
          | some id => (.nothing, .answered (.ok (some id)))
          | none => (.nothing, .answered (.error (.unreadableRef name)))
      | _, _ => (.nothing, .answered (.error .io))
  | .answered _ => none

/-- The name goes first and what it named after it. -/
def removerNext (target : Target) : RemoveStage → Option (Call × RemoveStage)
  | .asked => some <|
      match target with
      | .tree _ => (.nothing, .named)
      | .ref name =>
          match validatedRefName name with
          | .ok _ => (.nothing, .named)
          | .error error => (.nothing, .answered (.error error))
  | .named | .answered _ => none
  | .drawn token => some <|
      match o.fault, m.disk.lookup target.dir target.name with
      | none, some _ =>
          (.rename target.dir target.name (removedName token),
            .claimed token .entering)
      | none, none => (.nothing, .answered (.ok .absent))
      | some _, _ => (.nothing, .answered (.error .io))
  | .claimed token walk => some <|
      match walkNext o m target.dir (removedName token) walk with
      | (call, some later) => (call, .claimed token later)
      | (call, none) => (call, .answered (.ok .taken))

/-- One candidate of a reap.  Sampling a lease takes its lock for a moment. -/
def reaperNext (scratch : Scratch) : ReapStage → Option (Call × ReapStage)
  | .listed => some <|
      match scratch.leased with
      | none => (.nothing, .doomed .entering)
      | some token =>
          match o.fault, m.disk.lookup tmpDir (leaseName token) with
          | none, none => (.nothing, .doomed .entering)
          | none, some (.file inode) => (.nothing, .opened inode)
          | _, _ => (.nothing, .finished)
  | .opened inode => some <|
      match o.fault, m.lock inode with
      | none, none => (.lock inode, .held inode)
      | _, _ => (.nothing, .finished)
  | .held inode => some (.unlock inode, .doomed .entering)
  | .doomed walk => some <|
      match walkNext o m scratch.dir scratch.name walk with
      | (call, some later) => (call, .doomed later)
      | (call, none) => (call, .finished)
  | .finished => none

def plan : Process → Option (Call × Process)
  | .creator job stage =>
      (creatorNext P o m job stage).map fun next =>
        (next.1, .creator job next.2)
  | .reader name stage =>
      (readerNext o m name stage).map fun next => (next.1, .reader name next.2)
  | .remover target stage =>
      (removerNext o m target stage).map fun next =>
        (next.1, .remover target next.2)
  | .reaper scratch stage =>
      (reaperNext o m scratch stage).map fun next =>
        (next.1, .reaper scratch next.2)

end Plan

namespace Process

/-- A process that waits for a token takes one. -/
def draw (token : Text) : Process → Option Process
  | .creator job .absent => some (.creator job (.drawn token))
  | .remover target .named => some (.remover target (.drawn token))
  | _ => none

end Process

namespace Machine

variable (m : Machine)

/-- A killed process loses its leases and nothing else. -/
def kill (who : Nat) : Machine :=
  { m with
    lock := fun inode => if m.lock inode = some who then none else m.lock inode
    process := Function.update m.process who none }

def reboot (disk : Volume Text Content) : Machine :=
  { m with disk := disk, lock := fun _ => none, process := fun _ => none }

end Machine

section Step

variable (P : Platform)

/-- A token is drawn from the process, its counter and the clock, so none is
issued twice. -/
inductive Move : Machine → Machine → Prop where
  | project {m : Machine} {who : Nat} {snapshot : Snapshot} (symlinks : Bool)
      (hfree : m.process who = none)
      (hcanonical : Canonical P.unicode snapshot) :
      Move m (m.become who (.creator (.project snapshot symlinks) .asked))
  | set {m : Machine} {who : Nat} (name : Text) (id : SnapshotId)
      (hfree : m.process who = none) :
      Move m (m.become who (.creator (.set name id) .asked))
  | read {m : Machine} {who : Nat} (name : Text)
      (hfree : m.process who = none) :
      Move m (m.become who (.reader name .asked))
  | remove {m : Machine} {who : Nat} (target : Target)
      (hfree : m.process who = none) :
      Move m (m.become who (.remover target .asked))
  | reap {m : Machine} {who : Nat} {scratch : Scratch}
      (hfree : m.process who = none)
      (hdir : scratch.dir = tmpDir → scratch.leased.isSome = true)
      (hlisted : (m.disk.lookup scratch.dir scratch.name).isSome = true) :
      Move m (m.become who (.reaper scratch .listed))
  | draw {m : Machine} {who process sequence nanos : Nat}
      {waiting drawn : Process} (hwaiting : m.process who = some waiting)
      (hissued : scratchToken process sequence nanos ∉ m.issued)
      (hdraw : waiting.draw (scratchToken process sequence nanos) =
        some drawn) :
      Move m ({ m with
        issued := scratchToken process sequence nanos :: m.issued }.become
          who drawn)
  | advance {m : Machine} {who : Nat} {process later : Process} {call : Call}
      {o : Outside} (hprocess : m.process who = some process)
      (hhonest : Honest P o.view)
      (hplan : plan P o m process = some (call, later)) :
      Move m ((m.perform who call).become who later)
  | kill {m : Machine} (who : Nat) : Move m (m.kill who)

inductive Step : Machine → Machine → Prop where
  | move {m next : Machine} (h : Move P m next) : Step m next
  | crash {m : Machine} {disk : Volume Text Content}
      (h : m.disk.Crash disk) : Step m (m.reboot disk)

/-- What any run of a store's layout leads to. -/
def Reachable (m : Machine) : Prop :=
  Relation.ReflTransGen (Step P) .start m

end Step

end TensorFS.Projection
