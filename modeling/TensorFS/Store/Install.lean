import TensorFS.Contract.Pattern
import TensorFS.Data.Volume
import TensorFS.Store.Objects
import TensorFS.Tfm1.Go

namespace TensorFS.Install

open Data

variable (P : Platform)

/-! Admission, removal and temp collection as processes on one volume, a
system call a step.  Any process may be killed, any call may fail, and the
machine may lose power between two steps. -/

/-- The directories that opening a store creates and syncs. -/
def tmpDir : Nat := 0
def sha256Dir : Nat := 1

def toHex (digest : ObjectDigest) : Text := Go.hexEncode digest.bytes

/-- The two fan-out directories above an object. -/
def fanout (digest : ObjectDigest) : List Text :=
  [(toHex digest).take 2, ((toHex digest).drop 2).take 2]

def tempPrefix : Text := "obj-".toList
def tempSuffix : Text := ".tmp".toList

/-- A temp's name: the process, its sequence number and the clock. -/
def tempName (process sequence nanos : Nat) : Text :=
  tempPrefix ++ decimal process ++ '-' :: decimal sequence ++
    '-' :: decimal nanos ++ tempSuffix

def isTempName (name : Text) : Bool :=
  tempPrefix.isPrefixOf name && tempSuffix.isSuffixOf name

inductive StoreError where
  | io
  | lengthMismatch (expected actual : Nat)
  | digestMismatch (expected actual : ObjectDigest)
  | missing (digest : ObjectDigest)
  | notARegularFile (digest : ObjectDigest)
  | corruptObject (expected actual : ObjectDigest)
  deriving DecidableEq

structure AdmittedObject where
  digest : ObjectDigest
  length : Nat
  preexisting : Bool
  deriving DecidableEq

/-- A leased streaming admission: `hashed` is what the hasher has been fed, and
`expecting` is set when `finish_expecting` will end it. -/
structure ObjectWriter where
  path : Text
  inode : Nat
  hashed : Bytes
  expecting : Option (ObjectDigest × Nat)
  deriving DecidableEq

namespace ObjectWriter

def written (writer : ObjectWriter) : Nat := writer.hashed.length

def digest (writer : ObjectWriter) : ObjectDigest := P.sha256 writer.hashed

/-- What the caller of an admission that returned is given. -/
def admitted (writer : ObjectWriter) (preexisting : Bool) : AdmittedObject :=
  ⟨writer.digest P, writer.written, preexisting⟩

end ObjectWriter

/-- Where an admission stands, by the call that returned last. -/
inductive Stage where
  | created (blocks : List Bytes)
  | leased (blocks : List Bytes)
  | flushed
  | fanned
  | housed
  | readOnly
  | linked
  | leafSynced
  | parentSynced
  | sealed
  | refused
  | rehashing
  | reading (inode : Nat)
  | unlinking (preexisting : Bool)
  | dropping (error : StoreError)
  | failing (error : StoreError)
  | returned (preexisting : Bool)
  | failed (error : StoreError)
  deriving DecidableEq

structure TempIdentity where
  inode : Nat
  length : Nat
  modified : Nat
  deriving DecidableEq

/-- Where the reclaim of one candidate stands. -/
inductive ReclaimStage where
  | listed (identity : TempIdentity)
  | opened (identity : TempIdentity)
  | locked (identity : TempIdentity)
  | checked (identity : TempIdentity)
  | closing (inode : Nat) (deleted : Option Nat)
  | finished (deleted : Option Nat)
  deriving DecidableEq

inductive RemovalStage where
  | asked
  | found
  | unlinked
  | answered (removed : Except StoreError Bool)
  deriving DecidableEq

inductive Process where
  | writer (writer : ObjectWriter) (stage : Stage)
  | collector (name : Text) (stage : ReclaimStage)
  | remover (digest : ObjectDigest) (stage : RemovalStage)
  deriving DecidableEq

structure Machine where
  disk : Volume Text Bytes
  lock : Nat → Option Nat
  process : Nat → Option Process
  issued : List Text
  clock : Nat

namespace Machine

variable (m : Machine)

/-- A store just opened on an empty root. -/
def start : Machine where
  disk := ⟨fun _ _ => none, fun _ _ => [], fun _ => ⟨[], true, 0⟩, 2⟩
  lock _ := none
  process _ := none
  issued := []
  clock := 0

def become (who : Nat) (process : Process) : Machine :=
  { m with process := Function.update m.process who (some process) }

def acquire (inode who : Nat) : Machine :=
  { m with lock := Function.update m.lock inode (some who) }

def release (inode : Nat) : Machine :=
  { m with lock := Function.update m.lock inode none }

def onDisk (disk : Volume Text Bytes) : Machine := { m with disk := disk }

def leaf (digest : ObjectDigest) : Option Nat :=
  m.disk.directoryAt sha256Dir (fanout digest)

/-- The file at an object's path. -/
def objectFile (digest : ObjectDigest) : Option Nat :=
  m.disk.fileAt sha256Dir (fanout digest) (toHex digest)

def openObject (digest : ObjectDigest) : Except StoreError Nat :=
  match m.disk.nodeAt sha256Dir (fanout digest) (toHex digest) with
  | some (.file inode) => .ok inode
  | some (.directory _) => .error (.notARegularFile digest)
  | none => .error (.missing digest)

def identity (inode : Nat) : TempIdentity :=
  ⟨inode, (m.disk.inode inode).content.length, (m.disk.inode inode).modified⟩

/-- The identity of the temp under a name now. -/
def stat (name : Text) : Option TempIdentity :=
  match m.disk.lookup tmpDir name with
  | some (.file inode) => some (m.identity inode)
  | _ => none

/-- One `mkdir` of `create_dir_all`; a directory that exists is accepted. -/
def ensureDirectory (dir : Nat) (name : Text) : Option Machine :=
  match m.disk.lookup dir name with
  | none => some (m.onDisk (m.disk.makeDirectory dir name))
  | some (.directory _) => some m
  | some (.file _) => none

end Machine

section Advance

variable (m : Machine) (who : Nat)

/-- A call that failed: the file is still open and goes first. -/
def giveUp (writer : ObjectWriter) (error : StoreError) : Machine :=
  m.become who (.writer writer (.dropping error))

def writeBlock (writer : ObjectWriter) (block : Bytes) : Volume Text Bytes :=
  m.disk.edit writer.inode ((m.disk.inode writer.inode).content ++ block)
    m.clock

/-- The directory calls of `install`, from the fan-out to the last sync. -/
def syncAbove (writer : ObjectWriter) (path : List Text) (stage : Stage) :
    Machine :=
  match m.disk.directoryAt sha256Dir path with
  | none => giveUp m who writer .io
  | some dir =>
      (m.onDisk (m.disk.syncDirectory dir)).become who (.writer writer stage)

def fanOut (writer : ObjectWriter) (above : List Text) (name : Text)
    (stage : Stage) : Machine :=
  match (m.disk.directoryAt sha256Dir above).bind
      (m.ensureDirectory · name) with
  | none => giveUp m who writer .io
  | some made => made.become who (.writer writer stage)

def hardLink (writer : ObjectWriter) : Machine :=
  match m.disk.lookup tmpDir writer.path, m.leaf (writer.digest P) with
  | some node, some dir =>
      if (m.disk.lookup dir (toHex (writer.digest P))).isSome then
        m.become who (.writer writer .refused)
      else
        (m.onDisk (m.disk.link dir (toHex (writer.digest P)) node)).become who
          (.writer writer .linked)
  | _, _ => giveUp m who writer .io

/-- The next call of an admission; `none` once it has returned. -/
def advanceWriter (writer : ObjectWriter) : Stage → Option Machine
  | .created blocks => some <|
      match m.lock writer.inode with
      | none =>
          (m.acquire writer.inode who).become who
            (.writer writer (.leased blocks))
      | some _ => m.become who (.writer writer (.failed .io))
  | .leased (block :: blocks) => some <|
      (m.onDisk (writeBlock m writer block)).become who
        (.writer { writer with hashed := writer.hashed ++ block }
          (.leased blocks))
  | .leased [] => some <|
      match writer.expecting with
      | some (_, length) =>
          if writer.written ≠ length then
            giveUp m who writer (.lengthMismatch length writer.written)
          else
            (m.onDisk (m.disk.sync writer.inode)).become who
              (.writer writer .flushed)
      | none =>
          (m.onDisk (m.disk.sync writer.inode)).become who
            (.writer writer .flushed)
  | .flushed => some <|
      match writer.expecting with
      | some (expected, _) =>
          if writer.digest P ≠ expected then
            giveUp m who writer (.digestMismatch expected (writer.digest P))
          else
            fanOut m who writer [] ((toHex (writer.digest P)).take 2) .fanned
      | none =>
          fanOut m who writer [] ((toHex (writer.digest P)).take 2) .fanned
  | .fanned => some <|
      fanOut m who writer [(toHex (writer.digest P)).take 2]
        (((toHex (writer.digest P)).drop 2).take 2) .housed
  | .housed => some <|
      -- the mode is set through the path
      if (m.disk.lookup tmpDir writer.path).isSome then
        m.become who (.writer writer .readOnly)
      else giveUp m who writer .io
  | .readOnly => some (hardLink P m who writer)
  | .linked => some <|
      syncAbove m who writer (fanout (writer.digest P)) .leafSynced
  | .leafSynced => some <|
      syncAbove m who writer ((fanout (writer.digest P)).take 1) .parentSynced
  | .parentSynced => some (syncAbove m who writer [] .sealed)
  | .sealed => some <|
      (m.release writer.inode).become who (.writer writer (.unlinking false))
  | .refused => some <|
      (m.release writer.inode).become who (.writer writer .rehashing)
  | .rehashing => some <|
      match m.openObject (writer.digest P) with
      | .ok inode => m.become who (.writer writer (.reading inode))
      | .error error => m.become who (.writer writer (.failing error))
  | .reading inode => some <|
      if P.sha256 (m.disk.inode inode).content = writer.digest P then
        m.become who (.writer writer (.unlinking true))
      else
        m.become who (.writer writer (.failing (.corruptObject
          (writer.digest P) (P.sha256 (m.disk.inode inode).content))))
  | .unlinking preexisting => some <|
      (m.onDisk (m.disk.unlink tmpDir writer.path)).become who
        (.writer writer (.returned preexisting))
  | .dropping error => some <|
      (m.release writer.inode).become who (.writer writer (.failing error))
  | .failing error => some <|
      (m.onDisk (m.disk.unlink tmpDir writer.path)).become who
        (.writer writer (.failed error))
  | .returned _ => none
  | .failed _ => none

variable (name : Text)

/-- The next call of `reclaim_candidate`.  Every guard that fails retains the
file. -/
def advanceCollector : ReclaimStage → Option Machine
  | .listed identity => some <|
      m.become who (.collector name
        (if m.stat name = some identity then .opened identity
        else .finished none))
  | .opened identity => some <|
      match m.lock identity.inode with
      | none =>
          (m.acquire identity.inode who).become who
            (.collector name (.locked identity))
      | some _ => m.become who (.collector name (.finished none))
  | .locked identity => some <|
      -- the writer that was locked out may have finished meanwhile
      m.become who (.collector name
        (if m.stat name = some identity then .checked identity
        else .closing identity.inode none))
  | .checked identity => some <|
      if (m.disk.lookup tmpDir name).isSome then
        (m.onDisk (m.disk.unlink tmpDir name)).become who
          (.collector name (.closing identity.inode (some identity.length)))
      else
        m.become who (.collector name (.closing identity.inode none))
  | .closing inode deleted => some <|
      (m.release inode).become who (.collector name (.finished deleted))
  | .finished _ => none

variable (digest : ObjectDigest)

/-- The next call of `remove_object`. -/
def advanceRemover : RemovalStage → Option Machine
  | .asked => some <|
      m.become who (.remover digest
        (if (m.objectFile digest).isSome then .found
        else .answered (.ok false)))
  | .found => some <|
      match m.leaf digest with
      | some dir =>
          if (m.disk.lookup dir (toHex digest)).isSome then
            (m.onDisk (m.disk.unlink dir (toHex digest))).become who
              (.remover digest .unlinked)
          else m.become who (.remover digest (.answered (.error .io)))
      | none => m.become who (.remover digest (.answered (.error .io)))
  | .unlinked => some <|
      match m.leaf digest with
      | some dir =>
          (m.onDisk (m.disk.syncDirectory dir)).become who
            (.remover digest (.answered (.ok true)))
      | none => m.become who (.remover digest (.answered (.error .io)))
  | .answered _ => none

def advance : Option Machine :=
  match m.process who with
  | some (.writer writer stage) => advanceWriter P m who writer stage
  | some (.collector name stage) => advanceCollector m who name stage
  | some (.remover digest stage) => advanceRemover m who digest stage
  | none => none

end Advance

section Fault

variable (m : Machine) (who : Nat)

/-- The next call of an admission fails; a write may have put down a part of
its block. -/
def faultWriter (torn : Nat) (writer : ObjectWriter) : Stage → Option Machine
  | .created _ => some (m.become who (.writer writer (.failed .io)))
  | .leased (block :: _) => some <|
      giveUp (m.onDisk (writeBlock m writer (block.take torn))) who writer .io
  | .leased [] | .flushed | .fanned | .housed | .readOnly | .linked
  | .leafSynced | .parentSynced => some (giveUp m who writer .io)
  | .rehashing | .reading _ =>
      some (m.become who (.writer writer (.failing .io)))
  | .unlinking preexisting => some <|
      m.become who (.writer writer (.returned preexisting))
  | .failing error => some (m.become who (.writer writer (.failed error)))
  | .sealed | .refused | .dropping _ | .returned _ | .failed _ => none

def faultCollector (name : Text) : ReclaimStage → Option Machine
  | .listed _ | .opened _ =>
      some (m.become who (.collector name (.finished none)))
  | .locked identity | .checked identity => some <|
      m.become who (.collector name (.closing identity.inode none))
  | .closing _ _ | .finished _ => none

def faultRemover (digest : ObjectDigest) : RemovalStage → Option Machine
  | .asked | .found | .unlinked =>
      some (m.become who (.remover digest (.answered (.error .io))))
  | .answered _ => none

def fault (torn : Nat) : Option Machine :=
  match m.process who with
  | some (.writer writer stage) => faultWriter m who torn writer stage
  | some (.collector name stage) => faultCollector m who name stage
  | some (.remover digest stage) => faultRemover m who digest stage
  | none => none

end Fault

namespace Machine

variable (m : Machine)

def newWriter (who : Nat) (path : Text) (blocks : List Bytes)
    (expecting : Option (ObjectDigest × Nat)) : Machine :=
  { m with
    disk := m.disk.create tmpDir path [] m.clock
    issued := path :: m.issued }.become who
      (.writer ⟨path, m.disk.next, [], expecting⟩ (.created blocks))

/-- A killed process loses its leases and nothing else. -/
def kill (who : Nat) : Machine :=
  { m with
    lock := fun inode => if m.lock inode = some who then none else m.lock inode
    process := Function.update m.process who none }

def reboot (disk : Volume Text Bytes) : Machine :=
  { m with disk := disk, lock := fun _ => none, process := fun _ => none }

end Machine

/-- A temp's name is drawn from the process, its counter and the clock, so none
is issued twice. -/
inductive Step : Machine → Machine → Prop where
  | newWriter {m : Machine} {who process sequence nanos : Nat}
      (blocks : List Bytes) (expecting : Option (ObjectDigest × Nat))
      (hfree : m.process who = none)
      (hissued : tempName process sequence nanos ∉ m.issued)
      (habsent :
        m.disk.lookup tmpDir (tempName process sequence nanos) = none) :
      Step m
        (m.newWriter who (tempName process sequence nanos) blocks expecting)
  | reclaim {m : Machine} {who grace : Nat} {name : Text}
      {identity : TempIdentity} (hfree : m.process who = none)
      (hgrace : 0 < grace) (hname : isTempName name = true)
      (hlisted : m.stat name = some identity)
      (hold : identity.modified + grace ≤ m.clock) :
      Step m (m.become who (.collector name (.listed identity)))
  | remove {m : Machine} {who : Nat} (digest : ObjectDigest)
      (hfree : m.process who = none) :
      Step m (m.become who (.remover digest .asked))
  | advance {m next : Machine} {who : Nat}
      (h : advance P m who = some next) : Step m next
  | fault {m next : Machine} {who torn : Nat}
      (h : fault m who torn = some next) : Step m next
  | kill {m : Machine} (who : Nat) : Step m (m.kill who)
  | tick {m : Machine} : Step m { m with clock := m.clock + 1 }
  | crash {m : Machine} {disk : Volume Text Bytes} (h : m.disk.Crash disk) :
      Step m (m.reboot disk)

/-- What any run from a freshly opened store leads to. -/
def Reachable (m : Machine) : Prop :=
  Relation.ReflTransGen (Step P) .start m

end TensorFS.Install
