import TensorFS.Sync.Wire
import TensorFS.Tfp1.Canonical

namespace TensorFS.Sync

open Data

/-! The closure of a snapshot, the two lanes its missing objects ride in, and
the packs of one lane. -/

/-- The rows whose digest is not among those seen before. -/
def firstSeen : List ObjectDigest → List Row → List Row
  | _, [] => []
  | seen, (digest, length) :: rows =>
      if digest ∈ seen then firstSeen seen rows
      else (digest, length) :: firstSeen (digest :: seen) rows

def dataRow : FileRecord → Option Row
  | .data digest length => some (digest, length)
  | .hole _ => none

/-- The objects of a snapshot's data records, once each, in manifest order. -/
def dataClosure (snapshot : Snapshot) : List Row :=
  firstSeen [] ((manifestRecords snapshot).filterMap dataRow)

/-- The length a row of the closure records, and the rows behind it. -/
def scanTo (digest : ObjectDigest) : List Row → Option (UInt64 × List Row)
  | [] => none
  | (candidate, length) :: rows =>
      if candidate = digest then some (length, rows) else scanTo digest rows

/-- The missing set is a projection of the closure: the scan only ever goes
forward from the cursor. -/
def verifyCanonicalMissing : List Row → List Row → Except SyncError Unit
  | _, [] => .ok ()
  | closure, (digest, length) :: missing =>
      match scanTo digest closure with
      | none => .error (.missingNotCanonical digest)
      | some (expected, behind) => do
          ensure (length = expected) (.missingLength digest expected length)
          verifyCanonicalMissing behind missing

def verifyLanes (closure missing missingBlobs : List Row)
    (maxPayload : UInt64) : Except SyncError Unit := do
  verifyCanonicalMissing closure missing
  verifyCanonicalMissing closure missingBlobs
  checkAll (fun row => ensure (row.2 ≤ maxPayload)
    (.blobLaneMismatch row.1 row.2 maxPayload "pack")) missing
  checkAll (fun row => ensure (¬ row.2 ≤ maxPayload)
    (.blobLaneMismatch row.1 row.2 maxPayload "blob")) missingBlobs

/-- The pack payload bound: the remote's, up to the format's own. -/
def payloadBound (stated : UInt64) : UInt64 :=
  if stated = 0 then UInt64.ofNat Tfp1.maxPackPayload
  else min stated (UInt64.ofNat Tfp1.maxPackPayload)

/-- The pack being assembled and those before it; the sum wraps. -/
structure Packing where
  group : List Row := []
  groupBytes : UInt64 := 0
  groups : List (List Row) := []

/-- Closes the open pack. -/
def Packing.flush (packing : Packing) : Packing where
  groups := packing.groups ++ [packing.group]

def Packing.push (packing : Packing) (row : Row) : Packing :=
  { packing with
    group := packing.group ++ [row]
    groupBytes := packing.groupBytes + row.2 }

def Packing.step (maxPayload : UInt64) (packing : Packing) (row : Row) :
    Packing :=
  let overPayload := maxPayload < packing.groupBytes + row.2
  let overCount := Tfp1.maxPackObjects ≤ packing.group.length
  if packing.group ≠ [] ∧ (overPayload ∨ overCount) then
    packing.flush.push row
  else packing.push row

/-- Greedy whole-object pack assembly, in the order of the missing set. -/
def packGroups (maxPayload : UInt64) (missing : List Row) :
    List (List Row) :=
  let packing := missing.foldl (Packing.step maxPayload) {}
  if packing.group ≠ [] then packing.groups ++ [packing.group]
  else packing.groups

/-- Opening a local object and reading it whole.  Its file may have been lost,
cut or damaged since the bytes were admitted. -/
abbrev Disk := ObjectDigest → Except StoreError Bytes

def openLocal (disk : Disk) (digest : ObjectDigest) :
    Except SyncError Bytes :=
  (disk digest).mapError SyncError.store

/-- One pack's members, read whole out of the local store. -/
def loadPackMembers (disk : Disk) :
    List Row → Except SyncError (List Tfp1.PackObject)
  | [] => .ok []
  | (digest, expected) :: members => do
      let bytes ← openLocal disk digest
      ensure (bytes.length = expected.toNat)
        (.localObjectLength digest expected bytes.length)
      let loaded ← loadPackMembers disk members
      .ok (⟨digest, bytes⟩ :: loaded)

/-- `read_exact_at` on the one whole-file record of a blob. -/
def readPart (disk : Disk) (digest : ObjectDigest) (length : UInt64)
    (start take : Nat) : Except SyncError Bytes :=
  if length.toNat < start + take then .error (.store .io)
  else if length.toNat ≤ start ∨ start + take = 0 then .ok []
  else
    match disk digest with
    | .error _ => .error (.store .io)
    | .ok bytes =>
        if start + take ≤ bytes.length then .ok ((bytes.drop start).take take)
        else .error (.store .io)

def batchesFrom (size : Nat) : Nat → List α → List (List α)
  | 0, _ => []
  | _ + 1, [] => []
  | fuel + 1, x :: xs =>
      (x :: xs).take size :: batchesFrom size fuel ((x :: xs).drop size)

/-- Runs of `size`, the last one shorter. -/
def batches (size : Nat) (xs : List α) : List (List α) :=
  batchesFrom size xs.length xs

theorem length_batchesFrom_le (size fuel : Nat) (xs : List α) :
    (batchesFrom size fuel xs).length ≤ fuel := by
  induction fuel generalizing xs with
  | zero => exact le_rfl
  | succ fuel ih =>
      cases xs with
      | nil => exact Nat.zero_le _
      | cons x xs => exact Nat.succ_le_succ (ih _)

theorem flatten_batchesFrom {size fuel : Nat} {xs : List α} (hsize : 0 < size)
    (hfuel : xs.length ≤ fuel) : (batchesFrom size fuel xs).flatten = xs := by
  induction fuel generalizing xs with
  | zero => exact (List.eq_nil_of_length_eq_zero (Nat.le_zero.mp hfuel)).symm
  | succ fuel ih =>
      cases xs with
      | nil => rfl
      | cons x xs =>
          have hrest : ((x :: xs).drop size).length ≤ fuel := by
            rw [List.length_drop]
            omega
          rw [batchesFrom, List.flatten_cons, ih hrest]
          exact List.take_append_drop size (x :: xs)

theorem length_batches_le (size : Nat) (xs : List α) :
    (batches size xs).length ≤ xs.length := length_batchesFrom_le _ _ _

theorem flatten_batches {size : Nat} (hsize : 0 < size) (xs : List α) :
    (batches size xs).flatten = xs := flatten_batchesFrom hsize le_rfl

end TensorFS.Sync
