import TensorFS.Adapter.Decide
import TensorFS.Data.Cells
import TensorFS.Store.FileBytes

namespace TensorFS

open Data

variable {P : Platform}

/-! What every composition shares: its refusals, inherited record runs and
admitted regions. -/

/-- Why one layout is not derivable from another. -/
inductive Underivable where
  | adapter (error : AdapterError)
  | conversion (reason : Reason)
  | elementSize (name : Text)
  | permute (name : Text)
  deriving DecidableEq

inductive ComposeError where
  | notATensorContainer
  | unreadable (container : Text)
  | unknownTensor (name : Text)
  | unnamedTensor (name : Text)
  | duplicateName (name : Text)
  | unusableName (name : Text)
  | notObjectAligned (name : Text)
  | headerTooLarge
  | notDerivable (why : Underivable)
  | plan (error : PlanError)
  | store
  deriving DecidableEq

/-- A planning call, inside a composition. -/
def planning {α : Type} :
    Except (Failure PlanError) α → Except (Failure ComposeError) α
  | .ok value => .ok value
  | .error (.refused error) => .error (.refused (.plan error))
  | .error .panicked => .error .panicked

@[simp] theorem planning_eq_ok {α : Type}
    {x : Except (Failure PlanError) α} {a : α} :
    planning x = .ok a ↔ x = .ok a := by
  rcases x with (_ | _) | _ <;> simp [planning]

def TensorFormat.container : TensorFormat → Text
  | .safetensorsV1 => "safetensors".toList
  | .ggufV1 => "gguf".toList

/-- The summed record lengths. -/
def recordSum (records : List FileRecord) : UInt64 :=
  (records.map FileRecord.length).sum

/-- The record of one object. -/
def objectRecord (P : Platform) (bytes : Bytes) : FileRecord :=
  .data (P.sha256 bytes) (UInt64.ofNat bytes.length)

/-- Consecutive pieces of the seal grid. -/
def gridPieces (bytes : Bytes) : List Bytes :=
  (List.range (objectCount bytes.length)).map (cell maxObjectSize bytes)

def putPieces : ObjectStore P → List Bytes → ObjectStore P × List FileRecord
  | store, [] => (store, [])
  | store, piece :: pieces =>
      let admitted := putPieces (store.putBytes piece) pieces
      (admitted.1, objectRecord P piece :: admitted.2)

/-- Admits one region on the seal grid. -/
@[irreducible]
def admitBytes (store : ObjectStore P) (bytes : Bytes) :
    ObjectStore P × List FileRecord :=
  putPieces store (gridPieces bytes)

/-- The records from `position` on that lie inside `[start, stop)`; a record
that crosses either end refuses. -/
def inheritFrom (start stop : Nat) :
    Nat → List FileRecord → Option (List FileRecord)
  | _, [] => some []
  | position, record :: records =>
      let recordEnd := (position + record.size) % 2 ^ 64
      if recordEnd ≤ start then inheritFrom start stop recordEnd records
      else if stop ≤ position then some []
      else if position < start ∨ stop < recordEnd then none
      else do
        let rest ← inheritFrom start stop recordEnd records
        some (record :: rest)

/-- The record run covering exactly `[start, start + length)`. -/
def inherit (records : List FileRecord) (start length : Nat) :
    Option (List FileRecord) := do
  let stop ← checkedAdd start length
  let taken ← inheritFrom start stop 0 records
  if (recordSum taken).toNat = length then some taken else none

/-! Sums and admitted objects. -/

theorem toNat_sum (lengths : List UInt64) :
    lengths.sum.toNat = (lengths.map UInt64.toNat).sum % 2 ^ 64 := by
  induction lengths with
  | nil => rfl
  | cons length lengths ih =>
      rw [List.sum_cons, UInt64.toNat_add, ih, List.map_cons, List.sum_cons,
        Nat.add_mod_mod]

theorem recordSum_eq (records : List FileRecord) :
    recordSum records = UInt64.ofNat (totalSize records) := by
  apply UInt64.toNat_inj.mp
  rw [recordSum, toNat_sum, List.map_map, UInt64.toNat_ofNat']
  rfl

theorem putPieces_snd (store : ObjectStore P) (pieces : List Bytes) :
    (putPieces store pieces).2 = pieces.map (objectRecord P) := by
  induction pieces generalizing store with
  | nil => rfl
  | cons piece pieces ih =>
      rw [putPieces, ih, List.map_cons]

theorem putPieces_extends (store : ObjectStore P) (pieces : List Bytes) :
    (putPieces store pieces).1.Extends store := by
  induction pieces generalizing store with
  | nil => exact .refl store
  | cons piece pieces ih =>
      exact (ih (store.putBytes piece)).trans (store.extends_putBytes piece)

theorem admitBytes_extends (store : ObjectStore P) (bytes : Bytes) :
    (admitBytes store bytes).1.Extends store := by
  rw [admitBytes]
  exact putPieces_extends store (gridPieces bytes)

theorem admitBytes_snd (store : ObjectStore P) (bytes : Bytes) :
    (admitBytes store bytes).2 = (gridPieces bytes).map (objectRecord P) := by
  rw [admitBytes, putPieces_snd]

theorem putPieces_admitted (store : ObjectStore P) (pieces : List Bytes) :
    ∀ bytes, bytes ∈ (putPieces store pieces).1.admitted ↔
      bytes ∈ pieces ∨ bytes ∈ store.admitted := by
  induction pieces generalizing store with
  | nil => simp [putPieces]
  | cons piece pieces ih =>
      intro bytes
      rw [putPieces, ih, ObjectStore.admitted_putBytes, List.mem_cons,
        List.mem_cons]
      tauto

/-- Without collisions every admitted piece is resident under its digest. -/
theorem putPieces_open {store : ObjectStore P} {pieces : List Bytes}
    (hfree : (putPieces store pieces).1.CollisionFree) :
    ∀ piece ∈ pieces,
      (putPieces store pieces).1.openObject (P.sha256 piece) = some piece := by
  induction pieces generalizing store with
  | nil => simp
  | cons head pieces ih =>
      have hrest := @ih (store.putBytes head) hfree
      refine List.forall_mem_cons.mpr ⟨?_, hrest⟩
      apply putPieces_extends (store.putBytes head) pieces
      refine ObjectStore.CollisionFree.putBytes_open (hfree.mono ?_)
      exact fun bytes hmem =>
        (putPieces_admitted (store.putBytes head) pieces bytes).mpr (.inr hmem)

end TensorFS
