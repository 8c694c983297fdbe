import TensorFS.Planner.Hash
import TensorFS.Store.RecordsSource

namespace TensorFS

open Data

variable {P : Platform}

/-! The byte stream a record run spells over a store. -/

/-- A hole is zeros; a data record is its object, of exactly the stated
length. -/
def recordBytes (store : ObjectStore P) : FileRecord → Option Bytes
  | .hole length => some (List.replicate length.toNat 0)
  | .data digest length => do
      let content ← store.openObject digest
      if content.length = length.toNat then some content else none

def fileBytes (store : ObjectStore P) : List FileRecord → Option Bytes
  | [] => some []
  | record :: records => do
      let bytes ← recordBytes store record
      let rest ← fileBytes store records
      some (bytes ++ rest)

section

variable {store later : ObjectStore P} {records : List FileRecord}
  {record : FileRecord} {bytes : Bytes}

theorem recordBytes_data {digest : ObjectDigest} {length : UInt64}
    (h : recordBytes store (.data digest length) = some bytes) :
    store.openObject digest = some bytes ∧ bytes.length = length.toNat := by
  simp only [recordBytes, Option.bind_eq_bind, Option.bind_eq_some_iff] at h
  obtain ⟨content, hopen, h⟩ := h
  split at h
  · rename_i hlength
    cases h
    exact ⟨hopen, hlength⟩
  · cases h

theorem recordBytes_of_open {digest : ObjectDigest} {length : UInt64}
    (hopen : store.openObject digest = some bytes)
    (hlength : bytes.length = length.toNat) :
    recordBytes store (.data digest length) = some bytes := by
  rw [recordBytes, hopen, Option.bind_eq_bind, Option.bind_some,
    if_pos hlength]

theorem recordBytes_length (h : recordBytes store record = some bytes) :
    bytes.length = record.size := by
  cases record with
  | hole length =>
      cases h
      exact List.length_replicate
  | data digest length => exact (recordBytes_data h).2

theorem fileBytes_cons :
    fileBytes store (record :: records) = some bytes ↔
      ∃ front rest, recordBytes store record = some front ∧
        fileBytes store records = some rest ∧ front ++ rest = bytes := by
  simp only [fileBytes, Option.bind_eq_bind, Option.bind_eq_some_iff,
    Option.some.injEq]
  constructor
  · rintro ⟨front, hfront, rest, hrest, hbytes⟩
    exact ⟨front, rest, hfront, hrest, hbytes⟩
  · rintro ⟨front, rest, hfront, hrest, hbytes⟩
    exact ⟨front, hfront, rest, hrest, hbytes⟩

theorem fileBytes_length (h : fileBytes store records = some bytes) :
    bytes.length = totalSize records := by
  induction records generalizing bytes with
  | nil =>
      cases h
      rfl
  | cons record records ih =>
      obtain ⟨front, rest, hfront, hrest, rfl⟩ := fileBytes_cons.mp h
      rw [List.length_append, recordBytes_length hfront, ih hrest,
        totalSize_cons]

theorem fileBytes_append {left right : List FileRecord}
    {leftBytes rightBytes : Bytes}
    (hleft : fileBytes store left = some leftBytes)
    (hright : fileBytes store right = some rightBytes) :
    fileBytes store (left ++ right) = some (leftBytes ++ rightBytes) := by
  induction left generalizing leftBytes with
  | nil =>
      cases hleft
      exact hright
  | cons record left ih =>
      obtain ⟨front, rest, hfront, hrest, rfl⟩ := fileBytes_cons.mp hleft
      exact fileBytes_cons.mpr ⟨front, rest ++ rightBytes, hfront, ih hrest,
        by rw [List.append_assoc]⟩

theorem fileBytes_append_inv {left right : List FileRecord}
    (h : fileBytes store (left ++ right) = some bytes) :
    ∃ leftBytes rightBytes, fileBytes store left = some leftBytes ∧
      fileBytes store right = some rightBytes ∧
      leftBytes ++ rightBytes = bytes := by
  induction left generalizing bytes with
  | nil => exact ⟨[], bytes, rfl, h, rfl⟩
  | cons record left ih =>
      obtain ⟨front, rest, hfront, hrest, rfl⟩ := fileBytes_cons.mp h
      obtain ⟨leftBytes, rightBytes, hleft, hright, rfl⟩ := ih hrest
      exact ⟨front ++ leftBytes, rightBytes,
        fileBytes_cons.mpr ⟨front, leftBytes, hfront, hleft, rfl⟩, hright,
        by rw [List.append_assoc]⟩

theorem fileBytes_available (h : fileBytes store records = some bytes) :
    Available store records := by
  induction records generalizing bytes with
  | nil => exact fun _ _ hmem => by cases hmem
  | cons record records ih =>
      obtain ⟨front, rest, hfront, hrest, -⟩ := fileBytes_cons.mp h
      intro digest length hmem
      rcases List.mem_cons.mp hmem with rfl | hmem
      · obtain ⟨hopen, hlength⟩ := recordBytes_data hfront
        exact ⟨front, hopen, le_of_eq hlength.symm⟩
      · exact ih hrest digest length hmem

theorem byteAt_recordBytes (h : recordBytes store record = some bytes)
    {index : Nat} (hindex : index < record.size) :
    byteAt store [record] index = bytes[index]? := by
  cases record with
  | hole length =>
      cases h
      rw [byteAt, if_pos hindex, List.getElem?_replicate]
      exact (if_pos hindex).symm
  | data digest length =>
      simp only [byteAt, if_pos hindex, (recordBytes_data h).1,
        Option.bind_some]

theorem byteAt_fileBytes (h : fileBytes store records = some bytes)
    {index : Nat} (hindex : index < bytes.length) :
    byteAt store records index = bytes[index]? := by
  induction records generalizing bytes index with
  | nil =>
      cases h
      simp at hindex
  | cons record records ih =>
      obtain ⟨front, rest, hfront, hrest, rfl⟩ := fileBytes_cons.mp h
      have hlength := recordBytes_length hfront
      rw [List.length_append] at hindex
      by_cases hlt : index < record.size
      · rw [byteAt_cons_lt hlt, byteAt_recordBytes hfront hlt,
          List.getElem?_append_left (by omega)]
      · rw [byteAt_cons_ge (not_lt.mp hlt), ih hrest (by omega),
          List.getElem?_append_right (by omega), hlength]

/-- A stored run reads as the slice of its bytes. -/
theorem recordsSource_eq_slice {content : Slice}
    (h : fileBytes store records = some content.bytes) :
    recordsSource store records = content.source := by
  have hlength := fileBytes_length h
  have hmod : totalSize records % 2 ^ 64 = content.bytes.length := by
    rw [← hlength]
    exact Nat.mod_eq_of_lt content.fits
  have hread : (recordsSource store records).readAt =
      content.source.readAt := by
    funext offset count
    rw [recordsSource_readAt, hmod]
    simp only [Slice.source]
    split
    · rename_i hinside
      obtain ⟨found, hfound⟩ := @readSegments_complete P store records
        (fileBytes_available h) offset (offset + count) 0
      have hat : (recordsSource store records).readAt offset count =
          some found := by
        rw [recordsSource_readAt, hmod, if_pos hinside, hfound]
      obtain ⟨-, hcount, hbytes⟩ := recordsSource_sound hat
      rw [hfound, Option.some.injEq]
      refine List.ext_getElem? fun index => ?_
      by_cases hindex : index < count
      · rw [← hbytes index hindex, byteAt_fileBytes h (by omega), slice,
          List.getElem?_take_of_lt hindex, List.getElem?_drop]
      · rw [List.getElem?_eq_none (by omega), List.getElem?_eq_none (by
          rw [length_slice hinside]
          omega)]
    · rfl
  simp only [recordsSource, Slice.source, ByteSource.mk.injEq, hmod,
    true_and, and_true] at hread ⊢
  exact hread

end

/-! What survives while objects are added. -/

/-- Every object of the one store is the same object of the other. -/
def ObjectStore.Extends (later store : ObjectStore P) : Prop :=
  ∀ digest bytes, store.openObject digest = some bytes →
    later.openObject digest = some bytes

section

variable {store later latest : ObjectStore P} {records : List FileRecord}
  {bytes : Bytes}

theorem ObjectStore.Extends.refl (store : ObjectStore P) :
    store.Extends store := fun _ _ h => h

theorem ObjectStore.Extends.trans (hlast : latest.Extends later)
    (hfirst : later.Extends store) : latest.Extends store :=
  fun digest bytes h => hlast digest bytes (hfirst digest bytes h)

theorem ObjectStore.extends_putBytes (store : ObjectStore P)
    (fresh : Bytes) : (store.putBytes fresh).Extends store :=
  fun _ _ h => ObjectStore.openObject_putBytes_of h fresh

theorem ObjectStore.Extends.fileBytes (hextends : later.Extends store)
    (h : fileBytes store records = some bytes) :
    fileBytes later records = some bytes := by
  induction records generalizing bytes with
  | nil => exact h
  | cons record records ih =>
      obtain ⟨front, rest, hfront, hrest, rfl⟩ := fileBytes_cons.mp h
      refine fileBytes_cons.mpr ⟨front, rest, ?_, ih hrest, rfl⟩
      cases record with
      | hole length => exact hfront
      | data digest length =>
          obtain ⟨hopen, hlength⟩ := recordBytes_data hfront
          exact recordBytes_of_open (hextends digest front hopen) hlength

end

end TensorFS
