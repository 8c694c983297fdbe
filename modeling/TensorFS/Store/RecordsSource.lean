import TensorFS.Store.Objects

namespace TensorFS

open Data

variable {P : Platform}

/-! A committed file's ordered records as one planner byte source. -/

def readObject (store : ObjectStore P) (digest : ObjectDigest)
    (within count : Nat) : Option Bytes := do
  let content ← store.openObject digest
  let slice := (content.drop within).take count
  if slice.length = count then some slice else none

def readRecord (store : ObjectStore P) (record : FileRecord)
    (within count : Nat) : Option Bytes :=
  match record with
  | .hole _ => some (List.replicate count 0)
  | .data digest _ => readObject store digest within count

/-- The bytes from `offset` up to `stop` held by the records that begin at
`start`. -/
def readSegments (store : ObjectStore P) (offset stop : Nat) :
    Nat → List FileRecord → Option Bytes
  | _, [] => some []
  | start, record :: records =>
      if start + record.size ≤ offset then
        readSegments store offset stop (start + record.size) records
      else if stop ≤ start then
        some []
      else do
        let bytes ← readRecord store record (max offset start - start)
          (min stop (start + record.size) - max offset start)
        let tail ← readSegments store offset stop (start + record.size) records
        some (bytes ++ tail)

def recordsSource (store : ObjectStore P) (records : List FileRecord) :
    ByteSource where
  len := totalSize records % 2 ^ 64
  len_lt := Nat.mod_lt _ (by decide)
  readAt offset count :=
    if offset + count ≤ totalSize records % 2 ^ 64 then
      readSegments store offset (offset + count) 0 records
    else none
  unchanged := true

theorem recordsSource_readAt (store : ObjectStore P)
    (records : List FileRecord) (offset count : Nat) :
    (recordsSource store records).readAt offset count =
      if offset + count ≤ totalSize records % 2 ^ 64 then
        readSegments store offset (offset + count) 0 records
      else none := rfl

/-! What a read returns. -/

/-- The byte a file shows at an index; `none` where its object is missing or
too short. -/
def byteAt (store : ObjectStore P) : List FileRecord → Nat → Option UInt8
  | [], _ => none
  | record :: records, index =>
      if index < record.size then
        match record with
        | .hole _ => some 0
        | .data digest _ =>
            (store.openObject digest).bind fun content => content[index]?
      else byteAt store records (index - record.size)

section

variable {store : ObjectStore P} {records : List FileRecord}
  {record : FileRecord}

theorem byteAt_cons_lt {index : Nat} (h : index < record.size) :
    byteAt store (record :: records) index = byteAt store [record] index := by
  simp [byteAt, h]

theorem byteAt_cons_ge {index : Nat} (h : record.size ≤ index) :
    byteAt store (record :: records) index =
      byteAt store records (index - record.size) := by
  simp [byteAt, Nat.not_lt.mpr h]

theorem readRecord_sound {within count : Nat} {bytes : Bytes}
    (h : readRecord store record within count = some bytes)
    (hinside : within + count ≤ record.size) :
    bytes.length = count ∧ ∀ index < count,
      byteAt store [record] (within + index) = bytes[index]? := by
  cases record with
  | hole length =>
      cases h
      refine ⟨List.length_replicate, fun index hindex => ?_⟩
      rw [byteAt, if_pos (by omega), List.getElem?_replicate, if_pos hindex]
  | data digest length =>
      simp only [readRecord, readObject, Option.bind_eq_bind,
        Option.bind_eq_some_iff] at h
      obtain ⟨content, hopen, h⟩ := h
      split at h
      · rename_i hlength
        cases h
        refine ⟨hlength, fun index hindex => ?_⟩
        simp only [byteAt]
        rw [if_pos (by omega), hopen, Option.bind_some,
          List.getElem?_take_of_lt hindex, List.getElem?_drop]
      · cases h

theorem readSegments_sound {offset stop start : Nat} {bytes : Bytes}
    (h : readSegments store offset stop start records = some bytes)
    (hstop : stop ≤ start + totalSize records) :
    bytes.length = stop - max offset start ∧ ∀ index < bytes.length,
      byteAt store records (max offset start - start + index) =
        bytes[index]? := by
  induction records generalizing start bytes with
  | nil =>
      cases h
      simp only [totalSize_nil] at hstop
      exact ⟨by simp; omega, by simp⟩
  | cons record records ih =>
      rw [totalSize_cons] at hstop
      unfold readSegments at h
      split at h
      · rename_i hbefore
        obtain ⟨hlength, hbytes⟩ := ih h (by omega)
        refine ⟨by omega, fun index hindex => ?_⟩
        rw [byteAt_cons_ge (by omega), ← hbytes index hindex]
        congr 1
        omega
      · split at h
        · rename_i hafter
          cases h
          exact ⟨by simp; omega, by simp⟩
        · rename_i hbefore hafter
          simp only [Option.bind_eq_bind, Option.bind_eq_some_iff,
            Option.some.injEq] at h
          obtain ⟨front, hfront, tail, htail, rfl⟩ := h
          obtain ⟨hflength, hfbytes⟩ := readRecord_sound hfront (by omega)
          obtain ⟨htlength, htbytes⟩ := ih htail (by omega)
          rw [List.length_append]
          refine ⟨by omega, fun index hindex => ?_⟩
          by_cases hlt : index < front.length
          · rw [List.getElem?_append_left hlt, ← hfbytes index (by omega),
              byteAt_cons_lt (by omega)]
          · rw [List.getElem?_append_right (not_lt.mp hlt),
              ← htbytes (index - front.length) (by omega),
              byteAt_cons_ge (by omega)]
            congr 1
            omega

/-- Every named object is resident with at least the stated bytes. -/
def Available (store : ObjectStore P) (records : List FileRecord) : Prop :=
  ∀ digest length, .data digest length ∈ records →
    ∃ content, store.openObject digest = some content ∧
      length.toNat ≤ content.length

theorem readSegments_complete (havailable : Available store records)
    {offset stop start : Nat} :
    ∃ bytes, readSegments store offset stop start records = some bytes := by
  induction records generalizing start with
  | nil => exact ⟨[], rfl⟩
  | cons record records ih =>
      have htail := @ih fun digest length hmem =>
        havailable digest length (List.mem_cons_of_mem _ hmem)
      unfold readSegments
      split
      · exact htail
      · split
        · exact ⟨[], rfl⟩
        · rename_i hbefore hafter
          obtain ⟨tail, htail⟩ := @htail (start + record.size)
          rw [htail]
          cases record with
          | hole length => exact ⟨_, rfl⟩
          | data digest length =>
              obtain ⟨content, hopen, hlength⟩ :=
                havailable digest length List.mem_cons_self
              simp only [readRecord, readObject, hopen, Option.bind_eq_bind,
                Option.bind_some]
              rw [if_pos]
              · exact ⟨_, rfl⟩
              · simp only [FileRecord.size, FileRecord.length] at *
                rw [List.length_take, List.length_drop]
                omega

theorem recordsSource_sound {offset count : Nat} {bytes : Bytes}
    (h : (recordsSource store records).readAt offset count = some bytes) :
    offset + count ≤ totalSize records ∧ bytes.length = count ∧
      ∀ index < count,
        byteAt store records (offset + index) = bytes[index]? := by
  rw [recordsSource_readAt] at h
  split at h
  · rename_i hinside
    have hmod := Nat.mod_le (totalSize records) (2 ^ 64)
    obtain ⟨hlength, hbytes⟩ := readSegments_sound h (by omega)
    refine ⟨by omega, by omega, fun index hindex => ?_⟩
    rw [← hbytes index (by omega)]
    congr 1
    omega
  · cases h

end

end TensorFS
