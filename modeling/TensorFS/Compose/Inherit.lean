import TensorFS.Compose.Records
import TensorFS.Data.Pieces
import TensorFS.Data.Sha256

namespace TensorFS

open Data

/-! What inheriting a byte range of a record run returns. -/

variable {start stop length position : Nat} {record : FileRecord}
  {records taken : List FileRecord}

theorem RunShape.size_pos {previousWasHole : Bool}
    (hshape : RunShape previousWasHole records) :
    ∀ record ∈ records, 0 < record.size := by
  intro record hmem
  refine Nat.pos_of_ne_zero fun hzero => hshape.ne_zero record hmem ?_
  exact UInt64.toNat_inj.mp hzero

/-- At or behind the start every record is taken, up to the stop. -/
theorem inheritFrom_take (hpos : ∀ record ∈ records, 0 < record.size)
    (hstart : start ≤ position) (hstop : position ≤ stop)
    (hinside : stop ≤ position + totalSize records)
    (hfits : position + totalSize records < 2 ^ 64) :
    inheritFrom start stop position records = some taken ↔
      WholePieces FileRecord.size records 0 (stop - position) taken := by
  induction records generalizing position taken with
  | nil =>
      rw [totalSize_nil] at hinside
      rw [inheritFrom, Option.some.injEq, show stop - position = 0 by omega,
        wholePieces_empty hpos]
      exact eq_comm
  | cons record records ih =>
      have hsize := hpos record List.mem_cons_self
      have hrest := (List.forall_mem_cons.mp hpos).2
      rw [totalSize_cons] at hinside hfits
      have hmod : (position + record.size) % 2 ^ 64 = position + record.size :=
        Nat.mod_eq_of_lt (by omega)
      simp only [inheritFrom, hmod]
      rw [if_neg (by omega)]
      by_cases hend : stop ≤ position
      · rw [if_pos hend, Option.some.injEq,
          show stop - position = 0 by omega, wholePieces_empty hpos]
        exact eq_comm
      · rw [if_neg hend]
        by_cases hcross : stop < position + record.size
        · rw [if_pos (.inr hcross)]
          exact iff_of_false (by simp)
            (not_wholePieces_short hpos (by omega) (by omega))
        · have htail := fun rest => @ih (position + record.size) rest hrest
            (by omega) (by omega) (by omega) (by omega)
          have hleft : stop - position - record.size =
              stop - (position + record.size) := by omega
          rw [if_neg (by omega), wholePieces_take hpos (by omega) (by omega),
            hleft]
          simp only [Option.bind_eq_bind, Option.bind_eq_some_iff,
            Option.some.injEq, htail]

/-- Before the start every record is skipped; one that holds the start
refuses. -/
theorem inheritFrom_eq_some (hpos : ∀ record ∈ records, 0 < record.size)
    (hbefore : position ≤ start) (hle : start ≤ stop)
    (hinside : stop ≤ position + totalSize records)
    (hfits : position + totalSize records < 2 ^ 64) :
    inheritFrom start stop position records = some taken ↔
      WholePieces FileRecord.size records (start - position) (stop - start)
        taken := by
  induction records generalizing position with
  | nil =>
      have hsame : start = position := by
        rw [totalSize_nil] at hinside
        omega
      rw [hsame, Nat.sub_self]
      exact inheritFrom_take hpos le_rfl (by omega) hinside hfits
  | cons record records ih =>
      rcases Nat.eq_or_lt_of_le hbefore with rfl | hlt
      · rw [Nat.sub_self]
        exact inheritFrom_take hpos le_rfl hle hinside hfits
      · have hrest := (List.forall_mem_cons.mp hpos).2
        rw [totalSize_cons] at hinside hfits
        have hmod : (position + record.size) % 2 ^ 64 =
            position + record.size := Nat.mod_eq_of_lt (by omega)
        simp only [inheritFrom, hmod]
        by_cases hskip : position + record.size ≤ start
        · rw [if_pos hskip, ih hrest hskip (by omega) (by omega),
            wholePieces_skip (by omega) (by omega), Nat.sub_add_eq]
        · rw [if_neg hskip, if_neg (by omega), if_pos (.inl hlt)]
          exact iff_of_false (by simp)
            (not_wholePieces_inside (by omega) (by omega))

/-- Inside the file exactly the runs of whole records are inherited. -/
theorem inherit_eq_some (hrun : ValidRun records)
    (hinside : start + length ≤ totalSize records) :
    inherit records start length = some taken ↔
      WholePieces FileRecord.size records start length taken := by
  have hfits := hrun.fits
  have hwalk := @inheritFrom_eq_some start (start + length) 0 records taken
    hrun.shape.size_pos (Nat.zero_le _) (by omega) (by omega) (by omega)
  rw [Nat.sub_zero, Nat.add_sub_cancel_left] at hwalk
  rw [inherit, checkedAdd, if_pos (by omega), Option.bind_eq_bind,
    Option.bind_some, Option.bind_eq_bind, Option.bind_eq_some_iff]
  constructor
  · intro h
    obtain ⟨found, hfound, h⟩ := h
    split at h
    · cases h
      exact hwalk.mp hfound
    · cases h
  · intro hwhole
    have hspan : totalSize taken = length := hwhole.span_eq
    refine ⟨taken, hwalk.mpr hwhole, if_pos ?_⟩
    rw [recordSum_eq, hspan]
    exact UInt64.toNat_ofNat_of_lt' (by
      change _ < 2 ^ 64
      omega)

/-! The bytes of an inherited run. -/

section

variable {P : Platform} {store : ObjectStore P} {front back : List FileRecord}
  {bytes : Bytes} {index : Nat}

theorem byteAt_behind (store : ObjectStore P) (front back : List FileRecord)
    (index : Nat) :
    byteAt store (front ++ back) (totalSize front + index) =
      byteAt store back index := by
  induction front with
  | nil =>
      rw [totalSize_nil, Nat.zero_add]
      rfl
  | cons record front ih =>
      rw [List.cons_append, totalSize_cons, byteAt_cons_ge (by omega),
        show record.size + totalSize front + index - record.size =
          totalSize front + index by omega, ih]

theorem byteAt_within (hindex : index < totalSize front)
    (store : ObjectStore P) (back : List FileRecord) :
    byteAt store (front ++ back) index = byteAt store front index := by
  induction front generalizing index with
  | nil => exact absurd hindex (Nat.not_lt_zero index)
  | cons record front ih =>
      rw [totalSize_cons] at hindex
      rw [List.cons_append]
      by_cases hlt : index < record.size
      · exact (byteAt_cons_lt hlt).trans (byteAt_cons_lt hlt).symm
      · rw [byteAt_cons_ge (not_lt.mp hlt), byteAt_cons_ge (not_lt.mp hlt),
          ih (by omega)]

/-- Whole records show the bytes of their range, over any store. -/
theorem byteAt_wholePieces
    (h : WholePieces FileRecord.size records start length taken)
    (hindex : index < length) (store : ObjectStore P) :
    byteAt store taken index = byteAt store records (start + index) := by
  obtain ⟨front, back, rfl, rfl, rfl⟩ := h
  rw [List.append_assoc]
  exact (byteAt_within hindex store back).symm.trans
    (byteAt_behind store front (taken ++ back) index).symm

/-- Whole records spell the slice of their range. -/
theorem fileBytes_wholePieces
    (hfile : fileBytes store records = some bytes)
    (h : WholePieces FileRecord.size records start length taken) :
    fileBytes store taken = some (slice bytes start length) := by
  obtain ⟨front, back, rfl, rfl, rfl⟩ := h
  obtain ⟨reach, rest, hreach, -, rfl⟩ := fileBytes_append_inv hfile
  obtain ⟨head, inner, hhead, hinner, rfl⟩ := fileBytes_append_inv hreach
  have hstart : head.length = span FileRecord.size front :=
    fileBytes_length hhead
  have hlength : inner.length = span FileRecord.size taken :=
    fileBytes_length hinner
  rw [hinner, ← hstart, ← hlength, List.append_assoc,
    ← Nat.add_zero head.length, slice_append_right,
    slice_append_left (by omega), slice_all]

end

/-- Inside the file a range is inherited as the consecutive whole records it
consists of, which spell its bytes; one that starts or stops inside a record
refuses, and no other. -/
theorem inherit_exact {size : UInt64}
    (hvalid : validateRecordRun records size = .ok ())
    (hinside : start + length ≤ size.toNat) :
    (∀ taken, inherit records start length = some taken ↔
      WholePieces FileRecord.size records start length taken) ∧
    (inherit records start length = none ↔
      InsidePiece FileRecord.size records start ∨
        InsidePiece FileRecord.size records (start + length)) ∧
    ∀ taken, inherit records start length = some taken →
      (∀ {P : Platform} (store : ObjectStore P), ∀ index < length,
        byteAt store taken index = byteAt store records (start + index)) ∧
      ∀ {P : Platform} (store : ObjectStore P) bytes,
        fileBytes store records = some bytes →
          fileBytes store taken = some (slice bytes start length) := by
  obtain ⟨hrun, htotal⟩ := validateRecordRun_eq_ok.mp hvalid
  rw [← htotal] at hinside
  have hwhole := fun taken => @inherit_eq_some start length records taken
    hrun hinside
  refine ⟨hwhole, ?_, fun taken htaken => ?_⟩
  · rw [← not_wholePieces hinside, ← not_iff_not, not_not, ← ne_eq,
      Option.ne_none_iff_exists']
    exact exists_congr hwhole
  · have hpieces := (hwhole taken).mp htaken
    exact ⟨fun store index hindex => byteAt_wholePieces hpieces hindex store,
      fun store bytes hfile => fileBytes_wholePieces hfile hpieces⟩

/-- A hole between two objects. -/
def sparseRun : List FileRecord :=
  [.data emptyBlobDigest 4, .hole 2, .data emptyBlobDigest 3]

/-- The hole and the object behind it up to the end of the file, nothing at
that end, and half of the hole. -/
theorem inherit_exact_ends :
    inherit sparseRun 4 5 = some [.hole 2, .data emptyBlobDigest 3] ∧
      inherit sparseRun 9 0 = some [] ∧ inherit sparseRun 4 1 = none := by
  have hvalid : validateRecordRun sparseRun 9 = .ok () := by decide
  refine ⟨?_, ?_, ?_⟩
  · exact ((inherit_exact hvalid (by decide)).1 _).mpr
      ⟨[.data emptyBlobDigest 4], [], rfl, rfl, rfl⟩
  · exact ((inherit_exact hvalid (by decide)).1 _).mpr
      ⟨sparseRun, [], rfl, rfl, rfl⟩
  · exact (inherit_exact hvalid (by decide)).2.1.mpr
      (.inr ⟨[.data emptyBlobDigest 4], .hole 2, _, rfl, by decide,
        by decide⟩)

end TensorFS
