import TensorFS.Data.Cells
import TensorFS.Data.Sha256
import TensorFS.Store.FileBytes
import TensorFS.Tfm1.Bijection

namespace TensorFS

open Data

/-! The streamed read engine: a file's records read into the caller's buffer,
through the page cache or around it. -/

inductive ReadMode where
  | buffered
  | direct
  deriving DecidableEq

/-- One page. -/
def directAlignment : Nat := 4096

def bounceBytes : Nat := 8 * 1024 * 1024

/-- How many bytes of an open file one read returns when `available` are left
and `asked` are asked for: some of them, and none only at the end. -/
structure Serving where
  served : (offset asked available : Nat) → Nat
  served_le : ∀ offset asked available,
    served offset asked available ≤ min asked available
  progress : ∀ offset asked available, 0 < asked → 0 < available →
    0 < served offset asked available

namespace Serving

variable (serving : Serving) (content : Bytes)

/-- `read_at` on an open file. -/
def readAt (offset count : Nat) : Bytes :=
  slice content offset
    (serving.served offset count (content.length - offset))

def readUpTo : Nat → Nat → Nat → Bytes
  | 0, _, _ => []
  | fuel + 1, offset, left =>
      if left = 0 then []
      else if serving.readAt content offset left = [] then []
      else
        serving.readAt content offset left ++
          readUpTo fuel
            (offset + (serving.readAt content offset left).length)
            (left - (serving.readAt content offset left).length)

/-- As much as the file holds; every read of the loop brings a byte. -/
def readUpToAt (offset count : Nat) : Bytes :=
  serving.readUpTo content count offset count

def readFullAt (offset count : Nat) : Option Bytes :=
  if (serving.readUpToAt content offset count).length < count then none
  else some (serving.readUpToAt content offset count)

/-- The bounce loop of `direct_read`: whole aligned blocks, and of each what
the caller still wants. -/
def bounce : Nat → Nat → Nat → Option Bytes
  | 0, _, left => if left = 0 then some [] else none
  | fuel + 1, cursor, left =>
      if left = 0 then some []
      else
        let start := cursor - cursor % directAlignment
        let skip := cursor - start
        let want := min left (bounceBytes - skip)
        let need := skip + want
        let readLen := min
          ((need + directAlignment - 1) / directAlignment * directAlignment)
          bounceBytes
        let got := serving.readUpToAt content start readLen
        if got.length < need then none
        else do
          let rest ← bounce fuel (cursor + want) (left - want)
          some (slice got skip want ++ rest)

/-- `address` is where the destination lies in memory. -/
def directRead (within address count : Nat) : Option Bytes :=
  if within % directAlignment = 0 ∧ address % directAlignment = 0 then do
    let body := count - count % directAlignment
    let tail := count - body
    let front ← serving.readFullAt content within body
    if 0 < tail then
      let got := serving.readUpToAt content (within + body) directAlignment
      if got.length < tail then none
      else some (front ++ got.take tail)
    else some front
  else serving.bounce content count within count

end Serving

/-- A file's records with their starts; the starts wrap at 64 bits. -/
def segmentsFrom : Nat → List FileRecord → List (Nat × FileRecord)
  | _, [] => []
  | position, record :: records =>
      (position, record) ::
        segmentsFrom ((position + record.size) % 2 ^ 64) records

structure StreamReader (P : Platform) where
  store : ObjectStore P
  segments : List (Nat × FileRecord)
  length : Nat
  mode : ReadMode

namespace StreamReader

variable {P : Platform}

/-- `linux` is the platform's answer; a direct reader is refused elsewhere. -/
def new (linux : Bool) (store : ObjectStore P) (records : List FileRecord)
    (mode : ReadMode) : Option (StreamReader P) :=
  if mode = .direct ∧ linux = false then none
  else
    some ⟨store, segmentsFrom 0 records, totalSize records % 2 ^ 64, mode⟩

variable (reader : StreamReader P) (serving : Serving)

def readObject (digest : ObjectDigest) (within address count : Nat) :
    Option Bytes := do
  let content ← reader.store.openObject digest
  match reader.mode with
  | .buffered => serving.readFullAt content within count
  | .direct => serving.directRead content within address count

def readRecord (record : FileRecord) (within address count : Nat) :
    Option Bytes :=
  match record with
  | .hole _ => some (List.replicate count 0)
  | .data digest _ => reader.readObject serving digest within address count

/-- Fills the destination, whose first byte is at `address` and stands for the
file's byte `offset`, up to the file's byte `stop`. -/
def fillSegments (address offset stop : Nat) :
    List (Nat × FileRecord) → Bytes → Option Bytes
  | [], destination => some destination
  | (start, record) :: segments, destination =>
      let segmentEnd := (start + record.size) % 2 ^ 64
      if segmentEnd ≤ offset then
        fillSegments address offset stop segments destination
      else if stop ≤ start then some destination
      else do
        let origin := max offset start
        let bytes ← reader.readRecord serving record (origin - start)
          (address + (origin - offset)) (min stop segmentEnd - origin)
        fillSegments address offset stop segments
          (patch destination (origin - offset) bytes)

/-- The destination as a read leaves it. -/
def readExactAt (address offset : Nat) (destination : Bytes) :
    Option Bytes :=
  if offset + destination.length < 2 ^ 64 ∧
      offset + destination.length ≤ reader.length then
    reader.fillSegments serving address offset (offset + destination.length)
      reader.segments destination
  else none

end StreamReader

/-! Reading one object. -/

namespace Serving

variable {serving : Serving} {content : Bytes}

theorem slice_eq_take {offset count : Nat} :
    slice content offset count =
      slice content offset (min count (content.length - offset)) := by
  rw [slice, slice, ← List.length_drop, List.take_eq_take_min]

theorem length_readAt (offset count : Nat) :
    (serving.readAt content offset count).length =
      serving.served offset count (content.length - offset) := by
  have hle := serving.served_le offset count (content.length - offset)
  rw [readAt, slice, List.length_take, List.length_drop]
  omega

theorem readUpTo_eq {fuel offset left : Nat} (h : left ≤ fuel) :
    serving.readUpTo content fuel offset left = slice content offset left := by
  induction fuel generalizing offset left with
  | zero =>
      have hzero : left = 0 := by omega
      rw [hzero]
      rfl
  | succ fuel ih =>
      rw [readUpTo]
      split
      · rename_i hzero
        rw [hzero]
        rfl
      · rename_i hleft
        have hlength := @length_readAt serving content offset left
        have hle := serving.served_le offset left (content.length - offset)
        split
        · rename_i hnone
          rw [hnone, List.length_nil] at hlength
          have hend : content.length - offset = 0 := by
            by_contra hmore
            have hprogress := serving.progress offset left
              (content.length - offset) (by omega) (by omega)
            omega
          rw [slice_eq_take, hend, Nat.min_zero]
          rfl
        · rename_i hsome
          have hpos := List.length_pos_of_ne_nil hsome
          have hsplit : left =
              (serving.readAt content offset left).length +
                (left - (serving.readAt content offset left).length) := by
            omega
          rw [ih (by omega)]
          conv_rhs => rw [hsplit, slice_add]
          rw [hlength]
          rfl

theorem readUpToAt_eq (offset count : Nat) :
    serving.readUpToAt content offset count = slice content offset count :=
  readUpTo_eq le_rfl

theorem readFullAt_eq {offset count : Nat}
    (h : offset + count ≤ content.length) :
    serving.readFullAt content offset count =
      some (slice content offset count) := by
  rw [readFullAt, readUpToAt_eq, if_neg]
  rw [length_slice h]
  exact lt_irrefl count

/-- A block read from its aligned start holds what is wanted of it. -/
theorem bounce_eq {fuel cursor left : Nat} (hfuel : left ≤ fuel)
    (h : cursor + left ≤ content.length) :
    serving.bounce content fuel cursor left =
      some (slice content cursor left) := by
  induction fuel generalizing cursor left with
  | zero =>
      have hzero : left = 0 := by omega
      rw [hzero]
      rfl
  | succ fuel ih =>
      rw [bounce]
      split
      · rename_i hzero
        rw [hzero]
        rfl
      · rename_i hleft
        have hskip : cursor - (cursor - cursor % directAlignment) =
            cursor % directAlignment := by
          have hle := Nat.mod_le cursor directAlignment
          omega
        have hblock : cursor % directAlignment < 4096 :=
          Nat.mod_lt _ (by decide)
        simp only [hskip, readUpToAt_eq]
        set skip := cursor % directAlignment
        set want := min left (bounceBytes - skip) with hwant
        have hroom : skip + want ≤ bounceBytes := by
          rw [hwant, bounceBytes]
          omega
        have hread : skip + want ≤ min
            ((skip + want + directAlignment - 1) / directAlignment *
              directAlignment) bounceBytes := by
          refine le_min ?_ hroom
          rw [directAlignment]
          omega
        have hprogress : 0 < want := by
          rw [hwant, bounceBytes]
          omega
        have hstart : cursor - skip + skip = cursor :=
          Nat.sub_add_cancel (Nat.mod_le cursor directAlignment)
        rw [if_neg, ih (by omega) (by omega), slice_slice hread, hstart,
          Option.bind_eq_bind, Option.bind_some, ← slice_add]
        · congr 2
          omega
        · rw [slice, List.length_take, List.length_drop]
          omega

/-- The bounce buffer and the caller's own take the same bytes. -/
theorem directRead_eq {within count : Nat} (address : Nat)
    (h : within + count ≤ content.length) :
    serving.directRead content within address count =
      some (slice content within count) := by
  rw [directRead]
  split
  · have hbody : count - count % directAlignment ≤ count := Nat.sub_le _ _
    have htail : count - (count - count % directAlignment) =
        count % directAlignment := by
      have hle := Nat.mod_le count directAlignment
      omega
    simp only [htail, readUpToAt_eq]
    rw [readFullAt_eq (by omega), Option.bind_eq_bind, Option.bind_some]
    have hless : count % directAlignment < directAlignment :=
      Nat.mod_lt _ (by decide)
    have hsplit : count = count - count % directAlignment +
        count % directAlignment :=
      (Nat.sub_add_cancel (Nat.mod_le count directAlignment)).symm
    split
    · rw [if_neg]
      · conv_rhs => rw [hsplit, slice_add]
        rw [slice, slice, slice, List.take_take, Nat.min_eq_left hless.le]
      · rw [slice, List.length_take, List.length_drop]
        omega
    · rename_i hwhole
      have hzero : count % directAlignment = 0 := by omega
      rw [hzero, Nat.sub_zero]
  · exact bounce_eq le_rfl h

end Serving

/-! Filling the destination. -/

namespace StreamReader

variable {P : Platform} {reader : StreamReader P} {serving : Serving}

/-- Both modes read an object's bytes. -/
theorem readObject_eq {digest : ObjectDigest} {content : Bytes}
    (hopen : reader.store.openObject digest = some content)
    {within count : Nat} (address : Nat)
    (h : within + count ≤ content.length) :
    reader.readObject serving digest within address count =
      some (slice content within count) := by
  rw [readObject, hopen, Option.bind_eq_bind, Option.bind_some]
  split
  · exact Serving.readFullAt_eq h
  · exact Serving.directRead_eq address h

theorem slice_replicate {count start length : Nat}
    (h : start + length ≤ count) :
    slice (List.replicate count 0) start length =
      List.replicate length 0 := by
  rw [slice, List.drop_replicate, List.take_replicate,
    Nat.min_eq_left (by omega)]

/-- One record's share of the destination. -/
theorem readRecord_eq {record : FileRecord} {front : Bytes}
    (hrecord : recordBytes reader.store record = some front)
    {within count : Nat} (address : Nat)
    (h : within + count ≤ record.size) :
    reader.readRecord serving record within address count =
      some (slice front within count) := by
  cases record with
  | hole length =>
      cases hrecord
      exact congrArg some (slice_replicate h).symm
  | data digest length =>
      obtain ⟨hopen, hlength⟩ := recordBytes_data hrecord
      exact readObject_eq hopen address (le_of_le_of_eq h hlength.symm)

/-- The part of a range inside one record, and the part behind it. -/
theorem slice_record {front rest : Bytes} {within count : Nat}
    (h : within ≤ front.length) :
    slice (front ++ rest) within count =
      slice front within (min count (front.length - within)) ++
        slice rest 0 (count - (front.length - within)) := by
  rcases Nat.le_total count (front.length - within) with hle | hge
  · rw [Nat.min_eq_left hle, Nat.sub_eq_zero_of_le hle,
      slice_append_left (by omega)]
    simp [slice]
  · have hsplit : count = front.length - within +
        (count - (front.length - within)) := by omega
    have hend : within + (front.length - within) = front.length + 0 := by
      omega
    rw [Nat.min_eq_right hge]
    conv_lhs => rw [hsplit, slice_add, hend, slice_append_right]
    rw [slice_append_left (by omega)]

/-- What was filled stays, and the rest of the destination becomes the file's
bytes from there on. -/
theorem fillSegments_eq {records : List FileRecord} {start : Nat}
    {bytes destination : Bytes} (address offset : Nat)
    (hfile : fileBytes reader.store records = some bytes)
    (hfits : start + bytes.length < 2 ^ 64)
    (hstop : offset + destination.length ≤ start + bytes.length) :
    reader.fillSegments serving address offset (offset + destination.length)
        (segmentsFrom start records) destination =
      some (destination.take (max offset start - offset) ++
        slice bytes (max offset start - start)
          (offset + destination.length - max offset start)) := by
  induction records generalizing start bytes destination with
  | nil =>
      cases hfile
      rw [List.length_nil] at hstop
      rw [List.take_of_length_le (by omega)]
      simp [segmentsFrom, fillSegments, slice]
  | cons record records ih =>
      obtain ⟨front, rest, hfront, hrest, rfl⟩ := fileBytes_cons.mp hfile
      have hsize := recordBytes_length hfront
      rw [List.length_append] at hstop hfits
      have hmod : (start + record.size) % 2 ^ 64 = start + record.size :=
        Nat.mod_eq_of_lt (by omega)
      rw [segmentsFrom, fillSegments, hmod]
      simp only
      split
      · rename_i hbefore
        have hindex : max offset start - start =
            front.length + (max offset (start + record.size) -
              (start + record.size)) := by omega
        rw [ih hrest (by omega) (by omega), hindex, slice_append_right,
          Nat.max_eq_left hbefore, Nat.max_eq_left (by omega)]
      · split
        · rename_i hafter
          have hnone : offset + destination.length - max offset start = 0 := by
            omega
          rw [List.take_of_length_le (by omega), hnone]
          simp [slice]
        · rename_i hbefore hafter
          have hread := @readRecord_eq P reader serving record front hfront
            (max offset start - start)
            (min (offset + destination.length) (start + record.size) -
              max offset start)
            (address + (max offset start - offset)) (by omega)
          have hbytes : (slice front (max offset start - start)
              (min (offset + destination.length) (start + record.size) -
                max offset start)).length =
              min (offset + destination.length) (start + record.size) -
                max offset start := length_slice (by omega)
          rw [hread, Option.bind_eq_bind, Option.bind_some]
          set bytes := slice front (max offset start - start)
            (min (offset + destination.length) (start + record.size) -
              max offset start)
          have hpatched := @length_patch _ destination bytes
            (max offset start - offset) (by omega)
          have hnext := @ih (start + record.size) rest (patch destination
            (max offset start - offset) bytes) hrest (by omega) (by omega)
          rw [hpatched] at hnext
          have hbehind : max offset (start + record.size) =
              start + record.size := by omega
          rw [hnext, hbehind, Nat.sub_self]
          have htotal : offset + destination.length - max offset start -
              (front.length - (max offset start - start)) =
                offset + destination.length - (start + record.size) := by
            omega
          have hinside : min (offset + destination.length - max offset start)
              (front.length - (max offset start - start)) =
                min (offset + destination.length) (start + record.size) -
                  max offset start := by omega
          rw [slice_record (by omega), htotal, hinside, ← List.append_assoc]
          congr 2
          have hreach := @take_patch _ destination bytes
            (max offset start - offset) (by omega)
          rcases Nat.le_total (offset + destination.length)
            (start + record.size) with hle | hge
          · rw [← hreach, List.take_of_length_le (by omega),
              List.take_of_length_le (by omega)]
          · rw [← hreach]
            congr 1
            omega

/-- A reader over a stored run leaves the asked range in the destination. -/
theorem readExactAt_eq {linux : Bool} {store : ObjectStore P}
    {records : List FileRecord} {mode : ReadMode} {bytes : Bytes}
    (hnew : new linux store records mode = some reader)
    (hfile : fileBytes store records = some bytes)
    (hfits : bytes.length < 2 ^ 64) (address offset : Nat)
    (destination : Bytes) :
    reader.readExactAt serving address offset destination =
      if offset + destination.length ≤ bytes.length then
        some (slice bytes offset destination.length)
      else none := by
  unfold new at hnew
  split at hnew
  · cases hnew
  · cases hnew
    have hlength : totalSize records % 2 ^ 64 = bytes.length := by
      rw [← fileBytes_length hfile]
      exact Nat.mod_eq_of_lt hfits
    rw [readExactAt]
    simp only [hlength]
    by_cases hinside : offset + destination.length ≤ bytes.length
    · rw [if_pos ⟨lt_of_le_of_lt hinside hfits, hinside⟩, if_pos hinside]
      have hfill := @fillSegments_eq P
        ⟨store, segmentsFrom 0 records, bytes.length, mode⟩ serving records 0
        bytes destination address offset hfile (by omega) (by omega)
      rw [hfill, Nat.max_eq_left (Nat.zero_le offset), Nat.sub_self,
        Nat.sub_zero, Nat.add_sub_cancel_left]
      rfl
    · rw [if_neg fun h => hinside h.2, if_neg hinside]

end StreamReader

/-- Every read path returns the same slice of a committed file, and refuses
the same ranges. -/
theorem read_paths_agree {P : Platform} {store : ObjectStore P}
    {records : List FileRecord} {size : UInt64} {bytes : Bytes}
    (hvalid : validateRecordRun records size = .ok ())
    (hfile : fileBytes store records = some bytes) (serving : Serving)
    (offset : Nat) (destination : Bytes) :
    (recordsSource store records).readAt offset destination.length =
        (if offset + destination.length ≤ bytes.length then
          some (slice bytes offset destination.length)
        else none) ∧
      ∀ linux mode reader,
        StreamReader.new linux store records mode = some reader →
          ∀ address,
            reader.readExactAt serving address offset destination =
              if offset + destination.length ≤ bytes.length then
                some (slice bytes offset destination.length)
              else none := by
  obtain ⟨⟨-, -, htotal⟩, -⟩ := validateRecordRun_eq_ok.mp hvalid
  have hfits : bytes.length < 2 ^ 64 := by
    rw [fileBytes_length hfile]
    exact htotal
  constructor
  · rw [@recordsSource_eq_slice P store records ⟨bytes, hfits⟩ hfile]
    rfl
  · intro linux mode reader hnew address
    exact StreamReader.readExactAt_eq hnew hfile hfits address offset
      destination

/-- Reads that are short only at the end of the file. -/
def Serving.whole : Serving :=
  ⟨fun _ asked available => min asked available, fun _ _ _ => le_rfl,
    fun _ _ _ hasked havailable => lt_min hasked havailable⟩

/-! An object of three bytes and a hole of two behind it. -/

namespace BorderFile

def platform : Platform := ⟨asciiUnicode, sha256, fun _ => none⟩

def store : ObjectStore platform where
  resident := [(sha256 [1, 2, 3], [1, 2, 3])]
  admitted := [[1, 2, 3]]
  keyed := by simp [platform]

def records : List FileRecord := [.data (sha256 [1, 2, 3]) 3, .hole 2]

theorem fileBytes_records :
    fileBytes store records = some [1, 2, 3, 0, 0] := by
  simp [fileBytes, recordBytes, records, store, ObjectStore.openObject]

end BorderFile

/-- The object's last byte and a zero behind it, read to an odd address. -/
theorem read_paths_agree_border :
    ∃ reader, StreamReader.new true BorderFile.store BorderFile.records
        .direct = some reader ∧
      reader.readExactAt .whole 1 2 [9, 9] = some [3, 0] := by
  have hvalid : validateRecordRun BorderFile.records 5 = .ok () := rfl
  exact ⟨_, rfl, (read_paths_agree hvalid BorderFile.fileBytes_records .whole
    2 [9, 9]).2 true .direct _ rfl 1⟩

end TensorFS
