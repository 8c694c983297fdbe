import TensorFS.Data.Cells
import TensorFS.Data.Utf8Chunks
import TensorFS.Planner.GgufReader
import TensorFS.Planner.Hash

namespace TensorFS.Gguf

open Data

/-! Skipping a string checks it as a whole, in pieces. -/

/-- The buffer of `skipUtf8String`, four bytes longer than a chunk. -/
def utf8BufferLen : Nat := 8196

/-- The bytes from `start` up to `stop` moved to the front of the buffer. -/
def copyWithin (buffer : Bytes) (start stop : Nat) : Bytes :=
  (buffer.take stop).drop start ++ buffer.drop (stop - start)

/-- The chunk loop over the buffer itself; none where a slice would reach
beyond it. -/
def skipUtf8Buffered (source : ByteSource) :
    Nat → Bytes → Nat → Nat → Cursor →
      Option (Except ParseFailure (Unit × Cursor))
  | 0, _, pending, _, cursor => some (guarded (pending = 0) cursor)
  | rounds + 1, buffer, pending, left, cursor =>
      if left = 0 then some (guarded (pending = 0) cursor)
      else if buffer.length < pending + min left 8192 then none
      else
        match fetch source (min left 8192) cursor with
        | .error failure => some (.error failure)
        | .ok (bytes, cursor) =>
            let filled := patch buffer pending bytes
            let used := pending + min left 8192
            match checkUtf8 (filled.take used) with
            | .valid =>
                skipUtf8Buffered source rounds filled 0
                  (left - min left 8192) cursor
            | .incomplete valid =>
                if 3 < used - valid then some (.error .invalid)
                else
                  skipUtf8Buffered source rounds (copyWithin filled valid used)
                    (used - valid) (left - min left 8192) cursor
            | .invalid _ => some (.error .invalid)

section

variable {content : Slice} {cursor : Cursor} {rounds left : Nat}
  {pending : Bytes} {owed : List (UInt8 × UInt8)}

theorem parser_bind_of_ok {α β : Type} {m : Parser α} {f : α → Parser β}
    {a : α} {next : Cursor} (h : m cursor = .ok (a, next)) :
    (m >>= f) cursor = f a next := by
  change (m cursor >>= fun p => f p.1 p.2) = f a next
  rw [h]
  rfl

theorem guarded_of {p : Prop} [Decidable p] (h : p) :
    guarded p cursor = .ok ((), cursor) := if_pos h

theorem guarded_of_not {p : Prop} [Decidable p] (h : ¬ p) :
    guarded p cursor = .error .invalid := if_neg h

theorem parser_bind_of_not {β : Type} {p : Prop} [Decidable p]
    {f : Unit → Parser β} (h : ¬ p) :
    (guarded p >>= f) cursor = .error .invalid := by
  change (guarded p cursor >>= fun found => f found.1 found.2) = _
  rw [guarded_of_not h]
  rfl

theorem fetch_slice {count : Nat}
    (h : cursor.position + count ≤ content.bytes.length) :
    fetch content.source count cursor =
      .ok (slice content.bytes cursor.position count,
        { cursor with position := cursor.position + count }) := by
  simp only [fetch, Slice.source, if_pos h]

/-- What the loop answers from a cut character on. -/
def stringResult (content : Slice) (cursor : Cursor) (left : Nat)
    (owed : List (UInt8 × UInt8)) : Except ParseFailure (Unit × Cursor) :=
  if utf8Owed owed (slice content.bytes cursor.position left) = some [] then
    .ok ((), { cursor with position := cursor.position + left })
  else .error .invalid

theorem stringResult_done (hcut : CutShort pending owed)
    (hnone : owed = [] → pending = []) :
    guarded (pending = []) cursor = stringResult content cursor 0 owed := by
  have hsame : pending = [] ↔ some owed = some [] := by
    constructor
    · intro hempty
      have howes := hcut.owes
      rw [hempty, utf8Owed_nil] at howes
      exact howes.symm
    · intro howes
      exact hnone (Option.some.inj howes)
  rw [guarded, stringResult, slice, List.take_zero, utf8Owed_nil]
  simp only [hsame]
  rfl

theorem stringResult_chunk {count : Nat} (h : count ≤ left)
    {rest : List (UInt8 × UInt8)}
    (howed : utf8Owed owed (slice content.bytes cursor.position count) =
      some rest) :
    stringResult content cursor left owed =
      stringResult content
        { cursor with position := cursor.position + count } (left - count)
        rest := by
  have hsplit : left = count + (left - count) := by omega
  unfold stringResult
  simp only
  rw [hsplit, slice_add, utf8Owed_append, howed, Option.bind_some,
    Nat.add_sub_cancel_left, Nat.add_assoc]

theorem stringResult_refused {count : Nat} (h : count ≤ left)
    (howed : utf8Owed owed (slice content.bytes cursor.position count) =
      none) : stringResult content cursor left owed = .error .invalid := by
  have hsplit : left = count + (left - count) := by omega
  rw [stringResult, hsplit, slice_add, utf8Owed_append, howed]
  rfl

/-- The chunk loop is the scan of the whole string. -/
theorem skipUtf8Chunks_eq (hcut : CutShort pending owed)
    (hnone : owed = [] → pending = [])
    (hinside : cursor.position + left ≤ content.bytes.length)
    (hrounds : left ≤ rounds * 8192) :
    skipUtf8Chunks content.source rounds pending left cursor =
      stringResult content cursor left owed := by
  induction rounds generalizing pending owed left cursor with
  | zero =>
      have hzero : left = 0 := by omega
      subst hzero
      exact stringResult_done hcut hnone
  | succ rounds ih =>
      rw [skipUtf8Chunks]
      split
      · rename_i hzero
        rw [hzero]
        exact stringResult_done hcut hnone
      · have hchunk : cursor.position + min left 8192 ≤
            content.bytes.length := by omega
        rw [parser_bind_of_ok (fetch_slice hchunk)]
        have hused : utf8Owed [] (pending ++
            slice content.bytes cursor.position (min left 8192)) =
              utf8Owed owed
                (slice content.bytes cursor.position (min left 8192)) := by
          rw [utf8Owed_append, hcut.owes, Option.bind_some]
        cases hcheck : checkUtf8 (pending ++
            slice content.bytes cursor.position (min left 8192)) with
        | valid =>
            have hanswers := checkUtf8_answers (pending ++
              slice content.bytes cursor.position (min left 8192))
            rw [hcheck, hused] at hanswers
            rw [stringResult_chunk (Nat.min_le_left left 8192) hanswers]
            exact ih CutShort.nil (fun _ => rfl) (by simp only; omega)
              (by omega)
        | incomplete valid =>
            obtain ⟨rest, howed, hne, hlength, hrest⟩ :=
              drop_of_incomplete hcheck
            have hshort := hrest.short
            have hsome := List.length_pos_of_ne_nil hne
            rw [hused] at howed
            rw [stringResult_chunk (Nat.min_le_left left 8192) howed]
            simp only
            rw [parser_bind_of_ok (guarded_of (by omega))]
            exact ih hrest (fun heq => absurd heq hne) (by simp only; omega)
              (by omega)
        | invalid valid =>
            have hanswers := checkUtf8_answers (pending ++
              slice content.bytes cursor.position (min left 8192))
            rw [hcheck, hused] at hanswers
            rw [stringResult_refused (Nat.min_le_left left 8192) hanswers]
            rfl

/-! The loop over the buffer. -/

theorem take_copyWithin {buffer : Bytes} {start stop : Nat}
    (h : stop ≤ buffer.length) :
    (copyWithin buffer start stop).take (stop - start) =
      (buffer.take stop).drop start := by
  have hlength : ((buffer.take stop).drop start).length = stop - start := by
    rw [List.length_drop, List.length_take, Nat.min_eq_left h]
  rw [copyWithin]
  exact List.take_left' hlength

theorem length_copyWithin {buffer : Bytes} {start stop : Nat}
    (h : stop ≤ buffer.length) :
    (copyWithin buffer start stop).length = buffer.length := by
  rw [copyWithin, List.length_append, List.length_drop, List.length_take,
    List.length_drop]
  omega

/-- The buffer holds every cut character and the chunk behind it. -/
theorem skipUtf8Buffered_eq {buffer : Bytes} {cut : Nat}
    (hbuffer : buffer.length = utf8BufferLen) (hcut : cut ≤ 3)
    (hpending : buffer.take cut = pending)
    (hinside : cursor.position + left ≤ content.bytes.length) :
    skipUtf8Buffered content.source rounds buffer cut left cursor =
      some (skipUtf8Chunks content.source rounds pending left cursor) := by
  have hempty : cut = 0 ↔ pending = [] := by
    rw [← hpending, ← List.length_eq_zero_iff, List.length_take, hbuffer,
      utf8BufferLen]
    omega
  induction rounds generalizing buffer cut pending left cursor with
  | zero =>
      rw [skipUtf8Buffered, skipUtf8Chunks]
      simp only [hempty]
  | succ rounds ih =>
      rw [skipUtf8Buffered, skipUtf8Chunks]
      split
      · simp only [hempty]
      · have hchunk : cursor.position + min left 8192 ≤
            content.bytes.length := by omega
        have hread := length_slice hchunk
        have hroom : cut + min left 8192 ≤ buffer.length := by
          rw [hbuffer, utf8BufferLen]
          omega
        have htaken := @take_patch _ buffer
          (slice content.bytes cursor.position (min left 8192)) cut
          (by omega)
        rw [hread, hpending] at htaken
        have hfilled := @length_patch _ buffer
          (slice content.bytes cursor.position (min left 8192)) cut
          (by omega)
        rw [if_neg (not_lt.mpr hroom), fetch_slice hchunk,
          parser_bind_of_ok (fetch_slice hchunk)]
        simp only [htaken]
        have hused : (pending ++
            slice content.bytes cursor.position (min left 8192)).length =
              cut + min left 8192 := by
          rw [← htaken, List.length_take, hfilled]
          omega
        cases checkUtf8 (pending ++
            slice content.bytes cursor.position (min left 8192)) with
        | valid =>
            exact ih (hfilled.trans hbuffer) (Nat.zero_le 3) rfl
              (by simp only; omega) (by simp)
        | incomplete valid =>
            simp only
            split
            · rename_i hlong
              have hnot : ¬ (pending ++ slice content.bytes cursor.position
                  (min left 8192)).length - valid ≤ 3 := by
                rw [hused]
                exact not_le.mpr hlong
              exact congrArg some (parser_bind_of_not hnot).symm
            · rename_i hshort
              have hmoved := @take_copyWithin
                (patch buffer cut (slice content.bytes cursor.position
                  (min left 8192))) valid (cut + min left 8192) (by omega)
              rw [htaken] at hmoved
              rw [parser_bind_of_ok (guarded_of (by omega))]
              refine ih ?_ (not_lt.mp hshort) hmoved (by simp only; omega) ?_
              · rw [length_copyWithin (by omega), hfilled, hbuffer]
              · rw [← List.length_eq_zero_iff, List.length_drop, hused]
        | invalid valid => rfl

/-! The string with its length prefix. -/

theorem ensureNext_of {length : Nat}
    (hinside : cursor.position + length ≤ content.bytes.length)
    (hlimit : ∀ limit ∈ cursor.limit, cursor.position + length ≤ limit) :
    ensureNext content.source length cursor = .ok ((), cursor) :=
  if_pos ⟨lt_of_le_of_lt hinside content.fits, hinside, hlimit⟩

theorem chargeBytes_of {count : Nat}
    (h : cursor.valueBytes + count ≤ maxMetadataValueBytes) :
    chargeBytes count cursor =
      .ok ((), { cursor with valueBytes := cursor.valueBytes + count }) :=
  if_pos ⟨lt_of_le_of_lt h (by decide), h⟩

theorem readU64_of
    (hinside : cursor.position + 8 ≤ content.bytes.length)
    (hlimit : ∀ limit ∈ cursor.limit, cursor.position + 8 ≤ limit) :
    readU64 content.source cursor =
      .ok (leNat (slice content.bytes cursor.position 8),
        { cursor with position := cursor.position + 8 }) := by
  have hread : read content.source 8 cursor =
      .ok (slice content.bytes cursor.position 8,
        { cursor with position := cursor.position + 8 }) := by
    rw [read, parser_bind_of_ok (ensureNext_of hinside hlimit),
      fetch_slice hinside]
  rw [readU64, parser_bind_of_ok hread]
  rfl

end

/-- Where the reader is behind the length of a string. -/
def Cursor.behindLength (cursor : Cursor) (length : Nat) : Cursor :=
  { cursor with
    position := cursor.position + 8
    valueBytes := cursor.valueBytes + length }

/-- A string within the limits is skipped just when it is UTF-8; its buffer
holds every chunk, wherever a character is cut. -/
theorem skipUtf8String_eq (content : Slice) (front string rest : Bytes)
    (hcontent : content.bytes =
      front ++ (leBytes 8 string.length ++ (string ++ rest)))
    (cursor : Cursor) (hposition : cursor.position = front.length)
    (hlimit : ∀ limit ∈ cursor.limit,
      front.length + 8 + string.length ≤ limit)
    (hbudget : cursor.valueBytes + string.length ≤ maxMetadataValueBytes) :
    skipUtf8String content.source cursor =
        (if (Text.fromUtf8 string).isSome then
          .ok ((), { cursor with
            position := cursor.position + (8 + string.length)
            valueBytes := cursor.valueBytes + string.length })
        else .error .invalid) ∧
      skipUtf8Buffered content.source (string.length / 8192 + 1)
          (List.replicate utf8BufferLen 0) 0 string.length
          (cursor.behindLength string.length) =
        some (skipUtf8String content.source cursor) := by
  have htotal : content.bytes.length =
      front.length + (8 + (string.length + rest.length)) := by
    rw [hcontent]
    simp only [List.length_append, length_leBytes]
  have hfits := content.fits
  have hlengthBytes : slice content.bytes cursor.position 8 =
      leBytes 8 string.length := by
    rw [hcontent, hposition, slice, List.drop_left]
    exact List.take_left' (length_leBytes 8 string.length)
  have hbody : slice content.bytes (cursor.position + 8) string.length =
      string := by
    have hbehind := slice_append_right (leBytes 8 string.length)
      (string ++ rest) 0 string.length
    rw [length_leBytes] at hbehind
    rw [hcontent, hposition, slice_append_right, hbehind,
      slice_append_left (by omega), slice_all]
  have hread := @readU64_of content cursor (by omega)
    fun limit hmem => by have := hlimit limit hmem; omega
  rw [hlengthBytes, leNat_leBytes (by omega)] at hread
  have hinside : (cursor.behindLength string.length).position +
      string.length ≤ content.bytes.length := by
    simp only [Cursor.behindLength]
    omega
  have hcharge := @chargeBytes_of
    { cursor with position := cursor.position + 8 } string.length hbudget
  have hensure := @ensureNext_of content
    (cursor.behindLength string.length) string.length hinside
    fun limit hmem => by
      have := hlimit limit hmem
      simp only [Cursor.behindLength]
      omega
  have hloop : skipUtf8String content.source cursor =
      skipUtf8Chunks content.source (string.length / 8192 + 1) []
        string.length (cursor.behindLength string.length) := by
    rw [skipUtf8String, parser_bind_of_ok hread, parser_bind_of_ok hcharge]
    exact parser_bind_of_ok hensure
  have hresult := @skipUtf8Chunks_eq content
    (cursor.behindLength string.length) (string.length / 8192 + 1)
    string.length [] [] CutShort.nil (fun _ => rfl) hinside (by omega)
  rw [hloop]
  refine ⟨?_, skipUtf8Buffered_eq List.length_replicate (Nat.zero_le 3) rfl
    hinside⟩
  rw [hresult, stringResult]
  simp only [Cursor.behindLength, hbody, utf8Owed_eq_nil, Nat.add_assoc]

/-! A currency sign across the border of the first chunk. -/

namespace Border

def text : Text := List.replicate 8190 'a' ++ ['€', 'b']

def front : Bytes := [4, 0, 0]

def bytes : Bytes :=
  front ++ (leBytes 8 text.utf8.length ++ (text.utf8 ++ [7]))

theorem length_text : text.utf8.length = 8194 := by
  have hword : ∀ count, (Text.utf8 (List.replicate count 'a')).length =
      count := by
    intro count
    induction count with
    | zero => rfl
    | succ count ih =>
        rw [List.replicate_succ, Text.utf8_cons, List.length_append, ih,
          Nat.add_comm]
        rfl
  have htail : (Text.utf8 ['€', 'b']).length = 4 := by decide
  rw [text, Text.utf8_append, List.length_append, hword, htail]

theorem length_bytes : bytes.length = 8206 := by
  rw [bytes, List.length_append, List.length_append, length_leBytes,
    List.length_append, length_text]
  rfl

def content : Slice := ⟨bytes, by rw [length_bytes]; decide⟩

/-- The limit is where the string ends. -/
def cursor : Cursor := ⟨3, some 8205, 1, 5, 0⟩

end Border

/-- The sign is read in two parts and the string is skipped up to its limit. -/
theorem skipUtf8String_eq_border :
    skipUtf8String Border.content.source Border.cursor =
        .ok ((), ⟨8205, some 8205, 1, 8199, 0⟩) ∧
      skipUtf8Buffered Border.content.source 2
          (List.replicate utf8BufferLen 0) 0 8194
          ⟨11, some 8205, 1, 8199, 0⟩ =
        some (.ok ((), ⟨8205, some 8205, 1, 8199, 0⟩)) := by
  obtain ⟨hskip, hbuffered⟩ := skipUtf8String_eq Border.content Border.front
    Border.text.utf8 [7] rfl Border.cursor rfl
    (fun limit hmem => by
      cases hmem
      rw [Border.length_text]
      decide)
    (by rw [Border.length_text]; decide)
  rw [Text.fromUtf8_utf8, Option.isSome_some, if_pos rfl,
    Border.length_text] at hskip
  rw [hskip, Border.length_text] at hbuffered
  exact ⟨hskip, hbuffered⟩

end TensorFS.Gguf
