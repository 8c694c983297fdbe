import TensorFS.Store.FileBytes
import TensorFS.Workspace.Mutation

namespace TensorFS

open Data

/-! What truncation makes of a record run. -/

/-- The length lies strictly inside a data record. -/
def CutsData (length : Nat) (records : List FileRecord) : Prop :=
  ∃ front digest size back, records = front ++ .data digest size :: back ∧
    totalSize front < length ∧ length < totalSize front + size.toNat

/-- A data record of the run that ends by the length stands in the other run
behind the same records. -/
def KeepsData (length : Nat) (records kept : List FileRecord) : Prop :=
  ∀ front digest size back, records = front ++ .data digest size :: back →
    totalSize front + size.toNat ≤ length →
      ∃ rest, kept = front ++ .data digest size :: rest

variable {length position stop : Nat} {record : FileRecord}
  {records kept : List FileRecord} {previousWasHole : Bool}

theorem cutsData_cons : CutsData length (record :: records) ↔
    (record.isHole = false ∧ 0 < length ∧ length < record.size) ∨
      (record.size < length ∧ CutsData (length - record.size) records) := by
  constructor
  · intro h
    obtain ⟨front, digest, size, back, hsplit, hbehind, hbefore⟩ := h
    cases front with
    | nil =>
        cases hsplit
        rw [totalSize_nil, Nat.zero_add] at hbefore
        exact .inl ⟨rfl, hbehind, hbefore⟩
    | cons head front =>
        cases hsplit
        rw [totalSize_cons] at hbehind hbefore
        exact .inr ⟨by omega, front, digest, size, back, rfl, by omega,
          by omega⟩
  · intro h
    rcases h with ⟨hdata, hpos, hsize⟩ | ⟨hbehind, hrest⟩
    · cases record with
      | hole size => cases hdata
      | data digest size =>
          refine ⟨[], digest, size, records, rfl, hpos, ?_⟩
          rw [totalSize_nil, Nat.zero_add]
          exact hsize
    · obtain ⟨front, digest, size, back, rfl, hfront, hback⟩ := hrest
      refine ⟨record :: front, digest, size, back, rfl, ?_, ?_⟩
      · rw [totalSize_cons]
        omega
      · rw [totalSize_cons]
        omega

theorem keepsData_cons (h : KeepsData (length - record.size) records kept)
    (hsize : record.size ≤ length) :
    KeepsData length (record :: records) (record :: kept) := by
  intro front digest size back hsplit hends
  cases front with
  | nil =>
      cases hsplit
      exact ⟨kept, rfl⟩
  | cons head front =>
      cases hsplit
      rw [totalSize_cons] at hends
      obtain ⟨rest, hrest⟩ := h front digest size back rfl (by omega)
      exact ⟨rest, congrArg (record :: ·) hrest⟩

/-- No record that ends at the start of the run is kept by keeping nothing. -/
theorem keepsData_nil (h : ∀ record ∈ records, length < record.size) :
    KeepsData length records [] := by
  intro front digest size back hsplit hends
  have hmem : .data digest size ∈ records := by
    rw [hsplit]
    exact List.mem_append_right front List.mem_cons_self
  have hlong := h _ hmem
  simp only [FileRecord.size, FileRecord.length] at hlong
  omega

/-- The records kept from `position` on, and where they end. -/
structure Cut (length position : Nat) (previousWasHole : Bool)
    (records kept : List FileRecord) (stop : Nat) : Prop where
  below : stop ≤ length
  reach : stop = position + totalSize kept
  whole : stop = length ∨ kept = records
  shape : RunShape previousWasHole kept
  bytes : ∀ {P : Platform} (store : ObjectStore P) bytes,
    fileBytes store records = some bytes →
      fileBytes store kept = some (bytes.take (stop - position))
  keeps : KeepsData (length - position) records kept
  clear : ¬ CutsData (length - position) records

theorem Cut.none (hle : position ≤ length) (hshape : RunShape previousWasHole
    records) (hend : position = length ∨ records = []) :
    Cut length position previousWasHole records [] position := by
  refine ⟨hle, rfl, hend.imp id Eq.symm, trivial, fun store bytes _ => ?_,
    keepsData_nil fun record hmem => ?_, ?_⟩
  · rw [Nat.sub_self]
    rfl
  · rcases hend with heq | hnil
    · have hsize := hshape.ne_zero record hmem
      have hpos : record.size ≠ 0 :=
        fun hzero => hsize (UInt64.toNat_inj.mp hzero)
      omega
    · rw [hnil] at hmem
      cases hmem
  · intro h
    obtain ⟨front, digest, size, back, hsplit, hbehind, _⟩ := h
    rcases hend with heq | hnil
    · omega
    · rw [hnil] at hsplit
      exact absurd hsplit.symm (by simp)

theorem Cut.keep (hsize : position + record.size ≤ length)
    (hzero : record.length ≠ 0)
    (hhole : (previousWasHole && record.isHole) = false)
    (h : Cut length (position + record.size) record.isHole records kept stop) :
    Cut length position previousWasHole (record :: records) (record :: kept)
      stop := by
  obtain ⟨hbelow, hreach, hwhole, hshape, hbytes, hkeeps, hclear⟩ := h
  have hrest : length - position - record.size =
      length - (position + record.size) := by omega
  refine ⟨hbelow, ?_, hwhole.imp id (congrArg (record :: ·)),
    ⟨hzero, hhole, hshape⟩, fun store bytes hfile => ?_,
    keepsData_cons (hrest ▸ hkeeps) (by omega), ?_⟩
  · rw [totalSize_cons]
    omega
  · obtain ⟨front, rest, hfront, hback, rfl⟩ := fileBytes_cons.mp hfile
    refine fileBytes_cons.mpr ⟨front, _, hfront, hbytes store rest hback, ?_⟩
    have hlength := recordBytes_length hfront
    have hstep : stop - position - front.length =
        stop - (position + record.size) := by omega
    have hfull : front.length ≤ stop - position := by omega
    rw [List.take_append, hstep, List.take_of_length_le hfull]
  · rw [cutsData_cons, hrest]
    intro hcut
    rcases hcut with ⟨-, -, hinside⟩ | ⟨-, hcut⟩
    · omega
    · exact hclear hcut

theorem Cut.shrink {size : UInt64} (hinside : position < length)
    (hsize : length < position + size.toNat) (hfits : length < 2 ^ 64)
    (hhole : previousWasHole = false) :
    Cut length position previousWasHole (.hole size :: records)
      [.hole (UInt64.ofNat (length - position))] length := by
  have hkept : (UInt64.ofNat (length - position)).toNat =
      length - position := UInt64.toNat_ofNat_of_lt (show _ < 2 ^ 64 by omega)
  refine ⟨le_rfl, ?_, .inl rfl, ⟨?_, ?_, trivial⟩,
    fun store bytes hfile => ?_, ?_, ?_⟩
  · rw [totalSize_cons, totalSize_nil]
    simp only [FileRecord.size, FileRecord.length]
    omega
  · intro hzero
    have hnat := congrArg UInt64.toNat hzero
    simp only [FileRecord.length] at hnat
    rw [hkept] at hnat
    exact absurd hnat (by simp; omega)
  · rw [hhole]
    rfl
  · obtain ⟨front, rest, hfront, -, rfl⟩ := fileBytes_cons.mp hfile
    cases hfront
    rw [List.take_append_of_le_length (by rw [List.length_replicate]; omega),
      List.take_replicate, Nat.min_eq_left (by omega)]
    simp only [fileBytes, recordBytes, hkept, Option.bind_eq_bind,
      Option.bind_some, List.append_nil]
  · intro front digest size' back hsplit hends
    cases front with
    | nil => cases hsplit
    | cons head front =>
        cases hsplit
        rw [totalSize_cons] at hends
        simp only [FileRecord.size, FileRecord.length] at hends
        omega
  · rw [cutsData_cons]
    intro hcut
    rcases hcut with ⟨hdata, -⟩ | ⟨hbehind, -⟩
    · cases hdata
    · simp only [FileRecord.size, FileRecord.length] at hbehind
      omega

/-- What the loop of the truncation answers. -/
theorem cutRecords_spec (hle : position ≤ length) (hlength : length < 2 ^ 64)
    (hfits : position + totalSize records < 2 ^ 64)
    (hshape : RunShape previousWasHole records) :
    (cutRecords length position records = none ∧
        CutsData (length - position) records) ∨
      ∃ kept stop, cutRecords length position records = some (kept, stop) ∧
        Cut length position previousWasHole records kept stop := by
  induction records generalizing position previousWasHole with
  | nil => exact .inr ⟨[], position, rfl, Cut.none hle hshape (.inr rfl)⟩
  | cons record records ih =>
      obtain ⟨hzero, hhole, hrest⟩ := hshape
      rw [totalSize_cons] at hfits
      have hadd : checkedAdd position record.size =
          some (position + record.size) :=
        checkedAdd_eq_some.mpr ⟨rfl, by omega⟩
      unfold cutRecords
      split
      · rename_i hend
        exact .inr ⟨[], position, rfl,
          Cut.none hle ⟨hzero, hhole, hrest⟩ (.inl (by omega))⟩
      · rename_i hinside
        rw [hadd, Option.bind_eq_bind, Option.bind_some]
        split
        · rename_i hstop
          rcases ih hstop (by omega) hrest with ⟨hnone, hcut⟩ |
            ⟨kept, stop, hsome, hcut⟩
          · refine .inl ⟨by rw [hnone]; rfl, cutsData_cons.mpr (.inr ⟨?_, ?_⟩)⟩
            · obtain ⟨front, _, _, _, _, hbehind, _⟩ := hcut
              omega
            · rwa [Nat.sub_sub]
          · exact .inr ⟨record :: kept, stop, by rw [hsome]; rfl,
              hcut.keep hstop hzero hhole⟩
        · rename_i hstop
          cases record with
          | data digest size =>
              refine .inl ⟨rfl, cutsData_cons.mpr (.inl ⟨rfl, ?_, ?_⟩)⟩
              · omega
              · omega
          | hole size =>
              simp only [FileRecord.isHole, Bool.and_true] at hhole
              exact .inr ⟨_, length, rfl,
                Cut.shrink (by omega) (not_le.mp hstop) hlength hhole⟩

/-! Growing a run. -/

theorem runShape_concat : RunShape previousWasHole (records ++ [record]) ↔
    RunShape previousWasHole records ∧ record.length ≠ 0 ∧
      ((records.getLast?.map FileRecord.isHole).getD previousWasHole &&
        record.isHole) = false := by
  induction records generalizing previousWasHole with
  | nil => simp [RunShape]
  | cons head records ih =>
      rw [List.cons_append, RunShape, ih, RunShape]
      cases records with
      | nil => simp [and_assoc]
      | cons next records =>
          simp only [List.getLast?_cons_cons, and_assoc]
          rw [List.getLast?_eq_some_getLast (List.cons_ne_nil next records)]
          rfl

/-- The last hole grows, or a hole is put behind the last object. -/
theorem extendRecords_cases (kept : List FileRecord) (missing : Nat) :
    (∃ init size, kept = init ++ [.hole size] ∧
      extendRecords kept missing =
        init ++ [.hole (size + UInt64.ofNat missing)]) ∨
    ((kept.getLast?.map FileRecord.isHole).getD false = false ∧
      extendRecords kept missing = kept ++ [.hole (UInt64.ofNat missing)]) := by
  unfold extendRecords
  split
  · rename_i size hlast
    obtain ⟨init, rfl⟩ := List.getLast?_eq_some_iff.mp hlast
    exact .inl ⟨init, size, rfl, by rw [List.dropLast_concat]⟩
  · rename_i hlast
    refine .inr ⟨?_, rfl⟩
    cases hget : kept.getLast? with
    | none => rfl
    | some last =>
        cases last with
        | hole size => exact absurd hget (hlast size)
        | data digest size => rfl

section

variable {missing : Nat}

theorem toNat_missing (h : missing < 2 ^ 64) :
    (UInt64.ofNat missing).toNat = missing := UInt64.toNat_ofNat_of_lt' h

theorem totalSize_concat_hole (init : List FileRecord) (size : UInt64) :
    totalSize (init ++ [.hole size]) = totalSize init + size.toNat := by
  rw [totalSize_append, totalSize_cons, totalSize_nil]
  rfl

/-- A hole holds what was missing, and what the last one held. -/
theorem toNat_grown {init : List FileRecord} {size : UInt64}
    (hfits : totalSize (init ++ [.hole size]) + missing < 2 ^ 64) :
    (size + UInt64.ofNat missing).toNat = size.toNat + missing := by
  rw [totalSize_concat_hole] at hfits
  rw [UInt64.toNat_add, toNat_missing (by omega), Nat.mod_eq_of_lt (by omega)]

theorem totalSize_extendRecords (hfits : totalSize kept + missing < 2 ^ 64) :
    totalSize (extendRecords kept missing) = totalSize kept + missing := by
  rcases extendRecords_cases kept missing with
    ⟨init, size, rfl, hgrown⟩ | ⟨-, hgrown⟩
  · rw [hgrown, totalSize_concat_hole, totalSize_concat_hole,
      toNat_grown hfits, Nat.add_assoc]
  · rw [hgrown, totalSize_concat_hole, toNat_missing (by omega)]

theorem runShape_extendRecords (hshape : RunShape false kept)
    (hmissing : 0 < missing) (hfits : totalSize kept + missing < 2 ^ 64) :
    RunShape false (extendRecords kept missing) := by
  rcases extendRecords_cases kept missing with
    ⟨init, size, rfl, hgrown⟩ | ⟨hsolid, hgrown⟩
  · obtain ⟨hfront, -, hhole⟩ := runShape_concat.mp hshape
    rw [hgrown]
    refine runShape_concat.mpr ⟨hfront, fun hzero => ?_, hhole⟩
    have hnat := congrArg UInt64.toNat hzero
    rw [FileRecord.length, toNat_grown hfits, UInt64.toNat_zero] at hnat
    omega
  · rw [hgrown]
    refine runShape_concat.mpr ⟨hshape, fun hzero => ?_, ?_⟩
    · have hnat := congrArg UInt64.toNat hzero
      rw [FileRecord.length, toNat_missing (by omega), UInt64.toNat_zero]
        at hnat
      omega
    · rw [hsolid]
      rfl

theorem fileBytes_hole {P : Platform} (store : ObjectStore P) (size : UInt64) :
    fileBytes store [.hole size] = some (List.replicate size.toNat 0) := by
  simp only [fileBytes, recordBytes, Option.bind_eq_bind, Option.bind_some,
    List.append_nil]

theorem fileBytes_extendRecords {P : Platform} {store : ObjectStore P}
    {bytes : Bytes} (hfits : totalSize kept + missing < 2 ^ 64)
    (hfile : fileBytes store kept = some bytes) :
    fileBytes store (extendRecords kept missing) =
      some (bytes ++ List.replicate missing 0) := by
  rcases extendRecords_cases kept missing with
    ⟨init, size, rfl, hgrown⟩ | ⟨-, hgrown⟩
  · obtain ⟨left, right, hleft, hright, rfl⟩ := fileBytes_append_inv hfile
    rw [fileBytes_hole, Option.some.injEq] at hright
    rw [hgrown, ← hright, List.append_assoc, List.replicate_append_replicate,
      ← toNat_grown hfits]
    exact fileBytes_append hleft (fileBytes_hole store _)
  · rw [hgrown]
    conv_rhs => rw [← toNat_missing (show missing < 2 ^ 64 by omega)]
    exact fileBytes_append hfile (fileBytes_hole store _)

/-- A hole takes no object's place. -/
theorem keeps_extendRecords {front rest : List FileRecord}
    {digest : ObjectDigest} {size : UInt64}
    (hsplit : kept = front ++ .data digest size :: rest) :
    ∃ rest', extendRecords kept missing =
      front ++ .data digest size :: rest' := by
  rcases extendRecords_cases kept missing with
    ⟨init, last, rfl, hgrown⟩ | ⟨-, hgrown⟩
  · rcases List.eq_nil_or_concat rest with rfl | ⟨rest, record, rfl⟩
    · cases List.append_inj_right' hsplit rfl
    · rw [List.concat_eq_append, ← List.cons_append, ← List.append_assoc]
        at hsplit
      obtain ⟨rfl, -⟩ := List.append_inj' hsplit rfl
      refine ⟨rest ++ [.hole (last + UInt64.ofNat missing)], ?_⟩
      rw [hgrown, List.append_assoc, List.cons_append]
  · refine ⟨rest ++ [.hole (UInt64.ofNat missing)], ?_⟩
    rw [hgrown, hsplit, List.append_assoc, List.cons_append]

end

/-! The truncation of an accepted run. -/

/-- What a truncated run is: the old bytes up to the length, zeros behind. -/
structure Truncated (records : List FileRecord) (length : UInt64)
    (truncated : List FileRecord) : Prop where
  bytes : ∀ {P : Platform} (store : ObjectStore P) bytes,
    fileBytes store records = some bytes →
      fileBytes store truncated = some (bytes.take length.toNat ++
        List.replicate (length.toNat - bytes.length) 0)
  keeps : KeepsData length.toNat records truncated
  shape : RunShape false truncated
  total : totalSize truncated = length.toNat

theorem truncateRecords_spec {size : UInt64}
    (hvalid : validateRecordRun records size = .ok ()) (length : UInt64) :
    (truncateRecords records length = none ∧ CutsData length.toNat records) ∨
      ∃ truncated, truncateRecords records length = some truncated ∧
        ¬ CutsData length.toNat records ∧
        Truncated records length truncated := by
  obtain ⟨⟨-, hshape, hfits⟩, -⟩ := validateRecordRun_eq_ok.mp hvalid
  have hlength := length.toNat_lt
  rcases cutRecords_spec (Nat.zero_le length.toNat) hlength
    ((Nat.zero_add _).symm ▸ hfits) hshape with ⟨hnone, hcut⟩ |
      ⟨kept, stop, hsome, hbelow, hreach, hwhole, hkept, hbytes, hkeeps, hclear⟩
  · exact .inl ⟨by rw [truncateRecords, hnone]; rfl, hcut⟩
  · rw [Nat.zero_add] at hreach
    rw [Nat.sub_zero] at hkeeps hclear
    rw [truncateRecords, hsome, Option.bind_eq_bind, Option.bind_some]
    simp only
    refine .inr ?_
    split
    · rename_i hshort
      have hold : kept = records := hwhole.resolve_left (by omega)
      subst hold
      have hroom : totalSize kept + (length.toNat - stop) < 2 ^ 64 := by omega
      have htotal := totalSize_extendRecords hroom
      refine ⟨_, rfl, hclear, fun store bytes hfile => ?_, ?_,
        runShape_extendRecords hkept (by omega) hroom, by omega⟩
      · have hsame := fileBytes_length hfile
        rw [fileBytes_extendRecords hroom hfile,
          List.take_of_length_le (by omega)]
        congr 3
        omega
      · intro front digest size back hsplit _
        exact keeps_extendRecords hsplit
    · rename_i hfull
      have hstop : stop = length.toNat := by omega
      refine ⟨kept, rfl, hclear, fun store bytes hfile => ?_, hkeeps, hkept,
        by omega⟩
      have hcutBytes := hbytes store bytes hfile
      have hlong := fileBytes_length hcutBytes
      rw [List.length_take] at hlong
      rw [hcutBytes, hstop, Nat.sub_zero,
        show length.toNat - bytes.length = 0 by omega]
      simp

/-- Truncation takes or extends with zeros; it refuses a cut inside a data
record and nothing else, and only the record limit can refuse the result. -/
theorem truncate_takes_or_extends {size : UInt64}
    (hvalid : validateRecordRun records size = .ok ()) (length : UInt64) :
    (truncateRecords records length = none ↔
        CutsData length.toNat records) ∧
      ∀ truncated, truncateRecords records length = some truncated →
        Truncated records length truncated ∧
        (validateRecordRun truncated length = .ok () ∨
          validateRecordRun truncated length = .error .recordLimit) := by
  rcases truncateRecords_spec hvalid length with ⟨hnone, hcut⟩ |
    ⟨truncated, hsome, hclear, htruncated⟩
  · refine ⟨⟨fun _ => hcut, fun _ => hnone⟩, fun truncated hsome => ?_⟩
    rw [hnone] at hsome
    cases hsome
  · refine ⟨⟨fun hnone => ?_, fun hcut => absurd hcut hclear⟩,
      fun other hother => ?_⟩
    · rw [hsome] at hnone
      cases hnone
    · cases hsome.symm.trans hother
      refine ⟨htruncated, ?_⟩
      by_cases hcount : truncated.length ≤ maxFileRecords
      · have htotal := htruncated.total
        have hlength := length.toNat_lt
        exact .inl (validateRecordRun_eq_ok.mpr
          ⟨⟨hcount, htruncated.shape, by omega⟩, htotal⟩)
      · rw [validateRecordRun, ensure_of_not hcount]
        exact .inr rfl

/-- A cut inside a hole shortens the hole. -/
theorem truncate_takes_or_extends_hole :
    truncateRecords [.data emptyBlobDigest 4, .hole 2] 5 =
        some [.data emptyBlobDigest 4, .hole 1] ∧
      Truncated [.data emptyBlobDigest 4, .hole 2] 5
        [.data emptyBlobDigest 4, .hole 1] := by
  have hvalid : validateRecordRun
      [.data emptyBlobDigest 4, .hole 2] 6 = .ok () := by decide
  have hcut : truncateRecords [.data emptyBlobDigest 4, .hole 2] 5 =
      some [.data emptyBlobDigest 4, .hole 1] := by decide
  exact ⟨hcut, ((truncate_takes_or_extends hvalid 5).2 _ hcut).1⟩

end TensorFS
