import TensorFS.Tfm1.Codec

namespace TensorFS

open Data

/-! The decoder accepts exactly the encodings of canonical snapshots. -/

def BodyOk : FileBody → Prop
  | .tensor _ _ logicalSize records =>
      validateRecords records logicalSize = .ok ()
  | .blob logicalSize digest => logicalSize = 0 → digest = emptyBlobDigest

def EntryOk (assignedOrdinals : Nat) : Entry → Prop
  | .directory => True
  | .file _ body => BodyOk body
  | .symlink target => validateSymlinkTarget target = .ok ()
  | .hardlink ordinal => ordinal < assignedOrdinals ∧ ordinal < 2 ^ 64

/-- The entry list follows on from `previous` with `assignedOrdinals` files
already seen. -/
def EntriesOk (U : Unicode) :
    Option Text → Nat → List (Text × Entry) → Prop
  | _, _, [] => True
  | previous, assignedOrdinals, (path, entry) :: rest =>
      validatePath U path = .ok () ∧ checkOrder previous path = .ok () ∧
        EntryOk assignedOrdinals entry ∧
        EntriesOk U (some path)
          (if entry.isFile then assignedOrdinals + 1 else assignedOrdinals)
          rest

structure Canonical (U : Unicode) (snapshot : Snapshot) : Prop where
  entries : EntriesOk U none 0 snapshot.entries
  tree : validateTree U Entry.isDirectory snapshot.entries = .ok ()
  count : snapshot.entries.length < 2 ^ 64

/-! Reading back what was written. -/

section Primitives

theorem take_reads (front : Bytes) :
    Reader.Reads (take front.length) front front :=
  fun _ => Reader.take_append

theorem takeU8_reads (b : UInt8) : Reader.Reads takeU8 b [b] :=
  Reader.Reads.map (f := fun bytes : Bytes => bytes.headD 0) (take_reads [b])

theorem takeU32_reads {n : Nat} (h : n < 2 ^ 32) :
    Reader.Reads takeU32 n (leBytes 4 n) := by
  have hread := Reader.Reads.map (f := leNat) (take_reads (leBytes 4 n))
  rw [leNat_leBytes (by simpa using h), length_leBytes] at hread
  exact hread

theorem takeU64_reads {n : Nat} (h : n < 2 ^ 64) :
    Reader.Reads takeU64 n (leBytes 8 n) := by
  have hread := Reader.Reads.map (f := leNat) (take_reads (leBytes 8 n))
  rw [leNat_leBytes (by simpa using h), length_leBytes] at hread
  exact hread

theorem takeDigest_reads (digest : Digest) :
    Reader.Reads takeDigest digest digest.bytes := by
  intro rest
  have hlen := digest.size
  have hle : 32 ≤ (digest.bytes ++ rest).length := by
    rw [List.length_append]
    omega
  unfold takeDigest
  rw [dif_pos hle]
  obtain ⟨bytes, hsize⟩ := digest
  simp only [Except.ok.injEq, Prod.mk.injEq, Digest.mk.injEq]
  rw [← hsize]
  exact ⟨List.take_left, List.drop_left⟩

theorem takeText_reads (text : Text) (refusal : Tfm1Error) :
    Reader.Reads (takeText text.utf8Len refusal) text text.utf8 := by
  rw [← List.append_nil text.utf8]
  refine (take_reads text.utf8).bind ?_
  simp only [Text.fromUtf8_utf8]
  exact Reader.Reads.pure text

theorem takeU8_sound {input rest : Bytes} {b : UInt8}
    (h : takeU8 input = .ok (b, rest)) : input = b :: rest := by
  obtain ⟨bytes, middle, htake, hpure⟩ := Reader.bind_eq_ok.mp h
  obtain ⟨hlen, rfl⟩ := Reader.take_sound htake
  cases hpure
  obtain ⟨b, rfl⟩ := List.length_eq_one_iff.mp hlen
  rfl

theorem takeU32_sound {input rest : Bytes} {n : Nat}
    (h : takeU32 input = .ok (n, rest)) :
    n < 2 ^ 32 ∧ input = leBytes 4 n ++ rest := by
  obtain ⟨bytes, middle, htake, hpure⟩ := Reader.bind_eq_ok.mp h
  obtain ⟨hlen, rfl⟩ := Reader.take_sound htake
  cases hpure
  have hlt := leNat_lt bytes
  have hback := leBytes_leNat bytes
  rw [hlen] at hlt hback
  exact ⟨by simpa using hlt, by rw [hback]⟩

theorem takeU64_sound {input rest : Bytes} {n : Nat}
    (h : takeU64 input = .ok (n, rest)) :
    n < 2 ^ 64 ∧ input = leBytes 8 n ++ rest := by
  obtain ⟨bytes, middle, htake, hpure⟩ := Reader.bind_eq_ok.mp h
  obtain ⟨hlen, rfl⟩ := Reader.take_sound htake
  cases hpure
  have hlt := leNat_lt bytes
  have hback := leBytes_leNat bytes
  rw [hlen] at hlt hback
  exact ⟨by simpa using hlt, by rw [hback]⟩

theorem takeDigest_sound {input rest : Bytes} {digest : Digest}
    (h : takeDigest input = .ok (digest, rest)) :
    input = digest.bytes ++ rest := by
  unfold takeDigest at h
  split at h
  · cases h
    exact (List.take_append_drop 32 input).symm
  · cases h

theorem takeText_sound {input rest : Bytes} {text : Text} {count : Nat}
    {refusal : Tfm1Error}
    (h : takeText count refusal input = .ok (text, rest)) :
    text.utf8Len = count ∧ input = text.utf8 ++ rest := by
  obtain ⟨bytes, middle, htake, hmatch⟩ := Reader.bind_eq_ok.mp h
  obtain ⟨hlen, rfl⟩ := Reader.take_sound htake
  cases hdecode : Text.fromUtf8 bytes with
  | none => simp [hdecode] at hmatch
  | some found =>
      simp only [hdecode, Reader.pure_apply, Except.ok.injEq,
        Prod.mk.injEq] at hmatch
      obtain ⟨rfl, rfl⟩ := hmatch
      have hbytes := Text.utf8_of_fromUtf8 hdecode
      subst hbytes
      exact ⟨hlen, rfl⟩

end Primitives

theorem handle_new_eq_ok {name : Text} {version : UInt32} {handle : Handle} :
    Handle.new name version = .ok handle ↔
      handle.name = name ∧ handle.version = version := by
  unfold Handle.new
  constructor
  · intro h
    split at h
    · split at h
      · cases h
      · cases h
        exact ⟨rfl, rfl⟩
    · cases h
  · rintro ⟨rfl, rfl⟩
    rw [dif_pos handle.name_ok, dif_neg handle.version_ne_zero]

theorem Handle.name_bounds (handle : Handle) :
    handle.name ≠ [] ∧ handle.name.utf8Len ≤ maxContractNameBytes := by
  have hok := handle.name_ok
  simp only [isContractName, Bool.and_eq_true, Bool.not_eq_true',
    decide_eq_true_eq, List.isEmpty_eq_false_iff] at hok
  exact hok.1

theorem decodeStamp_reads (stamp : Stamp) :
    Reader.Reads decodeStamp stamp (emitStamp stamp) := by
  cases stamp with
  | digest digest =>
      refine (takeU8_reads stampDigestMarker).bind (t := digest.bytes) ?_
      rw [if_pos rfl]
      exact (takeDigest_reads digest).map
  | none =>
      refine (takeU8_reads 0).bind (t := leBytes 4 0) ?_
      rw [if_neg (by decide)]
      refine Reader.Reads.ensure (by decide) ?_
      refine (takeText_reads [] .contractName).bind
        (t := leBytes 4 0) ?_
      refine ((takeU32_reads (n := 0) (by decide)).bind (t := []) ?_)
      rw [if_pos rfl]
      exact Reader.Reads.ensure rfl (Reader.Reads.pure _)
  | named handle =>
      obtain ⟨hne, hlen⟩ := handle.name_bounds
      have hbyte : (UInt8.ofNat handle.name.utf8Len).toNat =
          handle.name.utf8Len := by
        rw [UInt8.toNat_ofNat']
        unfold maxContractNameBytes at hlen
        omega
      have hmarker : UInt8.ofNat handle.name.utf8Len ≠ stampDigestMarker := by
        intro heq
        have hvalue := congrArg UInt8.toNat heq
        rw [hbyte] at hvalue
        simp only [stampDigestMarker, UInt8.reduceToNat] at hvalue
        unfold maxContractNameBytes at hlen
        omega
      refine (takeU8_reads _).bind (t := handle.name.utf8 ++
        leBytes 4 handle.version.toNat) ?_
      rw [if_neg hmarker, hbyte]
      refine Reader.Reads.ensure hlen ?_
      refine (takeText_reads handle.name .contractName).bind ?_
      have hversion : handle.version.toNat ≠ 0 := by
        intro hzero
        exact handle.version_ne_zero (UInt32.toNat_inj.mp hzero)
      rw [← List.append_nil (leBytes 4 _)]
      refine (takeU32_reads handle.version.toNat_lt).bind ?_
      rw [if_neg hne]
      refine Reader.Reads.ensure hversion ?_
      rw [UInt32.ofNat_toNat, handle_new_eq_ok.mpr ⟨rfl, rfl⟩]
      exact Reader.Reads.pure _

theorem decodeStamp_sound {input rest : Bytes} {stamp : Stamp}
    (h : decodeStamp input = .ok (stamp, rest)) :
    input = emitStamp stamp ++ rest := by
  replace h := Reader.bind_eq_ok.mp h
  obtain ⟨length, afterLength, hlength, h⟩ := h
  have hinput := takeU8_sound hlength
  subst hinput
  split at h
  · rename_i hmarker
    replace h := Reader.bind_eq_ok.mp h
    obtain ⟨digest, afterDigest, hdigest, h⟩ := h
    cases h
    rw [takeDigest_sound hdigest, hmarker]
    rfl
  · replace h := Reader.bind_eq_ok.mp h
    obtain ⟨_, _, hbound, h⟩ := h
    obtain ⟨hle, heq⟩ := Reader.ensure_eq_ok.mp hbound
    cases heq
    replace h := Reader.bind_eq_ok.mp h
    obtain ⟨name, afterName, hname, h⟩ := h
    obtain ⟨hlen, rfl⟩ := takeText_sound hname
    replace h := Reader.bind_eq_ok.mp h
    obtain ⟨version, afterVersion, hversion, h⟩ := h
    obtain ⟨hlt, rfl⟩ := takeU32_sound hversion
    split at h
    · rename_i hempty
      replace h := Reader.bind_eq_ok.mp h
      obtain ⟨_, _, hzero, h⟩ := h
      obtain ⟨rfl, heq⟩ := Reader.ensure_eq_ok.mp hzero
      cases heq
      cases h
      subst hempty
      have hbyte : length = 0 := by
        apply UInt8.toNat_inj.mp
        simpa [Text.utf8Len] using hlen.symm
      subst hbyte
      rfl
    · replace h := Reader.bind_eq_ok.mp h
      obtain ⟨_, _, hnonzero, h⟩ := h
      obtain ⟨_, heq⟩ := Reader.ensure_eq_ok.mp hnonzero
      cases heq
      cases hnew : Handle.new name (UInt32.ofNat version) with
      | error e => simp [hnew] at h
      | ok handle =>
          simp only [hnew, Reader.pure_apply, Except.ok.injEq,
            Prod.mk.injEq] at h
          obtain ⟨rfl, rfl⟩ := h
          obtain ⟨hn, hv⟩ := handle_new_eq_ok.mp hnew
          have hbyte : UInt8.ofNat name.utf8Len = length := by
            rw [hlen, UInt8.ofNat_toNat]
          have hword : handle.version.toNat = version := by
            rw [hv]
            exact UInt32.toNat_ofNat_of_lt' (by simpa using hlt)
          simp only [emitStamp, hbyte, hword, hn, List.cons_append,
            List.append_assoc]

theorem decodeRecord_reads (record : FileRecord) :
    Reader.Reads decodeRecord record (emitRecord record) := by
  cases record with
  | data digest length =>
      refine (takeU8_reads recordData).bind
        (t := digest.bytes ++ leBytes 8 length.toNat) ?_
      rw [if_pos rfl]
      refine (takeDigest_reads digest).bind ?_
      have hread := (takeU64_reads length.toNat_lt).map
        (f := fun n => FileRecord.data digest (UInt64.ofNat n))
      rwa [UInt64.ofNat_toNat] at hread
  | hole length =>
      refine (takeU8_reads recordHole).bind
        (t := leBytes 8 length.toNat) ?_
      rw [if_neg (by decide), if_pos rfl]
      have hread := (takeU64_reads length.toNat_lt).map
        (f := fun n => FileRecord.hole (UInt64.ofNat n))
      rwa [UInt64.ofNat_toNat] at hread

theorem toNat_ofNat_of_lt {n : Nat} (h : n < 2 ^ 64) :
    (UInt64.ofNat n).toNat = n :=
  UInt64.toNat_ofNat_of_lt' (by simpa using h)

theorem decodeRecord_sound {input rest : Bytes} {record : FileRecord}
    (h : decodeRecord input = .ok (record, rest)) :
    input = emitRecord record ++ rest := by
  replace h := Reader.bind_eq_ok.mp h
  obtain ⟨tag, afterTag, htag, h⟩ := h
  have hinput := takeU8_sound htag
  subst hinput
  split at h
  · rename_i hdata
    replace h := Reader.bind_eq_ok.mp h
    obtain ⟨digest, afterDigest, hdigest, h⟩ := h
    replace h := Reader.bind_eq_ok.mp h
    obtain ⟨length, afterLength, hlength, h⟩ := h
    cases h
    obtain ⟨hlt, heq⟩ := takeU64_sound hlength
    rw [takeDigest_sound hdigest, heq, hdata]
    simp [emitRecord, toNat_ofNat_of_lt hlt]
  · split at h
    · rename_i hhole
      replace h := Reader.bind_eq_ok.mp h
      obtain ⟨length, afterLength, hlength, h⟩ := h
      cases h
      obtain ⟨hlt, heq⟩ := takeU64_sound hlength
      rw [heq, hhole]
      simp [emitRecord, toNat_ofNat_of_lt hlt]
    · exact absurd h Reader.fail_ne_ok

theorem decodeRecords_reads (records : List FileRecord) :
    Reader.Reads (decodeRecords records.length) records
      (records.flatMap emitRecord) := by
  induction records with
  | nil => exact Reader.Reads.pure []
  | cons record records ih =>
      rw [List.flatMap_cons]
      refine (decodeRecord_reads record).bind ?_
      exact ih.map

theorem decodeRecords_sound {count : Nat} {input rest : Bytes}
    {records : List FileRecord}
    (h : decodeRecords count input = .ok (records, rest)) :
    records.length = count ∧ input = records.flatMap emitRecord ++ rest := by
  induction count generalizing input records with
  | zero =>
      cases h
      exact ⟨rfl, rfl⟩
  | succ count ih =>
      replace h := Reader.bind_eq_ok.mp h
      obtain ⟨record, afterRecord, hrecord, h⟩ := h
      replace h := Reader.bind_eq_ok.mp h
      obtain ⟨tail, afterTail, htail, h⟩ := h
      cases h
      obtain ⟨hlen, rfl⟩ := ih htail
      rw [decodeRecord_sound hrecord]
      exact ⟨by simp [hlen], by simp⟩

theorem minRecordBytes_le (records : List FileRecord) :
    records.length * minRecordBytes ≤ (records.flatMap emitRecord).length := by
  induction records with
  | nil => simp
  | cons record records ih =>
      have hone : minRecordBytes ≤ (emitRecord record).length := by
        cases record <;> simp [emitRecord, minRecordBytes]
      simp only [List.length_cons, List.flatMap_cons, List.length_append,
        Nat.succ_mul]
      omega

theorem decodeTensorBody_reads (format : TensorFormat) (contract : Stamp)
    (logicalSize : UInt64) (records : List FileRecord)
    (hok : validateRecords records logicalSize = .ok ()) :
    Reader.Reads (decodeTensorBody format)
      (.tensor format contract logicalSize records)
      (leBytes 8 logicalSize.toNat ++ (emitStamp contract ++
        (leBytes 8 records.length ++ records.flatMap emitRecord))) := by
  have hcount := (validateRecords_eq_ok.mp hok).1.count
  have hword : records.length < 2 ^ 64 := by
    unfold maxFileRecords at hcount
    omega
  refine (takeU64_reads logicalSize.toNat_lt).bind ?_
  refine (decodeStamp_reads contract).bind ?_
  refine (takeU64_reads hword).bind ?_
  refine Reader.Reads.ensure hcount ?_
  intro rest
  rw [Reader.bind_of_ok (Reader.remaining_apply _)]
  have hmin := minRecordBytes_le records
  have hbound : records.length ≤
      (records.flatMap emitRecord ++ rest).length / minRecordBytes := by
    rw [Nat.le_div_iff_mul_le (by decide), List.length_append]
    omega
  refine Reader.Reads.ensure hbound ?_ rest
  rw [← List.append_nil (records.flatMap emitRecord)]
  refine (decodeRecords_reads records).bind ?_
  rw [UInt64.ofNat_toNat]
  exact Reader.Reads.lift hok (Reader.Reads.pure _)

theorem decodeTensorBody_sound {format : TensorFormat} {input rest : Bytes}
    {body : FileBody} (h : decodeTensorBody format input = .ok (body, rest)) :
    BodyOk body ∧ formatTag format :: input = emitBody body ++ rest := by
  replace h := Reader.bind_eq_ok.mp h
  obtain ⟨logicalSize, afterSize, hsize, h⟩ := h
  replace h := Reader.bind_eq_ok.mp h
  obtain ⟨contract, afterStamp, hstamp, h⟩ := h
  replace h := Reader.bind_eq_ok.mp h
  obtain ⟨recordCount, afterCount, hcount, h⟩ := h
  replace h := Reader.bind_eq_ok.mp h
  obtain ⟨_, _, hlimit, h⟩ := h
  obtain ⟨_, heq⟩ := Reader.ensure_eq_ok.mp hlimit
  cases heq
  replace h := Reader.bind_eq_ok.mp h
  obtain ⟨remaining, _, hremaining, h⟩ := h
  cases hremaining
  replace h := Reader.bind_eq_ok.mp h
  obtain ⟨_, _, hbound, h⟩ := h
  obtain ⟨_, heq⟩ := Reader.ensure_eq_ok.mp hbound
  cases heq
  replace h := Reader.bind_eq_ok.mp h
  obtain ⟨records, afterRecords, hrecords, h⟩ := h
  replace h := Reader.bind_eq_ok.mp h
  obtain ⟨_, _, hvalid, h⟩ := h
  obtain ⟨hok, heq⟩ := Reader.lift_eq_ok.mp hvalid
  simp only at heq hok
  subst heq
  cases h
  obtain ⟨hsizeLt, rfl⟩ := takeU64_sound hsize
  obtain ⟨_, hafterStamp⟩ := takeU64_sound hcount
  obtain ⟨hlen, hafterCount⟩ := decodeRecords_sound hrecords
  refine ⟨hok, ?_⟩
  rw [decodeStamp_sound hstamp, hafterStamp, hafterCount, ← hlen]
  simp [emitBody, plannerTag, toNat_ofNat_of_lt hsizeLt]

theorem decodeBody_reads {body : FileBody} (hok : BodyOk body) :
    Reader.Reads decodeBody body (emitBody body) := by
  cases body with
  | tensor format contract logicalSize records =>
      refine (takeU8_reads (formatTag format)).bind ?_
      cases format with
      | safetensorsV1 =>
          rw [if_pos (by rfl)]
          exact decodeTensorBody_reads _ contract logicalSize records hok
      | ggufV1 =>
          rw [if_neg (by decide), if_pos (by rfl)]
          exact decodeTensorBody_reads _ contract logicalSize records hok
  | blob logicalSize digest =>
      refine (takeU8_reads plannerBlob).bind ?_
      rw [if_neg (by decide), if_neg (by decide), if_pos rfl]
      refine (takeU64_reads logicalSize.toNat_lt).bind ?_
      rw [← List.append_nil digest.bytes]
      refine (takeDigest_reads digest).bind ?_
      have hempty : logicalSize.toNat = 0 → digest = emptyBlobDigest :=
        fun hzero => hok (UInt64.toNat_inj.mp hzero)
      rw [UInt64.ofNat_toNat]
      exact Reader.Reads.ensure hempty (Reader.Reads.pure _)

theorem decodeBody_sound {input rest : Bytes} {body : FileBody}
    (h : decodeBody input = .ok (body, rest)) :
    BodyOk body ∧ input = emitBody body ++ rest := by
  replace h := Reader.bind_eq_ok.mp h
  obtain ⟨planner, afterPlanner, hplanner, h⟩ := h
  have hinput := takeU8_sound hplanner
  subst hinput
  split at h
  · rename_i htag
    subst htag
    exact decodeTensorBody_sound h
  · split at h
    · rename_i htag
      subst htag
      exact decodeTensorBody_sound h
    · split at h
      · rename_i htag
        subst htag
        replace h := Reader.bind_eq_ok.mp h
        obtain ⟨logicalSize, afterSize, hsize, h⟩ := h
        replace h := Reader.bind_eq_ok.mp h
        obtain ⟨digest, afterDigest, hdigest, h⟩ := h
        replace h := Reader.bind_eq_ok.mp h
        obtain ⟨_, _, hempty, h⟩ := h
        obtain ⟨hok, heq⟩ := Reader.ensure_eq_ok.mp hempty
        cases heq
        cases h
        obtain ⟨hlt, rfl⟩ := takeU64_sound hsize
        rw [takeDigest_sound hdigest]
        refine ⟨fun hzero => hok ?_, ?_⟩
        · rw [← toNat_ofNat_of_lt hlt, hzero]
          rfl
        · simp [emitBody, plannerTag, toNat_ofNat_of_lt hlt]
      · exact absurd h Reader.fail_ne_ok

theorem decodeExecutable_reads (executable : Bool) :
    Reader.Reads decodeExecutable executable
      [if executable then 1 else 0] := by
  rw [← List.append_nil [if executable then (1 : UInt8) else 0]]
  refine (takeU8_reads _).bind ?_
  cases executable with
  | false =>
      rw [if_pos (by rfl)]
      exact Reader.Reads.pure false
  | true =>
      rw [if_neg (by decide), if_pos (by rfl)]
      exact Reader.Reads.pure true

theorem decodeExecutable_sound {input rest : Bytes} {executable : Bool}
    (h : decodeExecutable input = .ok (executable, rest)) :
    input = (if executable then 1 else 0) :: rest := by
  replace h := Reader.bind_eq_ok.mp h
  obtain ⟨flag, afterFlag, hflag, h⟩ := h
  rw [takeU8_sound hflag]
  split at h
  · rename_i hzero
    cases h
    rw [hzero]
    rfl
  · split at h
    · rename_i hone
      cases h
      rw [hone]
      rfl
    · exact absurd h Reader.fail_ne_ok

theorem symlinkTarget_len {target : Text}
    (hok : validateSymlinkTarget target = .ok ()) :
    target.utf8Len ≤ maxSymlinkTargetBytes :=
  (ensure_eq_ok.mp hok).2.1

theorem decodeEntry_reads {assigned : Nat} {entry : Entry}
    (hok : EntryOk assigned entry) :
    Reader.Reads (decodeEntry assigned) entry (emitEntry entry) := by
  cases entry with
  | directory =>
      rw [← List.append_nil (emitEntry .directory)]
      refine (takeU8_reads kindDirectory).bind ?_
      rw [if_pos rfl]
      exact Reader.Reads.pure _
  | file executable body =>
      refine (takeU8_reads kindFile).bind
        (t := [if executable then 1 else 0] ++ emitBody body) ?_
      rw [if_neg (by decide), if_pos rfl]
      refine (decodeExecutable_reads executable).bind ?_
      exact (decodeBody_reads hok).map
  | symlink target =>
      have hlen := symlinkTarget_len hok
      refine (takeU8_reads kindSymlink).bind
        (t := leBytes 4 target.utf8Len ++ target.utf8) ?_
      rw [if_neg (by decide), if_neg (by decide), if_pos rfl]
      refine (takeU32_reads (by unfold maxSymlinkTargetBytes at hlen; omega)).bind
        ?_
      refine Reader.Reads.ensure hlen ?_
      rw [← List.append_nil target.utf8]
      refine (takeText_reads target .symlinkTarget).bind ?_
      exact Reader.Reads.lift hok (Reader.Reads.pure _)
  | hardlink ordinal =>
      refine (takeU8_reads kindHardlink).bind (t := leBytes 8 ordinal) ?_
      rw [if_neg (by decide), if_neg (by decide), if_neg (by decide),
        if_pos rfl]
      rw [← List.append_nil (leBytes 8 ordinal)]
      refine (takeU64_reads hok.2).bind ?_
      exact Reader.Reads.ensure hok.1 (Reader.Reads.pure _)

theorem decodeEntry_sound {assigned : Nat} {input rest : Bytes}
    {entry : Entry} (h : decodeEntry assigned input = .ok (entry, rest)) :
    EntryOk assigned entry ∧ input = emitEntry entry ++ rest := by
  replace h := Reader.bind_eq_ok.mp h
  obtain ⟨kind, afterKind, hkind, h⟩ := h
  have hinput := takeU8_sound hkind
  subst hinput
  split at h
  · rename_i htag
    cases h
    subst htag
    exact ⟨trivial, rfl⟩
  · split at h
    · rename_i htag
      subst htag
      replace h := Reader.bind_eq_ok.mp h
      obtain ⟨executable, afterFlag, hflag, h⟩ := h
      replace h := Reader.bind_eq_ok.mp h
      obtain ⟨body, afterBody, hbody, h⟩ := h
      cases h
      obtain ⟨hok, hafter⟩ := decodeBody_sound hbody
      refine ⟨hok, ?_⟩
      rw [decodeExecutable_sound hflag, hafter]
      rfl
    · split at h
      · rename_i htag
        subst htag
        replace h := Reader.bind_eq_ok.mp h
        obtain ⟨length, afterLength, hlength, h⟩ := h
        replace h := Reader.bind_eq_ok.mp h
        obtain ⟨_, _, hlimit, h⟩ := h
        obtain ⟨_, heq⟩ := Reader.ensure_eq_ok.mp hlimit
        cases heq
        replace h := Reader.bind_eq_ok.mp h
        obtain ⟨target, afterTarget, htarget, h⟩ := h
        replace h := Reader.bind_eq_ok.mp h
        obtain ⟨_, _, hvalid, h⟩ := h
        obtain ⟨hok, heq⟩ := Reader.lift_eq_ok.mp hvalid
        simp only at heq hok
        subst heq
        cases h
        obtain ⟨hlen, hafter⟩ := takeText_sound htarget
        obtain ⟨_, hword⟩ := takeU32_sound hlength
        refine ⟨hok, ?_⟩
        rw [hword, hafter, ← hlen]
        simp [emitEntry]
      · split at h
        · rename_i htag
          subst htag
          replace h := Reader.bind_eq_ok.mp h
          obtain ⟨ordinal, afterOrdinal, hordinal, h⟩ := h
          replace h := Reader.bind_eq_ok.mp h
          obtain ⟨_, _, hassigned, h⟩ := h
          obtain ⟨hlt, heq⟩ := Reader.ensure_eq_ok.mp hassigned
          cases heq
          cases h
          obtain ⟨hword, hafter⟩ := takeU64_sound hordinal
          rw [hafter]
          exact ⟨⟨hlt, hword⟩, rfl⟩
        · exact absurd h Reader.fail_ne_ok

theorem validatePath_len {U : Unicode} {path : Text}
    (hok : validatePath U path = .ok ()) :
    path ≠ [] ∧ path.utf8Len ≤ maxPathBytes := by
  simp only [validatePath, except_bind_eq_ok, ensure_eq_ok,
    exists_unit] at hok
  exact hok.1

theorem Text.utf8Len_ne_zero {text : Text} (h : text ≠ []) :
    text.utf8Len ≠ 0 := by
  intro hzero
  exact h (Text.utf8_eq_nil.mp (List.length_eq_zero_iff.mp hzero))

theorem decodePath_reads {U : Unicode} {path : Text}
    (hok : validatePath U path = .ok ()) :
    Reader.Reads (decodePath U) path
      (leBytes 4 path.utf8Len ++ path.utf8) := by
  obtain ⟨hne, hlen⟩ := validatePath_len hok
  refine (takeU32_reads (by unfold maxPathBytes at hlen; omega)).bind ?_
  refine Reader.Reads.ensure ⟨Text.utf8Len_ne_zero hne, hlen⟩ ?_
  rw [← List.append_nil path.utf8]
  refine (takeText_reads path .pathUtf8).bind ?_
  exact Reader.Reads.lift hok (Reader.Reads.pure _)

theorem decodePath_sound {U : Unicode} {input rest : Bytes} {path : Text}
    (h : decodePath U input = .ok (path, rest)) :
    validatePath U path = .ok () ∧
      input = leBytes 4 path.utf8Len ++ (path.utf8 ++ rest) := by
  replace h := Reader.bind_eq_ok.mp h
  obtain ⟨length, afterLength, hlength, h⟩ := h
  replace h := Reader.bind_eq_ok.mp h
  obtain ⟨_, _, hlimit, h⟩ := h
  obtain ⟨_, heq⟩ := Reader.ensure_eq_ok.mp hlimit
  cases heq
  replace h := Reader.bind_eq_ok.mp h
  obtain ⟨text, afterText, htext, h⟩ := h
  replace h := Reader.bind_eq_ok.mp h
  obtain ⟨_, _, hvalid, h⟩ := h
  obtain ⟨hok, heq⟩ := Reader.lift_eq_ok.mp hvalid
  simp only at heq hok
  subst heq
  cases h
  obtain ⟨hlen, hafter⟩ := takeText_sound htext
  obtain ⟨_, hword⟩ := takeU32_sound hlength
  exact ⟨hok, by rw [hword, hafter, hlen]⟩

theorem decodeEntries_reads {U : Unicode} {previous : Option Text}
    {assigned : Nat} {entries : List (Text × Entry)}
    (hok : EntriesOk U previous assigned entries) :
    Reader.Reads (decodeEntries U entries.length previous assigned) entries
      (emitEntries entries) := by
  induction entries generalizing previous assigned with
  | nil => exact Reader.Reads.pure []
  | cons pair rest ih =>
      obtain ⟨path, entry⟩ := pair
      obtain ⟨hpath, horder, hentry, hrest⟩ := hok
      show Reader.Reads _ _ (leBytes 4 path.utf8Len ++
        (path.utf8 ++ (emitEntry entry ++ emitEntries rest)))
      rw [← List.append_assoc]
      refine (decodePath_reads hpath).bind ?_
      refine Reader.Reads.lift horder ?_
      refine (decodeEntry_reads hentry).bind ?_
      exact (ih hrest).map

theorem decodeEntries_sound {U : Unicode} {count : Nat}
    {previous : Option Text} {assigned : Nat} {input rest : Bytes}
    {entries : List (Text × Entry)}
    (h : decodeEntries U count previous assigned input = .ok (entries, rest)) :
    entries.length = count ∧ EntriesOk U previous assigned entries ∧
      input = emitEntries entries ++ rest := by
  induction count generalizing previous assigned input entries with
  | zero =>
      cases h
      exact ⟨rfl, trivial, rfl⟩
  | succ count ih =>
      replace h := Reader.bind_eq_ok.mp h
      obtain ⟨path, afterPath, hpath, h⟩ := h
      replace h := Reader.bind_eq_ok.mp h
      obtain ⟨_, _, hchecked, h⟩ := h
      obtain ⟨horder, heq⟩ := Reader.lift_eq_ok.mp hchecked
      simp only at heq horder
      subst heq
      replace h := Reader.bind_eq_ok.mp h
      obtain ⟨entry, afterEntry, hentry, h⟩ := h
      replace h := Reader.bind_eq_ok.mp h
      obtain ⟨tail, afterTail, htail, h⟩ := h
      cases h
      obtain ⟨hlen, htailOk, hafterEntry⟩ := ih htail
      obtain ⟨hentryOk, hafterPath⟩ := decodeEntry_sound hentry
      obtain ⟨hpathOk, hinput⟩ := decodePath_sound hpath
      refine ⟨by simp [hlen], ⟨hpathOk, horder, hentryOk, htailOk⟩, ?_⟩
      rw [hinput, hafterPath, hafterEntry]
      simp [emitEntries]

theorem minEntryBytes_le {U : Unicode} {previous : Option Text}
    {assigned : Nat} {entries : List (Text × Entry)}
    (hok : EntriesOk U previous assigned entries) :
    entries.length * minEntryBytes ≤ (emitEntries entries).length := by
  induction entries generalizing previous assigned with
  | nil => simp
  | cons pair rest ih =>
      obtain ⟨path, entry⟩ := pair
      obtain ⟨hpath, _, _, hrest⟩ := hok
      have hpos := Text.utf8Len_ne_zero (validatePath_len hpath).1
      have hentry : 1 ≤ (emitEntry entry).length := by
        cases entry <;> simp [emitEntry]
      have htail := ih hrest
      unfold minEntryBytes at htail ⊢
      simp only [emitEntries, List.length_cons, List.length_append,
        length_leBytes]
      have hlen : path.utf8.length = path.utf8Len := rfl
      omega

theorem decodeParent_reads (parent : Option SnapshotId) :
    Reader.Reads decodeParent parent (emitParent parent) := by
  cases parent with
  | none =>
      rw [← List.append_nil (emitParent none)]
      refine (takeU8_reads 0).bind ?_
      rw [if_pos rfl]
      exact Reader.Reads.pure _
  | some parent =>
      refine (takeU8_reads 1).bind (t := parent.bytes) ?_
      rw [if_neg (by decide), if_pos rfl]
      exact (takeDigest_reads parent).map

theorem decodeParent_sound {input rest : Bytes} {parent : Option SnapshotId}
    (h : decodeParent input = .ok (parent, rest)) :
    input = emitParent parent ++ rest := by
  replace h := Reader.bind_eq_ok.mp h
  obtain ⟨flag, afterFlag, hflag, h⟩ := h
  rw [takeU8_sound hflag]
  split at h
  · rename_i hzero
    cases h
    rw [hzero]
    rfl
  · split at h
    · rename_i hone
      replace h := Reader.bind_eq_ok.mp h
      obtain ⟨digest, afterDigest, hdigest, h⟩ := h
      cases h
      rw [takeDigest_sound hdigest, hone]
      rfl
    · exact absurd h Reader.fail_ne_ok

theorem decodeManifest_toBytes {U : Unicode} {snapshot : Snapshot}
    (hcanonical : Canonical U snapshot) :
    decodeManifest U snapshot.toBytes = .ok (snapshot, []) := by
  obtain ⟨hentries, htree, hcount⟩ := hcanonical
  have hmagic : ∀ rest, take 4 (magic ++ rest) = .ok (magic, rest) :=
    take_reads magic
  have hmin := minEntryBytes_le hentries
  have hbound : snapshot.entries.length ≤
      (emitEntries snapshot.entries).length / minEntryBytes := by
    rw [Nat.le_div_iff_mul_le (by decide)]
    exact hmin
  have hbody := decodeEntries_reads hentries []
  rw [List.append_nil] at hbody
  unfold Snapshot.toBytes emit decodeManifest
  rw [Reader.bind_of_ok (hmagic _),
    Reader.bind_of_ok (Reader.ensure_eq_ok.mpr ⟨rfl, rfl⟩),
    Reader.bind_of_ok (decodeParent_reads snapshot.parent _),
    Reader.bind_of_ok (takeU64_reads hcount _),
    Reader.bind_of_ok (Reader.remaining_apply _),
    Reader.bind_of_ok (Reader.ensure_eq_ok.mpr ⟨hbound, rfl⟩),
    Reader.bind_of_ok hbody,
    Reader.bind_of_ok (Reader.remaining_apply _),
    Reader.bind_of_ok (Reader.ensure_eq_ok.mpr ⟨List.length_nil, rfl⟩),
    Reader.bind_of_ok (Reader.lift_eq_ok.mpr ⟨htree, rfl⟩)]
  rfl

theorem decodeManifest_sound {U : Unicode} {input rest : Bytes}
    {snapshot : Snapshot}
    (h : decodeManifest U input = .ok (snapshot, rest)) :
    Canonical U snapshot ∧ input = snapshot.toBytes := by
  replace h := Reader.bind_eq_ok.mp h
  obtain ⟨front, afterFront, hfront, h⟩ := h
  obtain ⟨_, rfl⟩ := Reader.take_sound hfront
  replace h := Reader.bind_eq_ok.mp h
  obtain ⟨_, _, hmagic, h⟩ := h
  obtain ⟨rfl, heq⟩ := Reader.ensure_eq_ok.mp hmagic
  cases heq
  replace h := Reader.bind_eq_ok.mp h
  obtain ⟨parent, afterParent, hparent, h⟩ := h
  replace h := Reader.bind_eq_ok.mp h
  obtain ⟨entryCount, afterCount, hcount, h⟩ := h
  replace h := Reader.bind_eq_ok.mp h
  obtain ⟨_, _, hremaining, h⟩ := h
  cases hremaining
  replace h := Reader.bind_eq_ok.mp h
  obtain ⟨_, _, hbound, h⟩ := h
  obtain ⟨_, heq⟩ := Reader.ensure_eq_ok.mp hbound
  cases heq
  replace h := Reader.bind_eq_ok.mp h
  obtain ⟨entries, afterEntries, hentries, h⟩ := h
  replace h := Reader.bind_eq_ok.mp h
  obtain ⟨_, _, hremaining, h⟩ := h
  cases hremaining
  replace h := Reader.bind_eq_ok.mp h
  obtain ⟨_, _, htrailing, h⟩ := h
  obtain ⟨hempty, heq⟩ := Reader.ensure_eq_ok.mp htrailing
  cases heq
  replace h := Reader.bind_eq_ok.mp h
  obtain ⟨_, _, hchecked, h⟩ := h
  obtain ⟨htree, heq⟩ := Reader.lift_eq_ok.mp hchecked
  simp only at heq htree
  subst heq
  cases h
  obtain ⟨hlen, hok, hafterCount⟩ := decodeEntries_sound hentries
  obtain ⟨hword, hafterParent⟩ := takeU64_sound hcount
  rw [List.length_eq_zero_iff] at hempty
  refine ⟨⟨hok, htree, by rw [hlen]; exact hword⟩, ?_⟩
  rw [decodeParent_sound hparent, hafterParent, hafterCount, hempty, ← hlen]
  simp [Snapshot.toBytes, emit]

/-- The decoder accepts a byte string exactly when it is the encoding of a
canonical snapshot, and answers that snapshot. -/
theorem decode_eq_ok {U : Unicode} {bytes : Bytes} {snapshot : Snapshot} :
    decode U bytes = .ok snapshot ↔
      Canonical U snapshot ∧ bytes = snapshot.toBytes := by
  constructor
  · intro h
    unfold decode at h
    cases hmanifest : decodeManifest U bytes with
    | error e => simp [hmanifest, Except.map] at h
    | ok pair =>
        obtain ⟨found, rest⟩ := pair
        simp only [hmanifest, Except.map, Except.ok.injEq] at h
        subst h
        exact decodeManifest_sound hmanifest
  · rintro ⟨hcanonical, rfl⟩
    simp [decode, decodeManifest_toBytes hcanonical, Except.map]

end TensorFS
