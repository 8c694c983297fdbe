import TensorFS.Data.Lockstep
import TensorFS.Tfm1.Parity
import TensorFS.Tfp1.Canonical
import TensorFS.Tfp1.Go

namespace TensorFS.Tfp1

open Data

/-! The builder's reader and the receiving verifier side by side. -/

def Tfp1Error.reason : Tfp1Error → String
  | .truncated => "truncated"
  | .badMagic => "bad-magic"
  | .zeroObjects => "zero-objects"
  | .objectLimit => "object-limit"
  | .countExceedsInput => "count-exceeds-input"
  | .indexOrder => "index-order"
  | .duplicateDigest => "duplicate-digest"
  | .zeroLengthObject => "zero-length-object"
  | .objectTooLarge => "object-too-large"
  | .payloadTooLarge => "payload-too-large"
  | .offsetMismatch => "offset-mismatch"
  | .trailingBytes => "trailing-bytes"
  | .digestMismatch => "digest-mismatch"

/-- The verifier refuses, without a panic, under the same label. -/
def SameLabel (refusal : Tfp1Error) (other : Failure Go.TFP1Error) : Prop :=
  other = .refused ⟨refusal.reason⟩

def SameFailure (failure : Failure Tfp1Error)
    (other : Failure Go.TFP1Error) : Prop :=
  ∃ refusal, failure = .refused refusal ∧ SameLabel refusal other

def describeRow (row : Go.TFP1Row) : IndexRow :=
  ⟨row.digest, row.offset.toNat, row.length.toNat⟩

def describeObject (object : PackObject) : Go.TFP1Object :=
  ⟨.ofDigest object.digest, object.bytes⟩

/-! Rows. -/

theorem toNat_littleEndian (bytes : Bytes) (h : bytes.length ≤ 8) :
    (Go.littleEndian bytes).toNat = leNat bytes := by
  have hlt := leNat_lt bytes
  have hpow : 256 ^ bytes.length ≤ 256 ^ 8 :=
    Nat.pow_le_pow_right (by decide) h
  exact UInt64.toNat_ofNat_of_lt' (lt_of_lt_of_le hlt hpow)

theorem takeU64_then {α : Type} {f : Nat → Tfp1Reader α} {input : Bytes}
    (h : 8 ≤ input.length) :
    (takeU64 >>= f) input = f (leNat (input.take 8)) (input.drop 8) :=
  Reader.bind_of_ok (Reader.bind_of_ok (if_pos h))

theorem takeDigest_then {α : Type} {f : Digest → Tfp1Reader α}
    {input : Bytes} (h : (input.take 32).length = 32) :
    (takeDigest >>= f) input = f ⟨input.take 32, h⟩ (input.drop 32) :=
  Reader.bind_of_ok (dif_pos h)

theorem addLength_eq {total length : Nat} (htotal : total ≤ maxPackPayload)
    (hlength : length ≤ maxObjectSize) :
    addLength total length =
      Data.ensure (total + length ≤ maxPackPayload) .payloadTooLarge >>=
        fun _ => .ok (total + length) := by
  have hsum : total + length < 2 ^ 64 := by
    have hpayload : maxPackPayload = 64 * 2 ^ 20 := rfl
    have hobject : maxObjectSize = 64 * 2 ^ 20 := rfl
    omega
  rw [addLength, checkedAdd_eq_some.mpr ⟨rfl, hsum⟩]

theorem checkDigestOrder_lockstep (previous : Option IndexRow)
    (digest : Digest) :
    Lockstep SameLabel (fun _ _ => True) False
      (checkDigestOrder previous digest)
      (Go.checkTFP1Order (previous.map IndexRow.digest) digest) := by
  cases previous with
  | none => exact .pure trivial
  | some row =>
      simp only [checkDigestOrder, Option.map_some, Go.checkTFP1Order]
      change Lockstep SameLabel _ False _ (if row.digest = digest then _
        else if orderKey digest < orderKey row.digest then _ else _)
      rcases lt_trichotomy (orderKey row.digest) (orderKey digest) with
        hlt | heq | hgt
      · have hne : row.digest ≠ digest := by
          intro hsame
          rw [hsame] at hlt
          exact lt_irrefl _ hlt
        rw [if_pos hlt, if_neg hne, if_neg (lt_asymm hlt)]
        exact .pure trivial
      · have hsame := orderKey_injective heq
        rw [if_neg (heq ▸ lt_irrefl _), if_pos hsame, if_pos hsame]
        exact .refuse rfl
      · have hne : row.digest ≠ digest := by
          intro hsame
          rw [hsame] at hgt
          exact lt_irrefl _ hgt
        rw [if_neg (lt_asymm hgt), if_neg hne, if_neg hne, if_pos hgt]
        exact .refuse rfl

/-- The rows read so far, the payload they declare and the bytes behind. -/
def SameRows (found : (List IndexRow × Nat) × Bytes)
    (other : List Go.TFP1Row × UInt64 × Bytes) : Prop :=
  found = ((other.1.map describeRow, other.2.1.toNat), other.2.2)

theorem parseRows_lockstep {count : Nat} (previous : Option IndexRow)
    (total : UInt64) {input : Bytes}
    (hroom : count * rowBytes ≤ input.length)
    (htotal : total.toNat ≤ maxPackPayload) :
    Lockstep SameLabel SameRows False
      (parseRows count previous total.toNat input)
      (Go.parseTFP1Rows count (previous.map IndexRow.digest) total input) := by
  induction count generalizing previous total input with
  | zero => exact .pure rfl
  | succ count ih =>
      have hrow : Go.tfp1RowBytes ≤ input.length := by
        simp only [rowBytes, Go.tfp1RowBytes] at hroom ⊢
        omega
      have h48 : 48 ≤ input.length := hrow
      have hdigest : (input.take 32).length = 32 := by
        rw [List.length_take]
        omega
      have hfront : (input.take 48).take 32 = input.take 32 := by
        rw [List.take_take]
        rfl
      have hoffset : ((input.take 48).drop 32).take 8 =
          (input.drop 32).take 8 := by
        rw [List.drop_take, List.take_take]
        rfl
      have hlength : ((input.take 48).drop 40).take 8 =
          (input.drop 40).take 8 := by
        rw [List.drop_take, List.take_take]
        rfl
      rw [parseRows, takeDigest_then hdigest,
        takeU64_then (by rw [List.length_drop]; omega), List.drop_drop,
        takeU64_then (by rw [List.length_drop]; omega), List.drop_drop,
        Go.parseTFP1Rows, dif_pos hrow]
      simp only [Go.tfp1RowBytes, Nat.reduceAdd, hfront, hoffset, hlength,
        Reader.ensure_then, Reader.lift_then]
      have hoffsetNat := toNat_littleEndian ((input.drop 32).take 8)
        (List.length_take_le 8 _)
      have hlengthNat := toNat_littleEndian ((input.drop 40).take 8)
        (List.length_take_le 8 _)
      rw [← hoffsetNat, ← hlengthNat]
      generalize Go.littleEndian ((input.drop 32).take 8) = offset
      generalize Go.littleEndian ((input.drop 40).take 8) = length
      refine Lockstep.guard_agree rfl ?_ fun _ => ?_
      · rw [ne_eq, ne_eq, ← UInt64.toNat_inj]
        rfl
      refine Lockstep.guard_agree rfl Iff.rfl fun hsize => ?_
      refine Lockstep.guard_agree rfl UInt64.toNat_inj fun _ => ?_
      refine (checkDigestOrder_lockstep previous _).bind_agree
        fun _ _ _ _ => ?_
      have hsum : (total + length).toNat = total.toNat + length.toNat := by
        have hpayload : maxPackPayload = 64 * 2 ^ 20 := rfl
        have hobject : maxObjectSize = 64 * 2 ^ 20 := rfl
        rw [UInt64.toNat_add, Nat.mod_eq_of_lt (by omega)]
      rw [addLength_eq htotal hsize, ← hsum, bind_assoc]
      refine Lockstep.guard_agree rfl ?_ fun hnext => ?_
      · rw [UInt64.lt_iff_toNat_lt, hsum]
        simp only [maxPackPayload, maxObjectSize, Go.maxChunkSize]
        omega
      rw [except_ok_bind]
      refine (ih (some ⟨⟨input.take 32, hdigest⟩, offset.toNat, length.toNat⟩)
        (total + length) ?_ hnext).bind_agree ?_
      · rw [List.length_drop]
        simp only [rowBytes] at hroom ⊢
        omega
      · rintro _ ⟨rows, stop, rest⟩ - rfl
        exact .pure rfl

/-! The structure. -/

theorem parse_lockstep (bytes : Bytes) :
    Lockstep SameLabel
      (fun pack other => pack = ⟨other.1.map describeRow, other.2⟩) False
      (Pack.parse bytes) (Go.parseTFP1Structure bytes) := by
  have hmagic : magic = Text.utf8 "TFP1".toList := by decide
  unfold Pack.parse parseIndex Go.parseTFP1Structure take
  rw [Reader.take_then]
  simp only [bind_assoc, Reader.ensure_then]
  rw [hmagic]
  refine Lockstep.guard_agree rfl Iff.rfl fun _ => ?_
  refine Lockstep.guard_agree rfl Iff.rfl fun _ => ?_
  by_cases hcount : 8 ≤ (bytes.drop 4).length
  · rw [takeU64_then hcount, ensure_of hcount, except_ok_bind]
    simp only [Reader.ensure_then, bind_assoc]
    refine Lockstep.guard_agree rfl Iff.rfl fun _ => ?_
    refine Lockstep.guard_agree rfl Iff.rfl fun _ => ?_
    rw [Reader.bind_of_ok (Reader.remaining_apply _), Reader.ensure_then,
      bind_assoc]
    refine Lockstep.guard_agree rfl Iff.rfl fun hroom => ?_
    refine (parseRows_lockstep none 0 ((Nat.le_div_iff_mul_le (by decide)).mp hroom)
      (Nat.zero_le _)).bind_agree ?_
    rintro _ ⟨rows, total, rest⟩ - rfl
    refine Lockstep.guard_agree rfl Iff.rfl fun _ => ?_
    exact Lockstep.guard_agree rfl Iff.rfl fun _ => .pure rfl
  · have hshort : (takeU64 (bytes.drop 4) : Except Tfp1Error (Nat × Bytes)) =
        .error .truncated := Reader.bind_of_error (if_neg hcount)
    rw [Reader.bind_of_error hshort, ensure_of_not hcount]
    exact .refuse rfl

/-! The objects. -/

theorem sliceTFP1_of_object {pack : Pack} {row : Go.TFP1Row}
    {object : PackObject} (h : pack.object (describeRow row) = some object) :
    Go.sliceTFP1 pack.payload row = .ok (describeObject object) := by
  unfold Pack.object at h
  split at h
  · rename_i hinside
    cases h
    simp only [describeRow] at hinside
    have hstop : (row.offset + row.length).toNat =
        row.offset.toNat + row.length.toNat := by
      rw [UInt64.toNat_add, Nat.mod_eq_of_lt hinside.1]
    simp only [Go.sliceTFP1, UInt64.le_iff_toNat_le, hstop]
    rw [if_pos ⟨Nat.le_add_right _ _, hinside.2⟩, Nat.add_sub_cancel_left]
    rfl
  · cases h

theorem sliceTFP1_of_objects {pack : Pack} {rows : List Go.TFP1Row}
    {objects : List PackObject}
    (h : (rows.map describeRow).mapM pack.object = some objects) :
    rows.mapM (Go.sliceTFP1 pack.payload) =
      .ok (objects.map describeObject) := by
  induction rows generalizing objects with
  | nil =>
      cases h
      rfl
  | cons row rows ih =>
      rw [List.map_cons, List.mapM_cons] at h
      simp only [Option.bind_eq_bind, Option.bind_eq_some_iff] at h
      obtain ⟨object, hobject, rest, hrest, hcons⟩ := h
      cases hcons
      rw [List.mapM_cons, sliceTFP1_of_object hobject, ih hrest]
      rfl

/-- Both hold the same objects in the same order. -/
def SameObjects (pack : Pack) (other : Go.TFP1Pack) : Prop :=
  ∃ objects, pack.objects = some objects ∧
    other.objects = objects.map describeObject

theorem index_lockstep (bytes : Bytes) :
    Lockstep SameLabel SameObjects False (Pack.parse bytes)
      (Go.parseTFP1Index bytes) := by
  have hpure : (Pack.parse bytes >>= fun pack => .ok pack) =
      Pack.parse bytes := bind_pure _
  rw [← hpure]
  refine (parse_lockstep bytes).bind_agree ?_
  rintro _ ⟨rows, payload⟩ hparse rfl
  have hobjects := (parse_eq_ok.mp hparse).1.objects_eq
  have hslices := sliceTFP1_of_objects hobjects
  dsimp only at hslices ⊢
  rw [hslices, except_ok_bind]
  exact .pure ⟨_, hobjects, rfl⟩

section

variable (sha256 : Bytes → Digest)

theorem verify_lockstep {pack : Pack} {rows : List IndexRow}
    {objects : List PackObject} (h : rows.mapM pack.object = some objects) :
    Lockstep SameFailure (fun _ _ => True) False
      (verifyRows sha256 pack rows)
      (Go.TFP1Pack.verifyObjects sha256 ⟨objects.map describeObject⟩) := by
  induction rows generalizing objects with
  | nil =>
      cases h
      exact .pure trivial
  | cons row rows ih =>
      rw [List.mapM_cons] at h
      simp only [Option.bind_eq_bind, Option.bind_eq_some_iff] at h
      obtain ⟨object, hobject, rest, hrest, hcons⟩ := h
      cases hcons
      simp only [verifyRows, hobject]
      refine Lockstep.guard_agree ⟨_, rfl, rfl⟩ ?_ fun _ => ih hrest
      constructor
      · intro heq
        exact congrArg (fun digest => Go.hexEncode digest.bytes) heq
      · intro heq
        have hbytes := Go.hexEncode_inj heq
        exact orderKey_injective (congrArg (List.map UInt8.toNat) hbytes)

theorem decode_lockstep (bytes : Bytes) :
    Lockstep SameFailure SameObjects False (decode sha256 bytes)
      (Go.parseTFP1 sha256 bytes) := by
  have hindex : Lockstep SameFailure SameObjects False
      (refusing (Pack.parse bytes)) (Go.parseTFP1Index bytes) := by
    have hparse := index_lockstep bytes
    cases hleft : Pack.parse bytes with
    | ok pack =>
        rw [hleft] at hparse
        cases hright : Go.parseTFP1Index bytes with
        | ok other =>
            rw [hright] at hparse
            exact hparse
        | error other =>
            rw [hright] at hparse
            exact hparse.elim
    | error refusal =>
        rw [hleft] at hparse
        cases hright : Go.parseTFP1Index bytes with
        | ok other =>
            rw [hright] at hparse
            exact hparse.elim
        | error other =>
            rw [hright] at hparse
            exact .refuse ⟨refusal, rfl, hparse.mpr not_false⟩
  refine hindex.bind_agree ?_
  rintro pack ⟨_⟩ - ⟨objects, hobjects, rfl⟩
  exact (verify_lockstep sha256 hobjects).bind_agree fun _ _ _ _ =>
    .pure ⟨objects, hobjects, rfl⟩

end

/-- Both sides accept the same envelopes, hold the same objects in the same
order, and refuse under the same label, with the digests checked or not. -/
theorem packs_read_alike (sha256 : Bytes → Digest) (bytes : Bytes) :
    (((∃ pack, decode sha256 bytes = .ok pack) ↔
        ∃ other, Go.parseTFP1 sha256 bytes = .ok other) ∧
      (∀ pack other, decode sha256 bytes = .ok pack →
        Go.parseTFP1 sha256 bytes = .ok other → SameObjects pack other) ∧
      ∀ failure other, decode sha256 bytes = .error failure →
        Go.parseTFP1 sha256 bytes = .error other →
          SameFailure failure other) ∧
    ((∃ pack, Pack.parse bytes = .ok pack) ↔
        ∃ other, Go.parseTFP1Index bytes = .ok other) ∧
      (∀ pack other, Pack.parse bytes = .ok pack →
        Go.parseTFP1Index bytes = .ok other → SameObjects pack other) ∧
      ∀ refusal other, Pack.parse bytes = .error refusal →
        Go.parseTFP1Index bytes = .error other →
          SameLabel refusal other := by
  have hdecode := decode_lockstep sha256 bytes
  have hindex := index_lockstep bytes
  refine ⟨⟨hdecode.ok_iff, fun pack other hpack hother => ?_,
    fun failure other hfailure hother => ?_⟩, hindex.ok_iff,
    fun pack other hpack hother => ?_,
    fun refusal other hrefusal hother => ?_⟩
  · rw [hpack, hother] at hdecode
    exact hdecode.1
  · rw [hfailure, hother] at hdecode
    exact hdecode.mpr not_false
  · rw [hpack, hother] at hindex
    exact hindex.1
  · rw [hrefusal, hother] at hindex
    exact hindex.mpr not_false

end TensorFS.Tfp1
