import TensorFS.Data.Text

namespace TensorFS.Data

/-! UTF-8 keeps the order of texts, and a scalar value's bytes are found only
where the scalar value is. -/

theorem append_lt_append_left_iff {front left right : Bytes} :
    front ++ left < front ++ right ↔ left < right := by
  induction front with
  | nil => rfl
  | cons b front ih =>
      rw [List.cons_append, List.cons_append, List.cons_lt_cons_iff, ih]
      simp

theorem map_toNat_lt_iff {left right : Bytes} :
    left.map UInt8.toNat < right.map UInt8.toNat ↔ left < right := by
  induction left generalizing right with
  | nil => cases right <;> simp
  | cons b left ih =>
      cases right with
      | nil => simp
      | cons c right =>
          rw [List.map_cons, List.map_cons, List.cons_lt_cons_iff,
            List.cons_lt_cons_iff, ih, UInt8.lt_iff_toNat_lt, UInt8.toNat_inj]

theorem bytes_lt_irrefl (bytes : Bytes) : ¬ bytes < bytes := by
  rw [← map_toNat_lt_iff]
  exact lt_irrefl _

theorem bytes_lt_asymm {left right : Bytes} (h : left < right) :
    ¬ right < left := by
  rw [← map_toNat_lt_iff] at h ⊢
  exact lt_asymm h

/-! One scalar value. -/

/-- The encoding of a scalar value, as numbers. -/
def scalarBytes (v : Nat) : List Nat :=
  if v ≤ 0x7f then [v]
  else if v ≤ 0x7ff then [v / 64 + 192, v % 64 + 128]
  else if v ≤ 0xffff then [v / 4096 + 224, v / 64 % 64 + 128, v % 64 + 128]
  else [v / 262144 + 240, v / 4096 % 64 + 128, v / 64 % 64 + 128, v % 64 + 128]

theorem map_utf8EncodeChar (c : Char) :
    (String.utf8EncodeChar c).map UInt8.toNat = scalarBytes c.val.toNat := by
  have hmax : c.val.toNat < 1114112 := by
    rcases c.valid with hlow | ⟨-, hhigh⟩
    · exact hlow.trans (by decide)
    · exact hhigh
  unfold String.utf8EncodeChar scalarBytes
  dsimp only
  split_ifs <;>
    simp only [List.map_cons, List.map_nil, UInt8.toNat_ofNat',
      List.cons.injEq, and_true] <;>
    omega

theorem scalarBytes_append_lt {v w : Nat} (h : v < w) (left right : List Nat) :
    scalarBytes v ++ left < scalarBytes w ++ right := by
  unfold scalarBytes
  split_ifs <;>
    simp only [List.cons_append, List.nil_append, List.cons_lt_cons_iff] <;>
    omega

/-- The bytes behind the first lie in a range the first is not in. -/
theorem scalarBytes_shape (v : Nat) :
    ∃ lead tail, scalarBytes v = lead :: tail ∧ (lead < 128 ∨ 192 ≤ lead) ∧
      ∀ b ∈ tail, 128 ≤ b ∧ b < 192 := by
  unfold scalarBytes
  split_ifs <;>
    refine ⟨_, _, rfl, by omega, ?_⟩ <;>
    simp only [List.mem_cons, List.not_mem_nil, or_false, forall_eq_or_imp,
      forall_eq, IsEmpty.forall_iff, implies_true] <;>
    omega

theorem utf8EncodeChar_append_lt {c d : Char} (h : c < d)
    (left right : Bytes) :
    String.utf8EncodeChar c ++ left < String.utf8EncodeChar d ++ right := by
  have hlt : c.val.toNat < d.val.toNat := h
  rw [← map_toNat_lt_iff, List.map_append, List.map_append,
    map_utf8EncodeChar, map_utf8EncodeChar]
  exact scalarBytes_append_lt hlt _ _

theorem utf8EncodeChar_shape (c : Char) :
    ∃ lead tail, String.utf8EncodeChar c = lead :: tail ∧
      (lead.toNat < 128 ∨ 192 ≤ lead.toNat) ∧
      ∀ b ∈ tail, 128 ≤ b.toNat ∧ b.toNat < 192 := by
  obtain ⟨lead, tail, hshape, hlead, htail⟩ := scalarBytes_shape c.val.toNat
  rw [← map_utf8EncodeChar, List.map_eq_cons_iff] at hshape
  obtain ⟨b, bytes, hbytes, rfl, rfl⟩ := hshape
  exact ⟨b, bytes, hbytes, hlead, fun x hx => htail _ (List.mem_map_of_mem hx)⟩

/-! Texts. -/

theorem utf8_lt_of_lt {left right : Text} (h : left < right) :
    left.utf8 < right.utf8 := by
  induction h with
  | @nil c text =>
      obtain ⟨lead, tail, hbytes, -⟩ := utf8EncodeChar_shape c
      rw [Text.utf8_nil, Text.utf8_cons, hbytes]
      exact List.Lex.nil
  | cons _ ih => exact append_lt_append_left_iff.mpr ih
  | rel hlt => exact utf8EncodeChar_append_lt hlt _ _

/-- Texts are ordered as their encodings. -/
theorem utf8_lt_iff {left right : Text} :
    left.utf8 < right.utf8 ↔ left < right := by
  constructor
  · intro h
    rcases lt_trichotomy left right with hlt | heq | hgt
    · exact hlt
    · rw [heq] at h
      exact absurd h (bytes_lt_irrefl _)
    · exact absurd (utf8_lt_of_lt hgt) (bytes_lt_asymm h)
  · exact utf8_lt_of_lt

/-! Replacing. -/

/-- Left to right, without overlaps; `skip` bytes of a match are still to be
passed over. -/
def replaceFrom (old new : Bytes) : Nat → Bytes → Bytes
  | _, [] => []
  | skip + 1, _ :: bytes => replaceFrom old new skip bytes
  | 0, b :: bytes =>
      if old <+: b :: bytes then
        new ++ replaceFrom old new (old.length - 1) bytes
      else b :: replaceFrom old new 0 bytes

/-- Every occurrence of `old` becomes `new`. -/
def replaceBytes (old new bytes : Bytes) : Bytes := replaceFrom old new 0 bytes

theorem replaceFrom_skip (old new front bytes : Bytes) :
    replaceFrom old new front.length (front ++ bytes) =
      replaceBytes old new bytes := by
  induction front with
  | nil => rfl
  | cons b front ih => exact ih

theorem replaceBytes_match {old new : Bytes} (hold : old ≠ [])
    (bytes : Bytes) :
    replaceBytes old new (old ++ bytes) = new ++ replaceBytes old new bytes := by
  cases old with
  | nil => exact absurd rfl hold
  | cons lead tail =>
      rw [List.cons_append, replaceBytes, replaceFrom,
        if_pos (by rw [← List.cons_append]; exact List.prefix_append _ _)]
      exact congrArg _ (replaceFrom_skip _ _ tail bytes)

theorem replaceBytes_step {old new : Bytes} {b : UInt8} {bytes : Bytes}
    (h : ¬ old <+: b :: bytes) :
    replaceBytes old new (b :: bytes) = b :: replaceBytes old new bytes := by
  rw [replaceBytes, replaceFrom, if_neg h]
  rfl

/-- Bytes that are not the first of `old` are passed by. -/
theorem replaceBytes_pass {lead : UInt8} {old new front : Bytes}
    (h : ∀ b ∈ front, b ≠ lead) (bytes : Bytes) :
    replaceBytes (lead :: old) new (front ++ bytes) =
      front ++ replaceBytes (lead :: old) new bytes := by
  induction front with
  | nil => rfl
  | cons b front ih =>
      rw [List.cons_append, replaceBytes_step, List.cons_append, ih]
      · exact fun b hmem => h b (List.mem_cons_of_mem _ hmem)
      · intro hbegins
        exact h b List.mem_cons_self (List.cons_prefix_cons.mp hbegins).1.symm

theorem prefix_utf8_iff {c d : Char} {bytes : Bytes} :
    String.utf8EncodeChar c <+: String.utf8EncodeChar d ++ bytes ↔ c = d := by
  constructor
  · intro hbegins
    obtain ⟨rest, h⟩ := hbegins
    rcases lt_trichotomy c d with hlt | heq | hgt
    · exact absurd (utf8EncodeChar_append_lt hlt rest bytes) (h ▸ bytes_lt_irrefl _)
    · exact heq
    · exact absurd (utf8EncodeChar_append_lt hgt bytes rest) (h ▸ bytes_lt_irrefl _)
  · intro heq
    rw [heq]
    exact List.prefix_append _ _

/-- Another scalar value is passed over whole. -/
theorem replaceBytes_scalar {c d : Char} (h : c ≠ d) (new bytes : Bytes) :
    replaceBytes (String.utf8EncodeChar c) new
        (String.utf8EncodeChar d ++ bytes) =
      String.utf8EncodeChar d ++
        replaceBytes (String.utf8EncodeChar c) new bytes := by
  have hfirst : ¬ String.utf8EncodeChar c <+:
      String.utf8EncodeChar d ++ bytes := mt prefix_utf8_iff.mp h
  obtain ⟨lead, old, hold, hlead, -⟩ := utf8EncodeChar_shape c
  obtain ⟨b, tail, hbytes, -, htail⟩ := utf8EncodeChar_shape d
  rw [hold, hbytes, List.cons_append] at hfirst
  rw [hold, hbytes, List.cons_append, replaceBytes_step hfirst,
    replaceBytes_pass]
  · rfl
  · intro x hx heq
    have := htail x hx
    rw [heq] at this
    omega

/-- Replacing a scalar value's bytes replaces the scalar value. -/
theorem replaceBytes_utf8 (c : Char) (new text : Text) :
    replaceBytes (String.utf8EncodeChar c) new.utf8 text.utf8 =
      Text.utf8 (text.flatMap fun d => if d = c then new else [d]) := by
  induction text with
  | nil => rfl
  | cons d text ih =>
      rw [Text.utf8_cons, List.flatMap_cons, Text.utf8_append, ← ih]
      by_cases heq : d = c
      · rw [if_pos heq, heq]
        exact replaceBytes_match (String.utf8EncodeChar_ne_nil) _
      · rw [if_neg heq, replaceBytes_scalar (Ne.symm heq)]
        simp

end TensorFS.Data
