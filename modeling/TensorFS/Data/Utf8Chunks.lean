import TensorFS.Data.Utf8
import TensorFS.Data.Utf8Text

namespace TensorFS.Data

/-! What the scan of a byte string still owes, and why a string may be scanned
in pieces. -/

def InRange (range : UInt8 × UInt8) (b : UInt8) : Prop :=
  range.1 ≤ b ∧ b ≤ range.2

instance (range : UInt8 × UInt8) (b : UInt8) : Decidable (InRange range b) :=
  inferInstanceAs (Decidable (_ ∧ _))

/-- The ranges owed after one more byte; none where it is out of place. -/
def utf8Step : List (UInt8 × UInt8) → UInt8 → Option (List (UInt8 × UInt8))
  | [], b => continuations b
  | range :: pending, b => if InRange range b then some pending else none

def utf8Owed (pending : List (UInt8 × UInt8)) (bytes : Bytes) :
    Option (List (UInt8 × UInt8)) :=
  bytes.foldlM utf8Step pending

section

variable {pending owed : List (UInt8 × UInt8)} {bytes front back : Bytes}
  {b : UInt8}

@[simp] theorem utf8Owed_nil : utf8Owed pending [] = some pending := rfl

theorem utf8Owed_cons : utf8Owed pending (b :: bytes) =
    (utf8Step pending b).bind fun owed => utf8Owed owed bytes := rfl

theorem utf8Owed_append : utf8Owed pending (front ++ back) =
    (utf8Owed pending front).bind fun owed => utf8Owed owed back :=
  List.foldlM_append

theorem utf8Step_range {range : UInt8 × UInt8} :
    utf8Step (range :: pending) b = some owed ↔
      InRange range b ∧ owed = pending := by
  rw [utf8Step]
  split
  · rename_i hrange
    rw [Option.some.injEq]
    exact ⟨fun heq => ⟨hrange, heq.symm⟩, fun heq => heq.2.symm⟩
  · rename_i hrange
    constructor
    · intro heq
      cases heq
    · intro heq
      exact absurd heq.1 hrange

/-! One scalar value. -/

theorem length_continuations (h : continuations b = some pending) :
    pending.length ≤ 3 := by
  unfold continuations at h
  split_ifs at h <;> cases h <;> decide

/-- A valid value has a scalar value's encoding. -/
theorem exists_encodeChar {v : Nat}
    (hv : v < 0xd800 ∨ (0xdfff < v ∧ v < 0x110000))
    (h : bytes.map UInt8.toNat = scalarBytes v) :
    ∃ c, String.utf8EncodeChar c = bytes := by
  have hsmall : v < 2 ^ 32 := by omega
  have hvalue : (UInt32.ofNat v).toNat = v := UInt32.toNat_ofNat_of_lt hsmall
  have hvalid : (UInt32.ofNat v).isValidChar := by
    rw [UInt32.isValidChar, hvalue]
    exact hv
  refine ⟨⟨UInt32.ofNat v, hvalid⟩, ?_⟩
  have hmap : (String.utf8EncodeChar ⟨UInt32.ofNat v, hvalid⟩).map
      UInt8.toNat = bytes.map UInt8.toNat := by
    rw [map_utf8EncodeChar, h]
    exact congrArg scalarBytes hvalue
  exact List.map_injective_iff.mpr
    (fun left right heq => UInt8.toNat_inj.mp heq) hmap

/-- The four kinds of lead byte, with what the second byte is held to. -/
theorem continuations_eq_some : continuations b = some pending ↔
    (b.toNat < 128 ∧ pending = []) ∨
    (194 ≤ b.toNat ∧ b.toNat < 224 ∧ pending = [(0x80, 0xbf)]) ∨
    (224 ≤ b.toNat ∧ b.toNat < 240 ∧
      pending = [(if b.toNat = 224 then 0xa0 else 0x80,
        if b.toNat = 237 then 0x9f else 0xbf), (0x80, 0xbf)]) ∨
    (240 ≤ b.toNat ∧ b.toNat < 245 ∧
      pending = [(if b.toNat = 240 then 0x90 else 0x80,
        if b.toNat = 244 then 0x8f else 0xbf), (0x80, 0xbf), (0x80, 0xbf)]) := by
  unfold continuations
  simp only [UInt8.lt_iff_toNat_lt, ← UInt8.toNat_inj, UInt8.reduceToNat]
  grind

theorem inRange_iff {low high : UInt8} :
    InRange (low, high) b ↔ low.toNat ≤ b.toNat ∧ b.toNat ≤ high.toNat :=
  and_congr UInt8.le_iff_toNat_le UInt8.le_iff_toNat_le

theorem toNat_ite (p : Prop) [Decidable p] (left right : UInt8) :
    (if p then left else right).toNat =
      if p then left.toNat else right.toNat :=
  apply_ite UInt8.toNat p left right

/-- A lead and tail bytes in range spell a scalar value. -/
theorem encodeChar_of_continuations (h : continuations b = some pending)
    (htail : List.Forall₂ InRange pending bytes) :
    ∃ c, String.utf8EncodeChar c = b :: bytes := by
  rcases continuations_eq_some.mp h with ⟨hone, rfl⟩ | ⟨hlow, hhigh, rfl⟩ |
    ⟨hlow, hhigh, rfl⟩ | ⟨hlow, hhigh, rfl⟩
  · cases htail
    refine @exists_encodeChar _ b.toNat (.inl (by omega)) ?_
    rw [scalarBytes, if_pos (by omega), List.map_cons, List.map_nil]
  · cases htail with
    | cons hfirst hrest =>
    cases hrest
    rw [inRange_iff] at hfirst
    simp only [UInt8.reduceToNat] at hfirst
    rename_i first
    refine @exists_encodeChar _ ((b.toNat - 192) * 64 + (first.toNat - 128))
      (.inl (by omega)) ?_
    rw [scalarBytes, if_neg (by omega), if_pos (by omega)]
    simp only [List.map_cons, List.map_nil, List.cons.injEq, and_true]
    omega
  · cases htail with
    | cons hfirst hrest =>
    cases hrest with
    | cons hsecond hrest =>
    cases hrest
    rw [inRange_iff] at hfirst hsecond
    simp only [toNat_ite, UInt8.reduceToNat] at hfirst hsecond
    rename_i first second
    have hrange : 128 ≤ first.toNat ∧ first.toNat ≤ 191 ∧
        (b.toNat = 224 → 160 ≤ first.toNat) ∧
        (b.toNat = 237 → first.toNat ≤ 159) := by
      split_ifs at hfirst <;> omega
    refine @exists_encodeChar _ ((b.toNat - 224) * 4096 +
      (first.toNat - 128) * 64 + (second.toNat - 128)) (by omega) ?_
    rw [scalarBytes, if_neg (by omega), if_neg (by omega), if_pos (by omega)]
    simp only [List.map_cons, List.map_nil, List.cons.injEq, and_true]
    omega
  · cases htail with
    | cons hfirst hrest =>
    cases hrest with
    | cons hsecond hrest =>
    cases hrest with
    | cons hthird hrest =>
    cases hrest
    rw [inRange_iff] at hfirst hsecond hthird
    simp only [toNat_ite, UInt8.reduceToNat] at hfirst hsecond hthird
    rename_i first second third
    have hrange : 128 ≤ first.toNat ∧ first.toNat ≤ 191 ∧
        (b.toNat = 240 → 144 ≤ first.toNat) ∧
        (b.toNat = 244 → first.toNat ≤ 143) := by
      split_ifs at hfirst <;> omega
    refine @exists_encodeChar _ ((b.toNat - 240) * 262144 +
      (first.toNat - 128) * 4096 + (second.toNat - 128) * 64 +
      (third.toNat - 128)) (by omega) ?_
    rw [scalarBytes, if_neg (by omega), if_neg (by omega), if_neg (by omega)]
    simp only [List.map_cons, List.map_nil, List.cons.injEq, and_true]
    omega

/-- A scalar value's bytes are a lead and the tail it owes. -/
theorem continuations_of_encodeChar (c : Char) :
    ∃ lead tail pending, String.utf8EncodeChar c = lead :: tail ∧
      continuations lead = some pending ∧
      List.Forall₂ InRange pending tail := by
  have hvalid : c.val.toNat < 0xd800 ∨
      (0xdfff < c.val.toNat ∧ c.val.toNat < 0x110000) := c.valid
  have hmap := map_utf8EncodeChar c
  unfold scalarBytes at hmap
  split_ifs at hmap with hone htwo hthree
  · simp only [List.map_eq_cons_iff, List.map_eq_nil_iff] at hmap
    obtain ⟨lead, _, hbytes, hlead, rfl⟩ := hmap
    exact ⟨lead, [], [], hbytes,
      continuations_eq_some.mpr (.inl ⟨by omega, rfl⟩), .nil⟩
  · simp only [List.map_eq_cons_iff, List.map_eq_nil_iff] at hmap
    obtain ⟨lead, _, hbytes, hlead, first, _, rfl, hfirst, rfl⟩ := hmap
    refine ⟨lead, [first], _, hbytes, continuations_eq_some.mpr
      (.inr (.inl ⟨by omega, by omega, rfl⟩)), .cons ?_ .nil⟩
    rw [inRange_iff]
    simp only [UInt8.reduceToNat]
    omega
  · simp only [List.map_eq_cons_iff, List.map_eq_nil_iff] at hmap
    obtain ⟨lead, _, hbytes, hlead, first, _, rfl, hfirst, second, _, rfl,
      hsecond, rfl⟩ := hmap
    refine ⟨lead, [first, second], _, hbytes, continuations_eq_some.mpr
      (.inr (.inr (.inl ⟨by omega, by omega, rfl⟩))),
      .cons ?_ (.cons ?_ .nil)⟩
    · rw [inRange_iff]
      simp only [toNat_ite, UInt8.reduceToNat]
      split_ifs <;> omega
    · rw [inRange_iff]
      simp only [UInt8.reduceToNat]
      omega
  · simp only [List.map_eq_cons_iff, List.map_eq_nil_iff] at hmap
    obtain ⟨lead, _, hbytes, hlead, first, _, rfl, hfirst, second, _, rfl,
      hsecond, third, _, rfl, hthird, rfl⟩ := hmap
    refine ⟨lead, [first, second, third], _, hbytes, continuations_eq_some.mpr
      (.inr (.inr (.inr ⟨by omega, by omega, rfl⟩))),
      .cons ?_ (.cons ?_ (.cons ?_ .nil))⟩
    · rw [inRange_iff]
      simp only [toNat_ite, UInt8.reduceToNat]
      split_ifs <;> omega
    · rw [inRange_iff]
      simp only [UInt8.reduceToNat]
      omega
    · rw [inRange_iff]
      simp only [UInt8.reduceToNat]
      omega

/-! Texts. -/

theorem utf8Owed_of_range (htail : List.Forall₂ InRange pending front) :
    utf8Owed pending (front ++ back) = utf8Owed [] back := by
  induction htail with
  | nil => rfl
  | cons hrange _ ih =>
      rw [List.cons_append, utf8Owed_cons,
        utf8Step_range.mpr ⟨hrange, rfl⟩, Option.bind_some, ih]

theorem exists_range_of_utf8Owed (h : utf8Owed pending bytes = some []) :
    ∃ front back, bytes = front ++ back ∧
      List.Forall₂ InRange pending front ∧ utf8Owed [] back = some [] := by
  induction pending generalizing bytes with
  | nil => exact ⟨[], bytes, rfl, .nil, h⟩
  | cons range pending ih =>
      cases bytes with
      | nil => cases h
      | cons b bytes =>
          rw [utf8Owed_cons, Option.bind_eq_some_iff] at h
          obtain ⟨owed, hstep, h⟩ := h
          obtain ⟨hrange, rfl⟩ := utf8Step_range.mp hstep
          obtain ⟨front, back, rfl, hfront, hback⟩ := ih h
          exact ⟨b :: front, back, rfl, .cons hrange hfront, hback⟩

/-- Nothing is owed behind a text's encoding and behind nothing else. -/
theorem utf8Owed_eq_nil : utf8Owed [] bytes = some [] ↔
    (Text.fromUtf8 bytes).isSome := by
  constructor
  · intro h
    induction hlength : bytes.length using Nat.strong_induction_on
      generalizing bytes with
    | _ length ih =>
    cases bytes with
    | nil => exact Option.isSome_of_eq_some (Text.fromUtf8_utf8 [])
    | cons b bytes =>
        rw [utf8Owed_cons, Option.bind_eq_some_iff] at h
        obtain ⟨pending, hlead, h⟩ := h
        obtain ⟨front, back, rfl, hfront, hback⟩ :=
          exists_range_of_utf8Owed h
        obtain ⟨c, hc⟩ := encodeChar_of_continuations hlead hfront
        have hshort : back.length < length := by
          rw [← hlength, List.length_cons, List.length_append]
          omega
        obtain ⟨text, htext⟩ :=
          Option.isSome_iff_exists.mp (ih _ hshort hback rfl)
        have hbytes : b :: (front ++ back) = Text.utf8 (c :: text) := by
          rw [Text.utf8_cons, hc, ← Text.utf8_of_fromUtf8 htext]
          rfl
        rw [hbytes]
        exact Option.isSome_of_eq_some (Text.fromUtf8_utf8 _)
  · intro h
    obtain ⟨text, htext⟩ := Option.isSome_iff_exists.mp h
    rw [Text.utf8_of_fromUtf8 htext]
    clear h htext
    induction text with
    | nil => rfl
    | cons c text ih =>
        obtain ⟨lead, tail, pending, hc, hlead, htail⟩ :=
          continuations_of_encodeChar c
        rw [Text.utf8_cons, hc, List.cons_append, utf8Owed_cons]
        rw [utf8Step, hlead, Option.bind_some, utf8Owed_of_range htail]
        exact ih

/-! The scan's outcome. -/

/-- The bytes of a character cut short, with what it still owes. -/
structure CutShort (bytes : Bytes) (owed : List (UInt8 × UInt8)) : Prop where
  owes : utf8Owed [] bytes = some owed
  short : bytes.length + owed.length ≤ 4

theorem CutShort.nil : CutShort [] [] := ⟨rfl, Nat.zero_le 4⟩

theorem CutShort.lead (h : continuations b = some pending) :
    CutShort [b] pending := by
  have hshort := length_continuations h
  refine ⟨?_, ?_⟩
  · rw [utf8Owed_cons, utf8Step, h]
    rfl
  · rw [List.length_singleton]
    omega

theorem CutShort.snoc {range : UInt8 × UInt8}
    (h : CutShort front (range :: pending)) (hrange : InRange range b) :
    CutShort (front ++ [b]) pending := by
  obtain ⟨howes, hshort⟩ := h
  refine ⟨?_, ?_⟩
  · rw [utf8Owed_append, howes, Option.bind_some, utf8Owed_cons,
      utf8Step_range.mpr ⟨hrange, rfl⟩]
    rfl
  · rw [List.length_append, List.length_singleton]
    rw [List.length_cons] at hshort
    omega

/-- What the scan answers from the middle of a string. -/
def Answers (length : Nat) (bytes : Bytes)
    (outcome : Option (List (UInt8 × UInt8))) : Utf8Outcome → Prop
  | .valid => outcome = some []
  | .invalid _ => outcome = none
  | .incomplete valid => ∃ back owed, outcome = some owed ∧ owed ≠ [] ∧
      CutShort back owed ∧ back <:+ bytes ∧ valid + back.length = length

theorem Answers.mono {length : Nat}
    {outcome : Option (List (UInt8 × UInt8))} {answer : Utf8Outcome}
    (h : Answers length back outcome answer) (hsuffix : back <:+ bytes) :
    Answers length bytes outcome answer := by
  cases answer with
  | valid => exact h
  | invalid valid => exact h
  | incomplete valid =>
      obtain ⟨tail, owed, houtcome, hne, hcut, htail, hlength⟩ := h
      exact ⟨tail, owed, houtcome, hne, hcut, htail.trans hsuffix, hlength⟩

theorem utf8Scan_answers {start index : Nat} (hcut : CutShort front pending)
    (hindex : pending ≠ [] → start + front.length = index) :
    Answers (index + bytes.length) (front ++ bytes) (utf8Owed pending bytes)
      (utf8Scan start pending index bytes) := by
  induction bytes generalizing front pending start index with
  | nil =>
      cases pending with
      | nil => rfl
      | cons range pending =>
          refine ⟨front, _, rfl, List.cons_ne_nil _ _, hcut, ?_, ?_⟩
          · rw [List.append_nil]
          · exact hindex (List.cons_ne_nil _ _)
  | cons b bytes ih =>
      have hlength : index + (b :: bytes).length =
          index + 1 + bytes.length := by
        rw [List.length_cons]
        omega
      rw [hlength, utf8Owed_cons]
      cases pending with
      | nil =>
          rw [utf8Step, utf8Scan]
          cases hlead : continuations b with
          | none => rfl
          | some pending =>
              rw [Option.bind_some]
              have hnext := @ih _ [b] index (index + 1) (CutShort.lead hlead)
                fun _ => rfl
              exact hnext.mono (List.suffix_append front (b :: bytes))
      | cons range pending =>
          rw [utf8Scan]
          by_cases hrange : range.1 ≤ b ∧ b ≤ range.2
          · have hnext := @ih _ (front ++ [b]) start (index + 1)
              (hcut.snoc hrange) fun _ => by
                rw [List.length_append, ← hindex (List.cons_ne_nil _ _)]
                rfl
            rw [List.append_assoc] at hnext
            rw [if_pos hrange, utf8Step_range.mpr ⟨hrange, rfl⟩,
              Option.bind_some]
            exact hnext
          · have hout : ¬ InRange range b := hrange
            rw [if_neg hrange, utf8Step, if_neg hout]
            rfl

/-- The scan of a whole string. -/
theorem checkUtf8_answers (bytes : Bytes) :
    Answers bytes.length bytes (utf8Owed [] bytes) (checkUtf8 bytes) := by
  have h := @utf8Scan_answers [] bytes [] 0 0 CutShort.nil
    fun hne => absurd rfl hne
  rwa [Nat.zero_add] at h

/-- What is left of an incomplete string owes what the string owes. -/
theorem drop_of_incomplete {valid : Nat}
    (h : checkUtf8 bytes = .incomplete valid) :
    ∃ owed, utf8Owed [] bytes = some owed ∧ owed ≠ [] ∧
      valid + (bytes.drop valid).length = bytes.length ∧
      CutShort (bytes.drop valid) owed := by
  have hanswers := checkUtf8_answers bytes
  rw [h] at hanswers
  obtain ⟨back, owed, howed, hne, hcut, ⟨front, rfl⟩, hlength⟩ := hanswers
  have hvalid : valid = front.length := by
    rw [List.length_append] at hlength
    omega
  rw [hvalid, List.drop_left]
  exact ⟨owed, howed, hne, (List.length_append).symm, hcut⟩

end

end TensorFS.Data
