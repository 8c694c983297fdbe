import TensorFS.Data.JsonGrammar
import TensorFS.Data.Text

namespace TensorFS.Go

open Data

/-! The scan for halves of surrogate pairs that a decoder would replace. -/

def hexDigit (value : UInt8) : Option UInt16 :=
  if 0x30 ≤ value ∧ value ≤ 0x39 then some (value - 0x30).toUInt16
  else if 0x61 ≤ value ∧ value ≤ 0x66 then some ((value - 0x61).toUInt16 + 10)
  else if 0x41 ≤ value ∧ value ≤ 0x46 then some ((value - 0x41).toUInt16 + 10)
  else none

/-- What ends a run of the scan that does not return: an index outside the
slice, or a loop that goes on. -/
inductive ScanFault where
  | outOfRange
  | unfinished
  deriving DecidableEq

def byteAt (data : Bytes) (index : Nat) : Except ScanFault UInt8 :=
  match data[index]? with
  | some byte => .ok byte
  | none => .error .outOfRange

/-- `data[low:high]`. -/
def sliceAt (data : Bytes) (low high : Nat) : Except ScanFault Bytes :=
  if low ≤ high ∧ high ≤ data.length then
    .ok ((data.drop low).take (high - low))
  else .error .outOfRange

def hexDigits (value : UInt16) : Bytes → Option UInt16
  | [] => some value
  | character :: characters => do
      let digit ← hexDigit character
      hexDigits (value * 16 + digit) characters

def escapedUTF16Unit (data : Bytes) (slash : Nat) :
    Except ScanFault (Option UInt16) :=
  if data.length ≤ slash + 5 then .ok none
  else do
    let first ← byteAt data slash
    if first ≠ 0x5c then .ok none
    else do
      let second ← byteAt data (slash + 1)
      if second ≠ 0x75 then .ok none
      else do
        let characters ← sliceAt data (slash + 2) (slash + 6)
        .ok (hexDigits 0 characters)

def unpairedSurrogate : Text :=
  "manifest contains an unpaired Unicode surrogate escape".toList

def HighUnit (unit : UInt16) : Prop := 0xd800 ≤ unit ∧ unit ≤ 0xdbff

def LowUnit (unit : UInt16) : Prop := 0xdc00 ≤ unit ∧ unit ≤ 0xdfff

instance (unit : UInt16) : Decidable (HighUnit unit) :=
  inferInstanceAs (Decidable (_ ∧ _))

instance (unit : UInt16) : Decidable (LowUnit unit) :=
  inferInstanceAs (Decidable (_ ∧ _))

/-- The loop, for so many rounds; it returns `nil` or an error. -/
def scanFrom (data : Bytes) : Nat → Nat → Bool → Except ScanFault (Option Text)
  | 0, _, _ => .error .unfinished
  | rounds + 1, index, inString =>
      if data.length ≤ index then .ok none
      else do
        let current ← byteAt data index
        if current = 0x22 then scanFrom data rounds (index + 1) (!inString)
        else if current = 0x5c then
          if inString = false ∨ data.length ≤ index + 1 then
            scanFrom data rounds (index + 1) inString
          else do
            let next ← byteAt data (index + 1)
            if next ≠ 0x75 then scanFrom data rounds (index + 2) inString
            else do
              match ← escapedUTF16Unit data index with
              | none => scanFrom data rounds (index + 1) inString
              | some unit =>
                  if HighUnit unit then do
                    match ← escapedUTF16Unit data (index + 6) with
                    | some low =>
                        if LowUnit low then
                          scanFrom data rounds (index + 12) inString
                        else .ok (some unpairedSurrogate)
                    | none => .ok (some unpairedSurrogate)
                  else if LowUnit unit then .ok (some unpairedSurrogate)
                  else scanFrom data rounds (index + 6) inString
        else scanFrom data rounds (index + 1) inString

def validateJSONStringSurrogates (rounds : Nat) (data : Bytes) :
    Except ScanFault (Option Text) := scanFrom data rounds 0 false

/-! The same scan over what is left of the bytes, without an index. -/

def unitAhead : Bytes → Option UInt16
  | first :: second :: a :: b :: c :: d :: _ =>
      if first = 0x5c ∧ second = 0x75 then hexDigits 0 [a, b, c, d] else none
  | _ => none

def scanAhead (inString : Bool) : Bytes → Option Text
  | [] => none
  | [current] =>
      scanAhead (if current = 0x22 then !inString else inString) []
  | current :: next :: rest =>
      if current = 0x22 then scanAhead (!inString) (next :: rest)
      else if current = 0x5c ∧ inString = true then
        if next ≠ 0x75 then scanAhead inString rest
        else
          match unitAhead (current :: next :: rest) with
          | none => scanAhead inString (next :: rest)
          | some unit =>
              if HighUnit unit then
                match unitAhead (rest.drop 4) with
                | some low =>
                    if LowUnit low then scanAhead inString (rest.drop 10)
                    else some unpairedSurrogate
                | none => some unpairedSurrogate
              else if LowUnit unit then some unpairedSurrogate
              else scanAhead inString (rest.drop 4)
      else scanAhead inString (next :: rest)
  termination_by rest => rest.length
  decreasing_by all_goals simp_wf <;> omega

section

variable {data rest : Bytes} {index : Nat}

theorem byteAt_of_drop {current : UInt8} (h : data.drop index = current :: rest) :
    byteAt data index = .ok current := by
  have hget : data[index]? = some current := by
    rw [← List.head?_drop, h]
    rfl
  rw [byteAt, hget]

theorem unitAhead_of_short (h : rest.length ≤ 5) : unitAhead rest = none := by
  unfold unitAhead
  split
  · simp only [List.length_cons] at h
    omega
  · rfl

theorem escapedUTF16Unit_eq (data : Bytes) (slash : Nat) :
    escapedUTF16Unit data slash = .ok (unitAhead (data.drop slash)) := by
  unfold escapedUTF16Unit
  by_cases hshort : data.length ≤ slash + 5
  · rw [if_pos hshort, unitAhead_of_short]
    rw [List.length_drop]
    omega
  · rw [if_neg hshort]
    have hlength : 6 ≤ (data.drop slash).length := by
      rw [List.length_drop]
      omega
    match hdrop : data.drop slash, hlength with
    | first :: second :: a :: b :: c :: d :: rest, _ =>
        have hsecond : data.drop (slash + 1) = second :: a :: b :: c :: d :: rest := by
          rw [← List.drop_drop, hdrop]
          rfl
        have hslice : sliceAt data (slash + 2) (slash + 6) = .ok [a, b, c, d] := by
          rw [sliceAt, if_pos (by omega), ← List.drop_drop, hdrop]
          simp
        simp only [byteAt_of_drop hdrop, byteAt_of_drop hsecond, hslice,
          except_ok_bind, unitAhead]
        by_cases hfirst : first = 0x5c
        · by_cases hu : second = 0x75
          · simp [hfirst, hu]
          · simp [hfirst, hu]
        · simp [hfirst]

theorem quote_ne_slash : ¬ (0x5c : UInt8) = 0x22 := by decide

theorem scanAhead_escape {next : UInt8} :
    scanAhead true (0x5c :: next :: rest) =
      if next ≠ 0x75 then scanAhead true rest
      else
        match unitAhead (0x5c :: next :: rest) with
        | none => scanAhead true (next :: rest)
        | some unit =>
            if HighUnit unit then
              match unitAhead (rest.drop 4) with
              | some low =>
                  if LowUnit low then scanAhead true (rest.drop 10)
                  else some unpairedSurrogate
              | none => some unpairedSurrogate
            else if LowUnit unit then some unpairedSurrogate
            else scanAhead true (rest.drop 4) := by
  rw [scanAhead, if_neg quote_ne_slash, if_pos (And.intro rfl rfl)]

/-- A step behind a backslash, where the rounds left over are enough. -/
theorem scanFrom_escape {rounds : Nat} {next : UInt8}
    (ih : ∀ index inString, data.length - index < rounds →
      scanFrom data rounds index inString =
        .ok (scanAhead inString (data.drop index)))
    (h : data.length - index < rounds + 1)
    (hahead : data.drop index = 0x5c :: next :: rest) :
    scanFrom data (rounds + 1) index true =
      .ok (scanAhead true (0x5c :: next :: rest)) := by
  have hlength := congrArg List.length hahead
  rw [List.length_drop, List.length_cons, List.length_cons] at hlength
  have hfewer (n : Nat) : data.length - (index + (n + 1)) < rounds := by omega
  have hdrop (n : Nat) :
      data.drop (index + n) = (0x5c :: next :: rest).drop n := by
    rw [← hahead, List.drop_drop]
  rw [scanFrom, if_neg (by omega), byteAt_of_drop hahead, except_ok_bind,
    if_neg quote_ne_slash, if_pos rfl, if_neg (by simp; omega),
    byteAt_of_drop (hdrop 1), except_ok_bind, scanAhead_escape]
  by_cases hunit : next = 0x75
  · rw [if_neg (not_not.mpr hunit), if_neg (not_not.mpr hunit),
      escapedUTF16Unit_eq, except_ok_bind, hahead]
    cases unitAhead (0x5c :: next :: rest) with
    | none => rw [ih _ _ (hfewer 0), hdrop 1]; rfl
    | some unit =>
        dsimp only
        by_cases hhigh : HighUnit unit
        · rw [if_pos hhigh, if_pos hhigh, escapedUTF16Unit_eq, except_ok_bind,
            hdrop 6]
          simp only [ih _ _ (hfewer 11), hdrop 12, List.drop_succ_cons]
          split
          · split <;> rfl
          · rfl
        · rw [if_neg hhigh, if_neg hhigh, ih _ _ (hfewer 5), hdrop 6]
          split <;> rfl
  · rw [if_pos hunit, if_pos hunit, ih _ _ (hfewer 1), hdrop 2]
    rfl

theorem scanFrom_eq {rounds : Nat} (inString : Bool)
    (h : data.length - index < rounds) :
    scanFrom data rounds index inString =
      .ok (scanAhead inString (data.drop index)) := by
  induction rounds generalizing index inString with
  | zero => exact absurd h (Nat.not_lt_zero _)
  | succ rounds ih =>
      by_cases hend : data.length ≤ index
      · rw [scanFrom, if_pos hend, List.drop_eq_nil_of_le hend, scanAhead]
      · have hfewer : data.length - (index + 1) < rounds := by omega
        have hover (inString : Bool) : scanFrom data rounds (index + 1) inString =
            .ok (scanAhead inString ((data.drop index).drop 1)) := by
          rw [ih inString hfewer, List.drop_drop]
        match hahead : data.drop index with
        | [] => exact absurd (List.drop_eq_nil_iff.mp hahead) hend
        | [current] =>
            have hlength := congrArg List.length hahead
            rw [List.length_drop, List.length_singleton] at hlength
            have hlast : data.length ≤ index + 1 := by omega
            simp only [scanFrom, if_neg hend, byteAt_of_drop hahead,
              except_ok_bind, hlast, or_true, if_true, hover, hahead, List.drop_one,
              List.tail_cons, scanAhead, ite_self]
        | current :: next :: rest =>
            by_cases hquote : current = 0x22
            · rw [scanFrom, if_neg hend, byteAt_of_drop hahead, except_ok_bind,
                scanAhead, if_pos hquote, if_pos hquote, hover, hahead]
              rfl
            · by_cases hslash : current = 0x5c
              · cases inString with
                | false =>
                    rw [scanFrom, if_neg hend, byteAt_of_drop hahead,
                      except_ok_bind, scanAhead, if_neg hquote, if_pos hslash,
                      if_pos (.inl rfl), if_neg hquote, if_neg (by simp), hover,
                      hahead]
                    rfl
                | true =>
                    rw [hslash] at hahead ⊢
                    exact scanFrom_escape (fun _ => ih) h hahead
              · rw [scanFrom, if_neg hend, byteAt_of_drop hahead, except_ok_bind,
                  scanAhead, if_neg hquote, if_neg hslash, if_neg hquote,
                  if_neg (fun h => hslash h.1), hover, hahead]
                rfl

end

/-! The escapes of a token. -/

theorem hexDigit_eq (digit : HexDigit) :
    hexDigit digit.byte = some (UInt16.ofNat digit.value) ∧ digit.value < 16 := by
  have h : ∀ n < 256, let b := UInt8.ofNat n
      ((0x30 ≤ b ∧ b ≤ 0x39) ∨ (0x61 ≤ b ∧ b ≤ 0x66) ∨ (0x41 ≤ b ∧ b ≤ 0x46)) →
      hexDigit b = some (UInt16.ofNat
        (if b ≤ 0x39 then b.toNat - 0x30
        else if b ≤ 0x46 then b.toNat - 0x37 else b.toNat - 0x57)) ∧
      (if b ≤ 0x39 then b.toNat - 0x30
        else if b ≤ 0x46 then b.toNat - 0x37 else b.toNat - 0x57) < 16 := by
    decide +kernel
  have hbyte := h digit.byte.toNat digit.byte.toNat_lt
  rw [UInt8.ofNat_toNat] at hbyte
  exact hbyte digit.digit

theorem codeUnit_lt {item : StringItem} {unit : Nat}
    (h : item.codeUnit = some unit) : unit < 65536 := by
  cases item with
  | plain => cases h
  | short => cases h
  | unit first second third fourth =>
      cases h
      have hfirst := (hexDigit_eq first).2
      have hsecond := (hexDigit_eq second).2
      have hthird := (hexDigit_eq third).2
      have hfourth := (hexDigit_eq fourth).2
      omega

theorem unitAhead_unit (first second third fourth : HexDigit) (rest : Bytes) :
    unitAhead ((StringItem.unit first second third fourth).bytes ++ rest) =
      (StringItem.unit first second third fourth).codeUnit.map UInt16.ofNat := by
  simp [StringItem.bytes, unitAhead, hexDigits, hexDigit_eq,
    StringItem.codeUnit, UInt16.ofNat_add, UInt16.ofNat_mul]

theorem unitAhead_of_ne {current : UInt8} {rest : Bytes} (h : current ≠ 0x5c) :
    unitAhead (current :: rest) = none := by
  unfold unitAhead
  split
  · rename_i heq
    cases heq
    exact if_neg fun hslash => h hslash.1
  · rfl

theorem unitAhead_short {letter : UInt8} {rest : Bytes} (h : letter ≠ 0x75) :
    unitAhead (0x5c :: letter :: rest) = none := by
  unfold unitAhead
  split
  · rename_i heq
    cases heq
    exact if_neg fun hunit => h hunit.2
  · rfl

theorem known_ne {letter : UInt8} (h : letter ∈ shortEscapes) :
    letter ≠ 0x75 := by
  intro heq
  rw [heq] at h
  exact absurd h (by decide)

theorem unitAhead_item (item : StringItem) (rest : Bytes) :
    unitAhead (item.bytes ++ rest) = item.codeUnit.map UInt16.ofNat := by
  cases item with
  | plain byte unescaped => exact unitAhead_of_ne unescaped.2.2
  | short letter known => exact unitAhead_short (known_ne known)
  | unit first second third fourth => exact unitAhead_unit _ _ _ _ rest

section

variable {item : StringItem} {unit : Nat} {rest : Bytes}

theorem highUnit_iff (h : item.codeUnit = some unit) :
    HighUnit (UInt16.ofNat unit) ↔ item.isHigh = true := by
  rw [HighUnit, UInt16.le_iff_toNat_le, UInt16.le_iff_toNat_le,
    UInt16.toNat_ofNat_of_lt' (codeUnit_lt h), StringItem.isHigh, h,
    Option.any_some, decide_eq_true_eq]
  rfl

theorem lowUnit_iff (h : item.codeUnit = some unit) :
    LowUnit (UInt16.ofNat unit) ↔ item.isLow = true := by
  rw [LowUnit, UInt16.le_iff_toNat_le, UInt16.le_iff_toNat_le,
    UInt16.toNat_ofNat_of_lt' (codeUnit_lt h), StringItem.isLow, h,
    Option.any_some, decide_eq_true_eq]
  rfl

theorem scanAhead_quote (inString : Bool) (rest : Bytes) :
    scanAhead inString (0x22 :: rest) = scanAhead (!inString) rest := by
  cases rest with
  | nil => simp [scanAhead]
  | cons next rest => rw [scanAhead, if_pos rfl]

theorem scanAhead_cons {inString : Bool} {current : UInt8}
    (hquote : current ≠ 0x22) (hslash : ¬ (current = 0x5c ∧ inString = true)) :
    scanAhead inString (current :: rest) = scanAhead inString rest := by
  cases rest with
  | nil => simp [scanAhead]
  | cons next rest => rw [scanAhead, if_neg hquote, if_neg hslash]

/-- What the scan does at an escape of a code unit. -/
theorem scanAhead_unit (h : item.codeUnit = some unit) :
    scanAhead true (item.bytes ++ rest) =
      if item.isHigh = true then
        match unitAhead rest with
        | some low =>
            if LowUnit low then scanAhead true (rest.drop 6)
            else some unpairedSurrogate
        | none => some unpairedSurrogate
      else if item.isLow = true then some unpairedSurrogate
      else scanAhead true rest := by
  cases hitem : item with
  | plain => rw [hitem] at h; cases h
  | short => rw [hitem] at h; cases h
  | unit first second third fourth =>
      have hahead := unitAhead_item item rest
      rw [h, hitem] at hahead
      simp only [StringItem.bytes, List.cons_append, List.nil_append] at hahead ⊢
      simp only [scanAhead_escape, hahead, Option.map_some, highUnit_iff h,
        lowUnit_iff h, hitem]
      simp

theorem scanAhead_item (hhigh : item.isHigh = false) (hlow : item.isLow = false) :
    scanAhead true (item.bytes ++ rest) = scanAhead true rest := by
  cases hunit : item.codeUnit with
  | some unit => simp [scanAhead_unit hunit, hhigh, hlow]
  | none =>
      cases item with
      | plain byte unescaped =>
          exact scanAhead_cons unescaped.2.1 fun h => unescaped.2.2 h.1
      | short letter known =>
          exact scanAhead_escape.trans (if_pos (known_ne known))
      | unit => cases hunit

theorem scanAhead_low (hlow : item.isLow = true) :
    scanAhead true (item.bytes ++ rest) = some unpairedSurrogate := by
  obtain ⟨unit, hunit⟩ := exists_codeUnit hlow
  have hhigh : item.isHigh = false := by
    apply Bool.eq_false_iff.mpr
    intro hhigh
    rw [isLow_of_isHigh hhigh] at hlow
    cases hlow
  rw [scanAhead_unit hunit, if_neg (Bool.eq_false_iff.mp hhigh), if_pos hlow]

theorem scanAhead_high {next : StringItem} (hhigh : item.isHigh = true) :
    scanAhead true (item.bytes ++ (next.bytes ++ rest)) =
      if next.isLow = true then scanAhead true rest
      else some unpairedSurrogate := by
  obtain ⟨unit, hunit⟩ := exists_codeUnit hhigh
  rw [scanAhead_unit hunit, if_pos hhigh, unitAhead_item]
  cases hnext : next.codeUnit with
  | none =>
      rw [Option.map_none, StringItem.isLow, hnext, if_neg (by simp)]
  | some low =>
      rw [Option.map_some]
      by_cases hlow : next.isLow = true
      · have hdrop : (next.bytes ++ rest).drop 6 = rest := by
          cases next with
          | plain => cases hnext
          | short => cases hnext
          | unit => rfl
        rw [if_pos hlow, hdrop]
        exact if_pos ((lowUnit_iff hnext).mpr hlow)
      · rw [if_neg hlow]
        exact if_neg (mt (lowUnit_iff hnext).mp hlow)

/-- The rest of a token, and what is behind it. -/
theorem scanAhead_token (token : StringToken) (rest : Bytes) :
    scanAhead true (token.flatMap StringItem.bytes ++ 0x22 :: rest) =
      if pairs token = true then scanAhead false rest
      else some unpairedSurrogate := by
  induction token using pairs.induct with
  | case1 => exact scanAhead_quote true rest
  | case2 item =>
      rw [List.flatMap_singleton]
      cases hhigh : item.isHigh with
      | true =>
          obtain ⟨unit, hunit⟩ := exists_codeUnit hhigh
          rw [scanAhead_unit hunit, if_pos hhigh,
            unitAhead_of_ne (by decide), pairs, hhigh]
          rfl
      | false =>
          cases hlow : item.isLow with
          | true =>
              rw [scanAhead_low hlow, pairs, hhigh, hlow]
              rfl
          | false =>
              rw [scanAhead_item hhigh hlow, scanAhead_quote, pairs, hhigh, hlow]
              rfl
  | case3 item next token hhigh ih =>
      rw [List.flatMap_cons, List.flatMap_cons, List.append_assoc,
        List.append_assoc, scanAhead_high hhigh, ih, pairs, if_pos hhigh]
      cases next.isLow with
      | true => simp
      | false => simp
  | case4 item next token hhigh ih =>
      rw [List.flatMap_cons, List.append_assoc, pairs, if_neg hhigh]
      cases hlow : item.isLow with
      | true => simp [scanAhead_low hlow]
      | false =>
          rw [scanAhead_item (Bool.eq_false_iff.mpr hhigh) hlow, ih]
          simp

/-! Whole texts. -/

theorem if_and_both {left right : Bool} {found lost : Option Text} :
    (if left = true then (if right = true then found else lost) else lost) =
      if (left && right) = true then found else lost := by
  cases left with
  | true => simp
  | false => simp

theorem scanAhead_quoted (token : StringToken) (rest : Bytes) :
    scanAhead false (quoted token ++ rest) =
      if pairs token = true then scanAhead false rest
      else some unpairedSurrogate := by
  rw [quoted, List.cons_append, scanAhead_quote, List.append_assoc]
  exact scanAhead_token token rest

/-- Nothing is looked at between the tokens. -/
theorem scanAhead_outside {text : Bytes} (h : 0x22 ∉ text) (rest : Bytes) :
    scanAhead false (text ++ rest) = scanAhead false rest := by
  induction text with
  | nil => rfl
  | cons current text ih =>
      rw [List.mem_cons, not_or] at h
      rw [List.cons_append, scanAhead_cons (Ne.symm h.1) (by simp), ih h.2]

theorem blank_no_quote {text : Bytes} (h : Blank text) : 0x22 ∉ text := by
  intro hmem
  have hblank := h _ hmem
  revert hblank
  decide

theorem digits_no_quote {text : Bytes} (h : DigitRun text) : 0x22 ∉ text := by
  intro hmem
  have hdigit := h.2 _ hmem
  revert hdigit
  decide

theorem number_no_quote {text : Bytes} (h : NumberText text) : 0x22 ∉ text := by
  obtain ⟨sign, whole, fraction, exponent, rfl, hsign, hwhole, hfraction,
    hexponent⟩ := h.parts
  simp only [List.mem_append, not_or]
  refine ⟨⟨⟨?_, ?_⟩, ?_⟩, ?_⟩
  · rcases hsign with rfl | rfl <;> decide
  · rcases hwhole with rfl | ⟨hdigits, -⟩
    · decide
    · exact digits_no_quote hdigits
  · rcases hfraction with rfl | ⟨digits, hdigits, rfl⟩
    · decide
    · rw [List.mem_cons, not_or]
      exact ⟨by decide, digits_no_quote hdigits⟩
  · rcases hexponent with rfl | ⟨letter, sign, digits, hdigits, hletter, hsign, rfl⟩
    · decide
    · rw [List.mem_cons, List.mem_append, not_or, not_or]
      refine ⟨?_, ?_, digits_no_quote hdigits⟩
      · rcases hletter with rfl | rfl <;> decide
      · rcases hsign with rfl | rfl | rfl <;> decide

theorem word_no_quote : ∀ text ∈ jsonWords, 0x22 ∉ text := by decide

/-- Over a text of any sort the scan comes out of a string where it went in. -/
theorem scanAhead_syntax {sort : JsonSort} {text : Bytes}
    {tokens : List StringToken} (h : JsonSyntax sort text tokens) (rest : Bytes) :
    scanAhead false (text ++ rest) =
      if tokens.all pairs = true then scanAhead false rest
      else some unpairedSurrogate := by
  induction h generalizing rest with
  | word h => exact scanAhead_outside (word_no_quote _ h) rest
  | number h => exact scanAhead_outside (number_no_quote h) rest
  | string token => simpa using scanAhead_quoted token rest
  | emptyArray h =>
      apply scanAhead_outside
      simpa using blank_no_quote h
  | array h ih =>
      rw [List.cons_append, scanAhead_cons (by decide) (by decide),
        List.append_assoc, ih, List.singleton_append,
        scanAhead_cons (by decide) (by decide)]
  | emptyObject h =>
      apply scanAhead_outside
      simpa using blank_no_quote h
  | object h ih =>
      rw [List.cons_append, scanAhead_cons (by decide) (by decide),
        List.append_assoc, ih, List.singleton_append,
        scanAhead_cons (by decide) (by decide)]
  | spaced hbefore h hafter ih =>
      rw [List.append_assoc, scanAhead_outside (blank_no_quote hbefore),
        List.append_assoc, ih, scanAhead_outside (blank_no_quote hafter)]
  | lastItem h ih => exact ih rest
  | nextItem h hrest ih ihrest =>
      rw [List.append_assoc, ih, List.cons_append,
        scanAhead_cons (by decide) (by decide), ihrest, List.all_append,
        if_and_both]
  | member hbefore name hafter h ih =>
      rw [List.append_assoc, scanAhead_outside (blank_no_quote hbefore),
        List.append_assoc, scanAhead_quoted, List.append_assoc,
        scanAhead_outside (blank_no_quote hafter), List.cons_append,
        scanAhead_cons (by decide) (by decide), ih, List.all_cons, if_and_both]
  | lastMember h ih => exact ih rest
  | nextMember h hrest ih ihrest =>
      rw [List.append_assoc, ih, List.cons_append,
        scanAhead_cons (by decide) (by decide), ihrest, List.all_append,
        if_and_both]

end

/-! What a decoder makes of a token. -/

/-- A byte kept, a scalar value put in for an escape or a pair of them, or the
replacement character put in for half a pair. -/
inductive Piece where
  | byte (value : UInt8)
  | scalar (value : Nat)
  | replaced
  deriving DecidableEq

def controlByte (letter : UInt8) : UInt8 :=
  if letter = 0x62 then 0x08
  else if letter = 0x66 then 0x0c
  else if letter = 0x6e then 0x0a
  else if letter = 0x72 then 0x0d
  else if letter = 0x74 then 0x09
  else letter

/-- One item that is not the first of a pair. -/
def unquoteItem (item : StringItem) : Piece :=
  if item.isHigh = true ∨ item.isLow = true then .replaced
  else
    match item with
    | .plain byte _ => .byte byte
    | .short letter _ => .byte (controlByte letter)
    | .unit _ _ _ _ => .scalar (item.codeUnit.getD 0)

def decodeRune (high low : StringItem) : Nat :=
  (high.codeUnit.getD 0 - 0xd800) * 0x400 + (low.codeUnit.getD 0 - 0xdc00) +
    0x10000

def unquote : StringToken → List Piece
  | [] => []
  | [item] => [unquoteItem item]
  | item :: next :: rest =>
      if item.isHigh = true ∧ next.isLow = true then
        .scalar (decodeRune item next) :: unquote rest
      else unquoteItem item :: unquote (next :: rest)

theorem unquoteItem_eq_replaced {item : StringItem} :
    unquoteItem item = .replaced ↔ item.isHigh = true ∨ item.isLow = true := by
  unfold unquoteItem
  by_cases hhalf : item.isHigh = true ∨ item.isLow = true
  · rw [if_pos hhalf]
    exact iff_of_true rfl hhalf
  · rw [if_neg hhalf]
    cases item <;> exact iff_of_false Piece.noConfusion hhalf

theorem replaced_iff {token : StringToken} :
    Piece.replaced ∈ unquote token ↔ pairs token = false := by
  induction token using unquote.induct with
  | case1 => simp [unquote, pairs]
  | case2 item =>
      rw [unquote, List.mem_singleton, eq_comm, unquoteItem_eq_replaced, pairs]
      cases item.isHigh <;> simp
  | case3 item next rest hpair ih =>
      rw [unquote, if_pos hpair, List.mem_cons, ih, pairs, if_pos hpair.1,
        hpair.2]
      simp
  | case4 item next rest hpair ih =>
      rw [unquote, if_neg hpair, List.mem_cons, ih, eq_comm,
        unquoteItem_eq_replaced]
      cases hhigh : item.isHigh with
      | true =>
          have hlow : next.isLow = false := by simpa [hhigh] using hpair
          simp [pairs, hhigh, hlow]
      | false =>
          rw [pairs, if_neg (by simp [hhigh])]
          cases item.isLow <;> simp

/-- The scan ends within as many rounds as there are bytes, and never looks
outside them.  On one JSON text it finds nothing where the escapes of every
string are paired, and then a decoder puts nothing in for one of them. -/
theorem validateJSONStringSurrogates_exact (data : Bytes) :
    ∃ verdict : Option Text,
      (∀ rounds, data.length < rounds →
        validateJSONStringSurrogates rounds data = .ok verdict) ∧
      ∀ tokens, JsonText data tokens →
        (verdict = none ↔ ∀ token ∈ tokens, token.Paired) ∧
        (verdict = none → ∀ token ∈ tokens,
          Piece.replaced ∉ unquote token) := by
  refine ⟨scanAhead false data, ?_, ?_⟩
  · intro rounds hrounds
    exact scanFrom_eq false hrounds
  · intro tokens htext
    have hscan := scanAhead_syntax htext []
    rw [List.append_nil] at hscan
    have hnone : scanAhead false data = none ↔
        ∀ token ∈ tokens, pairs token = true := by
      rw [hscan, ← List.all_eq_true]
      by_cases hall : tokens.all pairs = true
      · rw [if_pos hall, scanAhead]
        exact iff_of_true rfl hall
      · rw [if_neg hall]
        exact iff_of_false (by simp) hall
    constructor
    · simp only [hnone, pairs_iff]
    · intro hverdict token htoken hreplaced
      have hpairs := hnone.mp hverdict token htoken
      rw [replaced_iff.mp hreplaced] at hpairs
      cases hpairs

/-! A list of one string, which is one pair. -/

namespace PairText

def token : StringToken :=
  [.unit ⟨0x64, by decide⟩ ⟨0x38, by decide⟩ ⟨0x33, by decide⟩ ⟨0x64, by decide⟩,
    .unit ⟨0x64, by decide⟩ ⟨0x65, by decide⟩ ⟨0x30, by decide⟩ ⟨0x30, by decide⟩]

def text : Bytes := 0x5b :: (quoted token ++ [0x5d])

theorem text_syntax : JsonText text [token] := by
  have hblank : Blank [] := by
    intro b hb
    cases hb
  have hitem := JsonSyntax.spaced hblank (.string token) hblank
  have htext := JsonSyntax.spaced hblank (.array (.lastItem hitem)) hblank
  simpa [text] using htext

end PairText

/-- The pair is taken for one, and seventeen rounds are enough. -/
theorem validateJSONStringSurrogates_exact_pair :
    validateJSONStringSurrogates 17 PairText.text = .ok none := by
  obtain ⟨verdict, hruns, hexact⟩ :=
    validateJSONStringSurrogates_exact PairText.text
  have hpaired : ∀ token ∈ [PairText.token], token.Paired := by
    intro token htoken
    rw [List.mem_singleton.mp htoken]
    exact pairs_iff.mp rfl
  rw [hruns 17 (by decide), ((hexact _ PairText.text_syntax).1.mpr hpaired)]

end TensorFS.Go
