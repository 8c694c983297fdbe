import TensorFS.Contract.Pattern
import TensorFS.Data.Framing
import TensorFS.Tfm1.RulesParity

namespace TensorFS

open Data

/-! Identifier texts: the hexadecimal of a digest, and the display form of a
stamp.  The standard library's integer parsers take spellings of their own. -/

def hexValue (b : UInt8) : Option Nat :=
  if 48 ≤ b ∧ b ≤ 57 then some (b.toNat - 48)
  else if 97 ≤ b ∧ b ≤ 102 then some (b.toNat - 87)
  else if 65 ≤ b ∧ b ≤ 70 then some (b.toNat - 55)
  else none

/-- The digits of a number that fits a byte. -/
def radixValue : Nat → Bytes → Option Nat
  | value, [] => some value
  | value, b :: rest => do
      let digit ← hexValue b
      if 16 * value + digit < 256 then radixValue (16 * value + digit) rest
      else none

/-- `u8::from_str_radix` in base sixteen: one plus sign may stand before the
digits. -/
def fromStrRadix (text : Bytes) : Option UInt8 :=
  let digits := if text.head? = some 43 then text.tail else text
  if digits = [] then none else (radixValue 0 digits).map UInt8.ofNat

def isUppercase (b : UInt8) : Bool := 65 ≤ b && b ≤ 90

def parsePair (high low : UInt8) : Option UInt8 :=
  if (Text.fromUtf8 [high, low]).isNone then none
  else if isUppercase high || isUppercase low then none
  else fromStrRadix [high, low]

/-- The bytes two by two; what is left over is not read. -/
def parsePairs : Bytes → Option Bytes
  | high :: low :: rest => do
      let byte ← parsePair high low
      let bytes ← parsePairs rest
      some (byte :: bytes)
  | _ => some []

def parseDigits (text : Text) : Option Digest :=
  if text.utf8Len ≠ 64 then none
  else do
    let bytes ← parsePairs text.utf8
    if h : bytes.length = 32 then some ⟨bytes, h⟩ else none

/-- Snapshot ids, the projected trees' digests and object file names are read
by the same loop. -/
def SnapshotId.parseHex (text : Text) : Option SnapshotId := parseDigits text

def parseHexDigest (text : Text) : Option ObjectDigest := parseDigits text

def parseDigestHex (name : Text) : Option ObjectDigest := parseDigits name

/-- The standard library's reading of a 32-bit version. -/
def parseU32 (text : Text) : Option UInt32 :=
  let digits := if text.head? = some '+' then text.tail else text
  if digits ≠ [] ∧ digits.all isAsciiDigit ∧ digitsValue digits < 2 ^ 32 then
    some (UInt32.ofNat (digitsValue digits))
  else none

def Stamp.parse (text : Text) : Except ContractError Stamp :=
  if text = "none".toList then .ok .none
  else
    match Pattern.stripPrefix "sha256:".toList text with
    | .some digits =>
        match parseDigits digits with
        | .some found => .ok (.digest found)
        | .none => .error (.digestStamp text)
    | .none =>
        match rsplitOnce '@' text with
        | .none => .error (.name text)
        | .some (name, version) =>
            match parseU32 version with
            | .none => .error .version
            | .some version => do
                let handle ← Handle.new name version
                .ok (.named handle)

def Stamp.display : Stamp → Text
  | .none => "none".toList
  | .named handle => handle.name ++ '@' :: decimal handle.version.toNat
  | .digest found => "sha256:".toList ++ Go.hexEncode found.bytes

/-! Pairs of digits. -/

/-- How a pair may spell a byte. -/
def SpellsByte (high low : Char) (b : UInt8) : Prop :=
  high = Nat.digitChar (b.toNat / 16) ∧ low = Nat.digitChar (b.toNat % 16) ∨
    high = '+' ∧ b.toNat < 16 ∧ low = Nat.digitChar b.toNat

inductive Spelled : Text → Bytes → Prop where
  | nil : Spelled [] []
  | cons {high low : Char} {b : UInt8} {text : Text} {bytes : Bytes} :
      SpellsByte high low b → Spelled text bytes →
        Spelled (high :: low :: text) (b :: bytes)

theorem hexValue_eq_some {b : UInt8} {d : Nat} (hupper : isUppercase b = false)
    (h : hexValue b = some d) :
    d < 16 ∧ b = asciiByte (Nat.digitChar d) := by
  have htable : ∀ n < 256, isUppercase (UInt8.ofNat n) = false →
      ∀ d ∈ hexValue (UInt8.ofNat n),
        d < 16 ∧ UInt8.ofNat n = asciiByte (Nat.digitChar d) := by
    decide +kernel
  have hb := htable b.toNat b.toNat_lt
  rw [UInt8.ofNat_toNat] at hb
  exact hb hupper d h

theorem hexValue_digit : ∀ d < 16,
    hexValue (asciiByte (Nat.digitChar d)) = some d ∧
      isUppercase (asciiByte (Nat.digitChar d)) = false ∧
      asciiByte (Nat.digitChar d) ≠ 43 ∧ (Nat.digitChar d).toNat < 128 := by
  decide

theorem SpellsByte.ascii {high low : Char} {b : UInt8}
    (h : SpellsByte high low b) : high.toNat < 128 ∧ low.toNat < 128 := by
  have hb := b.toNat_lt
  rcases h with ⟨rfl, rfl⟩ | ⟨rfl, hlt, rfl⟩
  · exact ⟨(hexValue_digit _ (by omega)).2.2.2,
      (hexValue_digit _ (by omega)).2.2.2⟩
  · exact ⟨by decide, (hexValue_digit _ hlt).2.2.2⟩

theorem fromUtf8_pair {high low : Char} (h : high.toNat < 128 ∧ low.toNat < 128) :
    (Text.fromUtf8 [asciiByte high, asciiByte low]).isNone = false := by
  have hascii : IsAscii [high, low] := by
    intro c hmem
    rcases List.mem_pair.mp hmem with rfl | rfl
    · exact h.1
    · exact h.2
  have hread := Text.fromUtf8_utf8 [high, low]
  rw [hascii.utf8] at hread
  simp only [List.map_cons, List.map_nil] at hread
  rw [hread]
  rfl

theorem parsePair_of_spells {high low : Char} {b : UInt8}
    (h : SpellsByte high low b) :
    parsePair (asciiByte high) (asciiByte low) = some b := by
  have hb := b.toNat_lt
  have hread := fromUtf8_pair h.ascii
  unfold parsePair
  rw [hread]
  rcases h with ⟨rfl, rfl⟩ | ⟨rfl, hlt, rfl⟩
  · obtain ⟨hhigh, hupper, hplus, -⟩ :=
      hexValue_digit (b.toNat / 16) (by omega)
    obtain ⟨hlow, hlower, -, -⟩ := hexValue_digit (b.toNat % 16) (by omega)
    have hvalue : 16 * (b.toNat / 16) + b.toNat % 16 = b.toNat := by omega
    have hhalf : b.toNat / 16 < 256 := by omega
    simp [hupper, hlower, fromStrRadix, hplus, radixValue, hhigh, hlow,
      hvalue, hhalf, hb]
  · obtain ⟨hlow, hlower, -, -⟩ := hexValue_digit b.toNat hlt
    have hplus : asciiByte '+' = 43 := by decide
    have hupper : isUppercase 43 = false := by decide
    simp [hplus, hupper, hlower, fromStrRadix, radixValue, hlow, hb]

theorem parsePair_spells {high low : UInt8} {b : UInt8}
    (h : parsePair high low = some b) :
    ∃ first second, high = asciiByte first ∧ low = asciiByte second ∧
      SpellsByte first second b := by
  unfold parsePair at h
  split at h
  · cases h
  split at h
  · cases h
  · rename_i hupper
    simp only [Bool.or_eq_true, not_or, Bool.not_eq_true] at hupper
    unfold fromStrRadix at h
    by_cases hplus : high = 43
    · subst hplus
      simp only [List.head?_cons, List.tail_cons, if_true, List.cons_ne_nil,
        if_false, Option.map_eq_some_iff, radixValue, Option.bind_eq_bind,
        Option.bind_eq_some_iff] at h
      obtain ⟨value, ⟨digit, hdigit, hvalue⟩, rfl⟩ := h
      obtain ⟨hlt, hlow⟩ := hexValue_eq_some hupper.2 hdigit
      rw [Nat.mul_zero, Nat.zero_add, if_pos (by omega)] at hvalue
      have hsame : digit = value := Option.some.inj hvalue
      subst hsame
      have hnat : (UInt8.ofNat digit).toNat = digit := by
        rw [UInt8.toNat_ofNat', Nat.mod_eq_of_lt (by omega)]
      refine ⟨'+', Nat.digitChar digit, by decide, hlow, .inr ?_⟩
      rw [hnat]
      exact ⟨rfl, hlt, rfl⟩
    · simp only [List.head?_cons, Option.some.injEq, hplus, if_false,
        List.cons_ne_nil, Option.map_eq_some_iff, radixValue,
        Option.bind_eq_bind, Option.bind_eq_some_iff] at h
      obtain ⟨value, ⟨first, hfirst, hrest⟩, rfl⟩ := h
      obtain ⟨hhigh, hhighByte⟩ := hexValue_eq_some hupper.1 hfirst
      rw [Nat.mul_zero, Nat.zero_add, if_pos (by omega)] at hrest
      obtain ⟨second, hsecond, hvalue⟩ := Option.bind_eq_some_iff.mp hrest
      obtain ⟨hlow, hlowByte⟩ := hexValue_eq_some hupper.2 hsecond
      rw [if_pos (by omega)] at hvalue
      cases hvalue
      have hnat : (UInt8.ofNat (16 * first + second)).toNat =
          16 * first + second := by
        rw [UInt8.toNat_ofNat', Nat.mod_eq_of_lt (by omega)]
      refine ⟨Nat.digitChar first, Nat.digitChar second, hhighByte, hlowByte,
        .inl ?_⟩
      rw [hnat, show (16 * first + second) / 16 = first by omega,
        show (16 * first + second) % 16 = second by omega]
      exact ⟨rfl, rfl⟩

/-! Whole texts. -/

theorem Spelled.ascii {text : Text} {bytes : Bytes} (h : Spelled text bytes) :
    IsAscii text := by
  induction h with
  | nil => exact fun c hmem => absurd hmem List.not_mem_nil
  | cons hpair _ ih =>
      intro c hmem
      rcases List.mem_cons.mp hmem with rfl | hmem
      · exact hpair.ascii.1
      · rcases List.mem_cons.mp hmem with rfl | hmem
        · exact hpair.ascii.2
        · exact ih c hmem

theorem Spelled.length {text : Text} {bytes : Bytes} (h : Spelled text bytes) :
    text.length = 2 * bytes.length := by
  induction h with
  | nil => rfl
  | cons _ _ ih =>
      simp only [List.length_cons, ih]
      omega

theorem parsePairs_of_spelled {text : Text} {bytes : Bytes}
    (h : Spelled text bytes) : parsePairs text.utf8 = some bytes := by
  have hpairs : ∀ {text : Text} {bytes : Bytes}, Spelled text bytes →
      parsePairs (text.map asciiByte) = some bytes := by
    intro text bytes h
    induction h with
    | nil => rfl
    | cons hpair _ ih =>
        simp only [List.map_cons, parsePairs, parsePair_of_spells hpair, ih]
        rfl
  rw [h.ascii.utf8]
  exact hpairs h

theorem parsePairs_spelled {source bytes : Bytes} {n : Nat}
    (hlength : source.length = 2 * n) (h : parsePairs source = some bytes) :
    ∃ text, source = text.map asciiByte ∧ Spelled text bytes := by
  induction n generalizing source bytes with
  | zero =>
      have hnil := List.eq_nil_of_length_eq_zero hlength
      subst hnil
      cases h
      exact ⟨[], rfl, .nil⟩
  | succ n ih =>
      match source, hlength with
      | high :: low :: rest, hlength =>
          simp only [parsePairs, Option.bind_eq_bind, Option.bind_eq_some_iff,
            Option.some.injEq] at h
          obtain ⟨byte, hbyte, tail, htail, rfl⟩ := h
          obtain ⟨first, second, rfl, rfl, hspells⟩ := parsePair_spells hbyte
          simp only [List.length_cons] at hlength
          obtain ⟨text, rfl, hspelled⟩ := ih (by omega) htail
          exact ⟨first :: second :: text, rfl, .cons hspells hspelled⟩

theorem parseDigits_eq_some {text : Text} {digest : Digest} :
    parseDigits text = some digest ↔ Spelled text digest.bytes := by
  unfold parseDigits
  constructor
  · intro h
    split at h
    · cases h
    · rename_i hlength
      simp only [ne_eq, not_not] at hlength
      simp only [Option.bind_eq_bind, Option.bind_eq_some_iff] at h
      obtain ⟨bytes, hbytes, hsize⟩ := h
      split at hsize
      · cases hsize
        obtain ⟨spelled, hutf8, hspelled⟩ :=
          parsePairs_spelled (n := 32) hlength hbytes
        rw [← hspelled.ascii.utf8] at hutf8
        rw [Text.utf8_injective hutf8]
        exact hspelled
      · cases hsize
  · intro h
    have hlength : text.utf8Len = 64 := by
      rw [Text.utf8Len, h.ascii.utf8, List.length_map, h.length, digest.size]
    rw [if_neg (by simp [hlength])]
    simp only [parsePairs_of_spelled h, Option.bind_eq_bind, Option.bind_some]
    exact dif_pos digest.size

/-! The spelling a value is rendered in, and the others. -/

/-- The text is taken for a value exactly when the value renders it. -/
def Exact {α : Type} (parse : Text → Option α) (render : α → Text)
    (text : Text) : Prop :=
  ∀ value, parse text = some value ↔ text = render value

def isLowerHex (c : Char) : Bool := c.isDigit || ('a' ≤ c && c ≤ 'f')

/-- Pairs of lowercase digits, where a plus sign may stand for the first. -/
def hexPairs : Text → Bool
  | [] => true
  | [_] => false
  | high :: low :: rest =>
      (isLowerHex high || high = '+') && isLowerHex low && hexPairs rest

/-- Sixty-four characters with a sign among their digits. -/
def SignedHex (text : Text) : Prop :=
  text.length = 64 ∧ hexPairs text = true ∧ '+' ∈ text

theorem isLowerHex_iff {c : Char} :
    isLowerHex c = true ↔ ∃ d < 16, c = Nat.digitChar d := by
  constructor
  · intro h
    have hsmall : c.toNat < 128 := by
      simp only [isLowerHex, Bool.or_eq_true, Bool.and_eq_true,
        decide_eq_true_eq] at h
      rcases h with hdigit | ⟨_, hle⟩
      · simp only [Char.isDigit, Bool.and_eq_true, decide_eq_true_eq] at hdigit
        exact lt_of_le_of_lt (UInt32.le_iff_toNat_le.mp hdigit.2) (by decide)
      · exact lt_of_le_of_lt (UInt32.le_iff_toNat_le.mp hle) (by decide)
    have htable : ∀ n < 128, isLowerHex (Char.ofNat n) = true →
        ∃ d < 16, Char.ofNat n = Nat.digitChar d := by
      decide
    have hc := htable c.toNat hsmall
    rw [Char.ofNat_toNat] at hc
    exact hc h
  · intro h
    obtain ⟨d, hd, hc⟩ := h
    have htable : ∀ d < 16, isLowerHex (Nat.digitChar d) = true := by decide
    rw [hc]
    exact htable d hd

theorem hexPairs_iff {text : Text} :
    hexPairs text = true ↔ ∃ bytes, Spelled text bytes := by
  constructor
  · intro h
    induction text using hexPairs.induct with
    | case1 => exact ⟨[], .nil⟩
    | case2 => cases h
    | case3 high low rest ih =>
        simp only [hexPairs, Bool.and_eq_true, Bool.or_eq_true,
          decide_eq_true_eq] at h
        obtain ⟨⟨hhigh, hlow⟩, hrest⟩ := h
        obtain ⟨bytes, hspelled⟩ := ih hrest
        obtain ⟨e, he, rfl⟩ := isLowerHex_iff.mp hlow
        rcases hhigh with hhigh | rfl
        · obtain ⟨d, hd, rfl⟩ := isLowerHex_iff.mp hhigh
          have hnat : (UInt8.ofNat (16 * d + e)).toNat = 16 * d + e := by
            rw [UInt8.toNat_ofNat', Nat.mod_eq_of_lt (by omega)]
          refine ⟨UInt8.ofNat (16 * d + e) :: bytes, .cons (.inl ?_) hspelled⟩
          rw [hnat, show (16 * d + e) / 16 = d by omega,
            show (16 * d + e) % 16 = e by omega]
          exact ⟨rfl, rfl⟩
        · have hnat : (UInt8.ofNat e).toNat = e := by
            rw [UInt8.toNat_ofNat', Nat.mod_eq_of_lt (by omega)]
          refine ⟨UInt8.ofNat e :: bytes, .cons (.inr ?_) hspelled⟩
          rw [hnat]
          exact ⟨rfl, he, rfl⟩
  · intro h
    obtain ⟨bytes, h⟩ := h
    induction h with
    | nil => rfl
    | @cons high low b rest bytes hpair _ ih =>
        have hb := b.toNat_lt
        have hdigit : ∀ d < 16, isLowerHex (Nat.digitChar d) = true :=
          fun d hd => isLowerHex_iff.mpr ⟨d, hd, rfl⟩
        simp only [hexPairs, ih, Bool.and_true, Bool.and_eq_true,
          Bool.or_eq_true, decide_eq_true_eq]
        rcases hpair with ⟨rfl, rfl⟩ | ⟨rfl, hlt, rfl⟩
        · exact ⟨.inl (hdigit _ (by omega)), hdigit _ (by omega)⟩
        · exact ⟨.inr rfl, hdigit _ hlt⟩

theorem digitChar_ne_plus : ∀ d < 16, Nat.digitChar d ≠ '+' := by decide

theorem spelled_hexEncode (bytes : Bytes) :
    Spelled (Go.hexEncode bytes) bytes ∧ '+' ∉ Go.hexEncode bytes := by
  induction bytes with
  | nil => exact ⟨.nil, List.not_mem_nil⟩
  | cons b bytes ih =>
      have hb := b.toNat_lt
      refine ⟨.cons (.inl ⟨rfl, rfl⟩) ih.1, ?_⟩
      simp only [Go.hexEncode, List.flatMap_cons, List.mem_append,
        List.mem_cons, List.not_mem_nil, or_false, not_or]
      exact ⟨⟨(digitChar_ne_plus _ (by omega)).symm,
        (digitChar_ne_plus _ (by omega)).symm⟩, ih.2⟩

/-- Without a sign there is one spelling. -/
theorem Spelled.eq_hexEncode {text : Text} {bytes : Bytes}
    (h : Spelled text bytes) (hplus : '+' ∉ text) :
    text = Go.hexEncode bytes := by
  induction h with
  | nil => rfl
  | cons hpair _ ih =>
      simp only [List.mem_cons, not_or] at hplus
      rcases hpair with ⟨rfl, rfl⟩ | ⟨rfl, -, -⟩
      · rw [ih hplus.2.2]
        rfl
      · exact absurd rfl hplus.1

theorem parseDigits_exact_iff (text : Text) :
    Exact parseDigits (fun digest => Go.hexEncode digest.bytes) text ↔
      ¬ SignedHex text := by
  constructor
  · intro h h
    obtain ⟨hlength, hpairs, hplus⟩ := h
    obtain ⟨bytes, hspelled⟩ := hexPairs_iff.mp hpairs
    have hsize : bytes.length = 32 := by
      have hboth := hspelled.length
      omega
    have heq : text = Go.hexEncode bytes :=
      (h ⟨bytes, hsize⟩).mp (parseDigits_eq_some.mpr hspelled)
    rw [heq] at hplus
    exact (spelled_hexEncode bytes).2 hplus
  · intro h digest
    rw [parseDigits_eq_some]
    constructor
    · intro hspelled
      apply hspelled.eq_hexEncode
      intro hplus
      refine h ⟨?_, hexPairs_iff.mpr ⟨_, hspelled⟩, hplus⟩
      rw [hspelled.length, digest.size]
    · intro heq
      rw [heq]
      exact (spelled_hexEncode digest.bytes).1

/-! Stamps. -/

/-- The version of a stamp: decimal digits, after one plus sign at most. -/
def SpellsVersion (text : Text) (version : UInt32) : Prop :=
  ∃ digits, (text = digits ∨ text = '+' :: digits) ∧ digits ≠ [] ∧
    (∀ c ∈ digits, c.isDigit = true) ∧ digitsValue digits = version.toNat

inductive Stamp.Spells : Text → Stamp → Prop where
  | none : Spells "none".toList .none
  | digest {digits : Text} {found : Digest} :
      Spelled digits found.bytes →
        Spells ("sha256:".toList ++ digits) (.digest found)
  | named {version : Text} {handle : Handle} :
      SpellsVersion version handle.version →
        Spells (handle.name ++ '@' :: version) (.named handle)

theorem parseU32_eq_some {text : Text} {version : UInt32} :
    parseU32 text = some version ↔ SpellsVersion text version := by
  unfold parseU32
  constructor
  · intro h
    have hread : ∃ digits, (if text.head? = some '+' then text.tail else text) =
        digits ∧ (text = digits ∨ text = '+' :: digits) := by
      by_cases hhead : text.head? = some '+'
      · rw [if_pos hhead]
        exact ⟨_, rfl, .inr (List.cons_head?_tail hhead).symm⟩
      · rw [if_neg hhead]
        exact ⟨_, rfl, .inl rfl⟩
    obtain ⟨digits, hdigits, htext⟩ := hread
    simp only [hdigits] at h
    split at h
    · rename_i hcond
      obtain ⟨hne, hall, hlt⟩ := hcond
      cases h
      refine ⟨digits, htext, hne, List.all_eq_true.mp hall, ?_⟩
      rw [UInt32.toNat_ofNat', Nat.mod_eq_of_lt hlt]
    · cases h
  · intro h
    obtain ⟨digits, htext, hne, hdigits, hvalue⟩ := h
    have hread : (if text.head? = some '+' then text.tail else text) = digits := by
      rcases htext with rfl | rfl
      · rw [if_neg]
        intro hhead
        have hplus := hdigits '+' (List.mem_of_head? hhead)
        cases hplus
      · rfl
    have hlt := version.toNat_lt
    simp only [hread]
    rw [if_pos ⟨hne, List.all_eq_true.mpr hdigits, by rw [hvalue]; exact hlt⟩,
      hvalue, UInt32.ofNat_toNat]

theorem SpellsVersion.not_mem {text : Text} {version : UInt32}
    (h : SpellsVersion text version) : '@' ∉ text := by
  obtain ⟨digits, htext, -, hdigits, -⟩ := h
  have hnot : '@' ∉ digits := by
    intro hmem
    have hdigit := hdigits '@' hmem
    cases hdigit
  rcases htext with rfl | rfl
  · exact hnot
  · simp [hnot]

theorem spellsVersion_decimal (version : UInt32) :
    SpellsVersion (decimal version.toNat) version :=
  ⟨_, .inl rfl, decimal_ne_nil, fun _ => isDigit_of_mem_decimal,
    digitsValue_decimal _⟩

/-- A named stamp is taken for neither of the other two. -/
theorem named_ne {handle : Handle} {version : Text} :
    handle.name ++ '@' :: version ≠ "none".toList ∧
      Pattern.stripPrefix "sha256:".toList (handle.name ++ '@' :: version) =
        none := by
  constructor
  · intro heq
    have hmem : '@' ∈ handle.name ++ '@' :: version := by simp
    rw [heq] at hmem
    revert hmem
    decide
  · apply Option.eq_none_iff_forall_ne_some.mpr
    intro rest hrest
    have heq := Pattern.stripPrefix_eq_some.mp hrest
    have hcolon : ':' ∉ handle.name :=
      isContractName_not_mem handle.name_ok (by decide)
    rcases List.append_eq_append_iff.mp heq with ⟨mid, hsha, hmid⟩ | ⟨mid, hname, -⟩
    · cases mid with
      | nil =>
          rw [List.append_nil] at hsha
          exact hcolon (hsha ▸ by decide)
      | cons c mid =>
          obtain rfl : '@' = c := (List.cons.inj hmid).1
          have hat : '@' ∈ "sha256:".toList := by
            rw [hsha]
            simp
          revert hat
          decide
    · apply hcolon
      rw [hname]
      exact List.mem_append_left _ (by decide)

theorem Handle.new_eq_ok {name : Text} {version : UInt32} {handle : Handle} :
    Handle.new name version = .ok handle ↔
      name = handle.name ∧ version = handle.version := by
  unfold Handle.new
  constructor
  · intro h
    split at h
    · split at h
      · cases h
      · cases h
        exact ⟨rfl, rfl⟩
    · cases h
  · intro h
    obtain ⟨hname, hversion⟩ := h
    subst hname hversion
    rw [dif_pos handle.name_ok, dif_neg handle.version_ne_zero]

theorem Stamp.parse_eq_ok {text : Text} {stamp : Stamp} :
    Stamp.parse text = .ok stamp ↔ Stamp.Spells text stamp := by
  constructor
  · intro h
    unfold Stamp.parse at h
    split at h
    · rename_i htext
      cases h
      rw [htext]
      exact .none
    split at h
    · rename_i digits hstrip
      split at h
      · rename_i found hfound
        cases h
        rw [Pattern.stripPrefix_eq_some.mp hstrip]
        exact .digest (parseDigits_eq_some.mp hfound)
      · cases h
    · split at h
      · cases h
      · rename_i name version hsplit
        split at h
        · cases h
        · rename_i number hnumber
          obtain ⟨handle, hhandle, hstamp⟩ := except_bind_eq_ok.mp h
          cases hstamp
          obtain ⟨rfl, rfl⟩ := Handle.new_eq_ok.mp hhandle
          rw [(rsplitOnce_sound hsplit).1]
          exact .named (parseU32_eq_some.mp hnumber)
  · intro h
    cases h with
    | none => rfl
    | @digest digits found hspelled =>
        have hne : "sha256:".toList ++ digits ≠ "none".toList := by
          intro heq
          exact absurd (List.cons.inj heq).1 (by decide)
        have hstrip : Pattern.stripPrefix "sha256:".toList
            ("sha256:".toList ++ digits) = some digits :=
          Pattern.stripPrefix_eq_some.mpr rfl
        unfold Stamp.parse
        rw [if_neg hne, hstrip]
        simp only [parseDigits_eq_some.mpr hspelled]
    | @named version handle hspells =>
        have hhandle : Handle.new handle.name handle.version = .ok handle :=
          Handle.new_eq_ok.mpr ⟨rfl, rfl⟩
        unfold Stamp.parse
        rw [if_neg named_ne.1, named_ne.2]
        simp only [rsplitOnce_append hspells.not_mem,
          parseU32_eq_some.mpr hspells, hhandle]
        rfl

theorem Stamp.spells_display (stamp : Stamp) :
    Stamp.Spells stamp.display stamp := by
  cases stamp with
  | none => exact .none
  | named handle => exact .named (spellsVersion_decimal handle.version)
  | digest found => exact .digest (spelled_hexEncode found.bytes).1

/-- A version that a sign or a zero leads. -/
def PaddedVersion (text : Text) : Prop :=
  ∃ version : UInt32, version ≠ 0 ∧ SpellsVersion text version ∧
    (text.head? = some '+' ∨ text.head? = some '0')

def PaddedStamp (text : Text) : Prop :=
  (∃ digits, text = "sha256:".toList ++ digits ∧ SignedHex digits) ∨
    ∃ name version, text = name ++ '@' :: version ∧
      isContractName name = true ∧ PaddedVersion version

/-- A version that nothing leads has one spelling. -/
theorem SpellsVersion.eq_decimal {text : Text} {version : UInt32}
    (hzero : version ≠ 0) (h : SpellsVersion text version)
    (hplain : ¬ PaddedVersion text) : text = decimal version.toNat := by
  have hhead : text.head? ≠ some '+' ∧ text.head? ≠ some '0' := by
    constructor
    · intro hplus
      exact hplain ⟨version, hzero, h, .inl hplus⟩
    · intro hled
      exact hplain ⟨version, hzero, h, .inr hled⟩
  obtain ⟨digits, htext, hne, hdigits, hvalue⟩ := h
  rcases htext with rfl | rfl
  · rw [← hvalue, decimal_digitsValue hne hdigits hhead.2]
  · exact absurd rfl hhead.1

theorem Stamp.exact_iff (text : Text) :
    Exact (fun text => (Stamp.parse text).toOption) Stamp.display text ↔
      ¬ PaddedStamp text := by
  have hparse : ∀ stamp, (Stamp.parse text).toOption = some stamp ↔
      Stamp.Spells text stamp := by
    intro stamp
    rw [← Stamp.parse_eq_ok]
    cases Stamp.parse text with
    | error e => simp [Except.toOption]
    | ok found => simp [Except.toOption]
  constructor
  · intro h hpadded
    rcases hpadded with ⟨digits, rfl, hlength, hpairs, hplus⟩ |
      ⟨name, version, rfl, hname, number, hzero, hspells, hled⟩
    · obtain ⟨bytes, hspelled⟩ := hexPairs_iff.mp hpairs
      have hsize : bytes.length = 32 := by
        have hboth := hspelled.length
        omega
      have hsame := (h (.digest ⟨bytes, hsize⟩)).mp
        ((hparse _).mpr (.digest hspelled))
      have heq : digits = Go.hexEncode bytes := List.append_cancel_left hsame
      rw [heq] at hplus
      exact (spelled_hexEncode bytes).2 hplus
    · have hnamed : Stamp.Spells (name ++ '@' :: version)
          (.named ⟨name, number, hname, hzero⟩) :=
        @Stamp.Spells.named version ⟨name, number, hname, hzero⟩ hspells
      have hsame := (h _).mp ((hparse _).mpr hnamed)
      have heq : version = decimal number.toNat :=
        (List.cons.inj (List.append_cancel_left hsame)).2
      rw [heq] at hled
      rcases hled with hplus | hled
      · exact head?_decimal_ne (by decide) hplus
      · apply head?_decimal_ne_zero _ hled
        intro hnat
        exact hzero (UInt32.toNat_inj.mp hnat)
  · intro h stamp
    rw [hparse]
    constructor
    · intro hspells
      cases hspells with
      | none => rfl
      | @digest digits found hspelled =>
          have heq : digits = Go.hexEncode found.bytes := by
            apply hspelled.eq_hexEncode
            intro hplus
            refine h (.inl ⟨digits, rfl, ?_, hexPairs_iff.mpr ⟨_, hspelled⟩, hplus⟩)
            rw [hspelled.length, found.size]
          rw [heq]
          rfl
      | @named version handle hversion =>
          rw [hversion.eq_decimal handle.version_ne_zero]
          · rfl
          · intro hpadded
            exact h (.inr ⟨_, _, rfl, handle.name_ok, hpadded⟩)
    · intro heq
      rw [heq]
      exact stamp.spells_display

theorem identifiers_exact_iff (text : Text) :
    (Exact SnapshotId.parseHex (fun id => Go.hexEncode id.bytes) text ↔
      ¬ SignedHex text) ∧
    (Exact parseHexDigest (fun digest => Go.hexEncode digest.bytes) text ↔
      ¬ SignedHex text) ∧
    (Exact parseDigestHex (fun digest => Go.hexEncode digest.bytes) text ↔
      ¬ SignedHex text) ∧
    (Exact (fun text => (Stamp.parse text).toOption) Stamp.display text ↔
      ¬ PaddedStamp text) :=
  ⟨parseDigits_exact_iff text, parseDigits_exact_iff text,
    parseDigits_exact_iff text, Stamp.exact_iff text⟩

/-- A sign is read as a zero digit, and a version may carry one. -/
theorem identifiers_padded :
    (∃ id, SnapshotId.parseHex ('+' :: 'f' :: List.replicate 62 '0') = some id ∧
      '+' :: 'f' :: List.replicate 62 '0' ≠ Go.hexEncode id.bytes) ∧
    (∃ digest, parseHexDigest ('+' :: 'f' :: List.replicate 62 '0') =
        some digest ∧
      '+' :: 'f' :: List.replicate 62 '0' ≠ Go.hexEncode digest.bytes) ∧
    (∃ digest, parseDigestHex ('+' :: 'f' :: List.replicate 62 '0') =
        some digest ∧
      '+' :: 'f' :: List.replicate 62 '0' ≠ Go.hexEncode digest.bytes) ∧
    ∃ stamp, (Stamp.parse "a.b@+1".toList).toOption = some stamp ∧
      "a.b@+1".toList ≠ stamp.display := by
  have hdigits : parseDigits ('+' :: 'f' :: List.replicate 62 '0') =
      some ⟨15 :: List.replicate 31 0, by decide⟩ := by
    decide +kernel
  have hother : '+' :: 'f' :: List.replicate 62 '0' ≠
      Go.hexEncode (15 :: List.replicate 31 0) := by
    decide +kernel
  refine ⟨⟨_, hdigits, hother⟩, ⟨_, hdigits, hother⟩, ⟨_, hdigits, hother⟩,
    .named ⟨"a.b".toList, 1, by decide, by decide⟩, ?_, ?_⟩
  · decide +kernel
  · decide +kernel

end TensorFS
