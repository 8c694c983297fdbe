import TensorFS.Data.ByteReader

namespace TensorFS.Data

/-! The grammar of JSON texts over their bytes, with the string tokens that
stand in them.  Whether the bytes above ASCII are UTF-8 is left open. -/

structure HexDigit where
  byte : UInt8
  digit : (0x30 ≤ byte ∧ byte ≤ 0x39) ∨ (0x61 ≤ byte ∧ byte ≤ 0x66) ∨
    (0x41 ≤ byte ∧ byte ≤ 0x46)
  deriving DecidableEq

def HexDigit.value (digit : HexDigit) : Nat :=
  if digit.byte ≤ 0x39 then digit.byte.toNat - 0x30
  else if digit.byte ≤ 0x46 then digit.byte.toNat - 0x37
  else digit.byte.toNat - 0x57

/-- What may stand behind a backslash, but for `u`. -/
def shortEscapes : Bytes := [0x22, 0x5c, 0x2f, 0x62, 0x66, 0x6e, 0x72, 0x74]

inductive StringItem where
  | plain (byte : UInt8)
      (unescaped : 0x20 ≤ byte ∧ byte ≠ 0x22 ∧ byte ≠ 0x5c)
  | short (letter : UInt8) (known : letter ∈ shortEscapes)
  | unit (first second third fourth : HexDigit)
  deriving DecidableEq

abbrev StringToken := List StringItem

namespace StringItem

def bytes : StringItem → Bytes
  | plain byte _ => [byte]
  | short letter _ => [0x5c, letter]
  | unit first second third fourth =>
      [0x5c, 0x75, first.byte, second.byte, third.byte, fourth.byte]

def codeUnit : StringItem → Option Nat
  | unit first second third fourth =>
      some (((first.value * 16 + second.value) * 16 + third.value) * 16 +
        fourth.value)
  | _ => none

/-- An escape that spells the first half of a surrogate pair. -/
def isHigh (item : StringItem) : Bool :=
  item.codeUnit.any fun unit => 0xd800 ≤ unit ∧ unit ≤ 0xdbff

/-- An escape that spells the second half of one. -/
def isLow (item : StringItem) : Bool :=
  item.codeUnit.any fun unit => 0xdc00 ≤ unit ∧ unit ≤ 0xdfff

end StringItem

def quoted (token : StringToken) : Bytes :=
  0x22 :: (token.flatMap StringItem.bytes ++ [0x22])

def Blank (bytes : Bytes) : Prop :=
  ∀ b ∈ bytes, b = 0x20 ∨ b = 0x09 ∨ b = 0x0a ∨ b = 0x0d

def DigitRun (bytes : Bytes) : Prop :=
  bytes ≠ [] ∧ ∀ b ∈ bytes, 0x30 ≤ b ∧ b ≤ 0x39

/-- `-`, an integer without leading zeros, a fraction and an exponent. -/
structure NumberText (bytes : Bytes) : Prop where
  parts : ∃ sign whole fraction exponent,
    bytes = sign ++ whole ++ fraction ++ exponent ∧
    (sign = [] ∨ sign = [0x2d]) ∧
    (whole = [0x30] ∨ (DigitRun whole ∧ whole.head? ≠ some 0x30)) ∧
    (fraction = [] ∨ ∃ digits, DigitRun digits ∧ fraction = 0x2e :: digits) ∧
    (exponent = [] ∨ ∃ letter sign digits, DigitRun digits ∧
      (letter = 0x65 ∨ letter = 0x45) ∧
      (sign = [] ∨ sign = [0x2b] ∨ sign = [0x2d]) ∧
      exponent = letter :: (sign ++ digits))

/-- `true`, `false` and `null`. -/
def jsonWords : List Bytes :=
  [[0x74, 0x72, 0x75, 0x65], [0x66, 0x61, 0x6c, 0x73, 0x65],
    [0x6e, 0x75, 0x6c, 0x6c]]

/-- A value, a value between blanks, what stands in an array, a member of an
object, and what stands in an object. -/
inductive JsonSort where
  | value
  | item
  | items
  | member
  | members

/-- The texts of each sort, with their string tokens in order. -/
inductive JsonSyntax : JsonSort → Bytes → List StringToken → Prop where
  | word {text : Bytes} (h : text ∈ jsonWords) : JsonSyntax .value text []
  | number {text : Bytes} (h : NumberText text) : JsonSyntax .value text []
  | string (token : StringToken) : JsonSyntax .value (quoted token) [token]
  | emptyArray {blank : Bytes} (h : Blank blank) :
      JsonSyntax .value (0x5b :: (blank ++ [0x5d])) []
  | array {text : Bytes} {tokens : List StringToken}
      (h : JsonSyntax .items text tokens) :
      JsonSyntax .value (0x5b :: (text ++ [0x5d])) tokens
  | emptyObject {blank : Bytes} (h : Blank blank) :
      JsonSyntax .value (0x7b :: (blank ++ [0x7d])) []
  | object {text : Bytes} {tokens : List StringToken}
      (h : JsonSyntax .members text tokens) :
      JsonSyntax .value (0x7b :: (text ++ [0x7d])) tokens
  | spaced {before text after : Bytes} {tokens : List StringToken}
      (hbefore : Blank before) (h : JsonSyntax .value text tokens)
      (hafter : Blank after) :
      JsonSyntax .item (before ++ (text ++ after)) tokens
  | lastItem {text : Bytes} {tokens : List StringToken}
      (h : JsonSyntax .item text tokens) : JsonSyntax .items text tokens
  | nextItem {text rest : Bytes} {tokens more : List StringToken}
      (h : JsonSyntax .item text tokens)
      (hrest : JsonSyntax .items rest more) :
      JsonSyntax .items (text ++ 0x2c :: rest) (tokens ++ more)
  | member {before after text : Bytes} {tokens : List StringToken}
      (hbefore : Blank before) (name : StringToken) (hafter : Blank after)
      (h : JsonSyntax .item text tokens) :
      JsonSyntax .member (before ++ (quoted name ++ (after ++ 0x3a :: text)))
        (name :: tokens)
  | lastMember {text : Bytes} {tokens : List StringToken}
      (h : JsonSyntax .member text tokens) : JsonSyntax .members text tokens
  | nextMember {text rest : Bytes} {tokens more : List StringToken}
      (h : JsonSyntax .member text tokens)
      (hrest : JsonSyntax .members rest more) :
      JsonSyntax .members (text ++ 0x2c :: rest) (tokens ++ more)

/-- One JSON text. -/
abbrev JsonText (text : Bytes) (tokens : List StringToken) : Prop :=
  JsonSyntax .item text tokens

/-! Surrogate pairs. -/

/-- Each half of a pair stands next to the other. -/
structure StringToken.Paired (token : StringToken) : Prop where
  high : ∀ i, token[i]?.any StringItem.isHigh = true →
    token[i + 1]?.any StringItem.isLow = true
  low : ∀ i, token[i]?.any StringItem.isLow = true →
    ∃ j, i = j + 1 ∧ token[j]?.any StringItem.isHigh = true

/-- The same, from the front. -/
def pairs : StringToken → Bool
  | [] => true
  | [item] => !item.isHigh && !item.isLow
  | item :: next :: rest =>
      if item.isHigh then next.isLow && pairs rest
      else !item.isLow && pairs (next :: rest)

theorem exists_codeUnit {item : StringItem} {p : Nat → Bool}
    (h : item.codeUnit.any p = true) :
    ∃ unit, item.codeUnit = some unit := by
  cases hunit : item.codeUnit with
  | none =>
      rw [hunit] at h
      cases h
  | some unit => exact ⟨unit, rfl⟩

theorem isLow_of_isHigh {item : StringItem} (h : item.isHigh = true) :
    item.isLow = false := by
  unfold StringItem.isHigh at h
  unfold StringItem.isLow
  cases hunit : item.codeUnit with
  | none => rfl
  | some unit =>
      rw [hunit, Option.any_some, decide_eq_true_eq] at h
      rw [Option.any_some, decide_eq_false_iff_not]
      omega

section

variable {item next : StringItem} {rest : StringToken}

theorem paired_nil : StringToken.Paired [] :=
  ⟨fun _ h => by simp at h, fun _ h => by simp at h⟩

theorem paired_singleton :
    StringToken.Paired [item] ↔ item.isHigh = false ∧ item.isLow = false := by
  constructor
  · intro h
    constructor
    · apply Bool.eq_false_iff.mpr
      intro hhigh
      simpa using h.high 0 hhigh
    · apply Bool.eq_false_iff.mpr
      intro hlow
      obtain ⟨j, hj, -⟩ := h.low 0 hlow
      cases hj
  · intro h
    obtain ⟨hhigh, hlow⟩ := h
    constructor
    · intro i hi
      cases i with
      | zero => simp [hhigh] at hi
      | succ i => simp at hi
    · intro i hi
      cases i with
      | zero => simp [hlow] at hi
      | succ i => simp at hi

theorem paired_of_high (hhigh : item.isHigh = true) :
    StringToken.Paired (item :: next :: rest) ↔
      next.isLow = true ∧ StringToken.Paired rest := by
  constructor
  · intro h
    have hnext : next.isLow = true := h.high 0 hhigh
    refine ⟨hnext, fun i hi => h.high (i + 2) hi, fun i hi => ?_⟩
    obtain ⟨j, hj, hbefore⟩ := h.low (i + 2) hi
    cases i with
    | zero =>
        -- the half before would be the other half of the first pair
        cases hj
        exact absurd hnext (by simp [isLow_of_isHigh hbefore])
    | succ i =>
        cases hj
        exact ⟨i, rfl, hbefore⟩
  · intro h
    obtain ⟨hnext, hrest⟩ := h
    constructor
    · intro i hi
      match i with
      | 0 => exact hnext
      | 1 => exact absurd hnext (by simp [isLow_of_isHigh hi])
      | i + 2 => exact hrest.high i hi
    · intro i hi
      match i with
      | 0 => exact absurd hi (by simp [isLow_of_isHigh hhigh])
      | 1 => exact ⟨0, rfl, hhigh⟩
      | i + 2 =>
          obtain ⟨j, rfl, hbefore⟩ := hrest.low i hi
          exact ⟨j + 2, rfl, hbefore⟩

theorem paired_of_not_high (hhigh : item.isHigh = false) :
    StringToken.Paired (item :: rest) ↔
      item.isLow = false ∧ StringToken.Paired rest := by
  constructor
  · intro h
    refine ⟨?_, fun i hi => h.high (i + 1) hi, fun i hi => ?_⟩
    · apply Bool.eq_false_iff.mpr
      intro hlow
      obtain ⟨j, hj, -⟩ := h.low 0 hlow
      cases hj
    · obtain ⟨j, hj, hbefore⟩ := h.low (i + 1) hi
      cases j with
      | zero => simp [hhigh] at hbefore
      | succ j => exact ⟨j, Nat.succ.inj hj, hbefore⟩
  · intro h
    obtain ⟨hlow, hrest⟩ := h
    constructor
    · intro i hi
      cases i with
      | zero => simp [hhigh] at hi
      | succ i => exact hrest.high i hi
    · intro i hi
      cases i with
      | zero => simp [hlow] at hi
      | succ i =>
          obtain ⟨j, rfl, hbefore⟩ := hrest.low i hi
          exact ⟨j + 1, rfl, hbefore⟩

end

theorem pairs_iff {token : StringToken} :
    pairs token = true ↔ token.Paired := by
  induction token using pairs.induct with
  | case1 => exact ⟨fun _ => paired_nil, fun _ => rfl⟩
  | case2 item => simp [pairs, paired_singleton]
  | case3 item next rest hhigh ih =>
      rw [pairs, if_pos hhigh, paired_of_high hhigh, Bool.and_eq_true, ih]
  | case4 item next rest hhigh ih =>
      rw [pairs, if_neg hhigh, paired_of_not_high (Bool.eq_false_iff.mpr hhigh),
        Bool.and_eq_true, ih, Bool.not_eq_true']

end TensorFS.Data
