import TensorFS.Data.ByteReader
import TensorFS.Data.FloatGrid

namespace TensorFS.Python

open Data

/-! Reading and writing bfloat16; a float is given by a float32 pattern of its
value. -/

/-- What the patterns spell: a sign above the magnitude, `bits` of it mantissa,
and an exponent of eight. -/
def IsNan (bits pattern : Nat) : Prop :=
  255 * 2 ^ bits < pattern % 2 ^ (8 + bits)

instance (bits pattern : Nat) : Decidable (IsNan bits pattern) :=
  inferInstanceAs (Decidable (_ < _))

/-- The pattern of a float32 after a conversion between the widths, which makes
a signalling NaN a quiet one. -/
def quiet (value : UInt32) : UInt32 :=
  if IsNan 23 value.toNat then value ||| 0x400000 else value

/-- `struct.pack("<f", value)`. -/
def packF32 (value : UInt32) : Bytes := leBytes 4 (quiet value).toNat

/-- `struct.unpack("<f", packed)`. -/
def unpackF32 (packed : Bytes) : Option UInt32 :=
  if packed.length = 4 then some (quiet (UInt32.ofNat (leNat packed)))
  else none

def readF32 (buf : Bytes) (index : Nat) : Option UInt32 :=
  unpackF32 ((buf.drop (index * 4)).take 4)

def readBf16 (buf : Bytes) (index : Nat) : Option UInt32 := do
  let lo ← buf[index * 2]?
  let hi ← buf[index * 2 + 1]?
  unpackF32 [0, 0, lo, hi]

def writeF32 (value : UInt32) : Bytes := packF32 value

/-- The pattern with its low half rounded away. -/
def roundBf16 (bits : Nat) : Nat :=
  let lower := bits &&& 0xFFFF
  let rounded :=
    if lower ≠ 0 then (bits + 0x7FFF + ((bits >>> 16) &&& 1)) >>> 16
    else bits >>> 16
  rounded &&& 0xFFFF

def writeBf16 (value : UInt32) : Bytes :=
  leBytes 2 (roundBf16 (leNat (packF32 value)))

/-- The reference kernel's loop over the elements from `index` on. -/
def castFrom (reader : Bytes → Nat → Option UInt32)
    (writer : UInt32 → Bytes) (source : Bytes) : Nat → Nat → Option Bytes
  | 0, _ => some []
  | count + 1, index => do
      let value ← reader source index
      let out ← castFrom reader writer source count (index + 1)
      some (writer value ++ out)

def kernelCast (reader : Bytes → Nat → Option UInt32)
    (writer : UInt32 → Bytes) (source : Bytes) (count : Nat) :
    Option Bytes :=
  castFrom reader writer source count 0

def IsInfinite (bits pattern : Nat) : Prop :=
  pattern % 2 ^ (8 + bits) = 255 * 2 ^ bits

def IsFinite (bits pattern : Nat) : Prop :=
  pattern % 2 ^ (8 + bits) < 255 * 2 ^ bits

def isNegative (bits pattern : Nat) : Bool :=
  pattern / 2 ^ (8 + bits) % 2 = 1

/-- The value of a finite pattern. -/
def patternValue (bits pattern : Nat) : ℚ :=
  signed (isNegative bits pattern)
    (gridValue bits 127 (pattern % 2 ^ (8 + bits)))

/-- Magnitudes from here on round to infinity: half a step beyond the largest
bfloat16. -/
def bf16Overflow : ℚ := 2 ^ 128 - 2 ^ 119

/-- The bfloat16 a float32 rounds to, ties to the even one. -/
structure RoundsTo (bits rounded : Nat) : Prop where
  nan : IsNan 23 bits → IsNan 7 rounded
  sign : ¬ IsNan 23 bits → isNegative 7 rounded = isNegative 23 bits
  infinite : IsInfinite 23 bits → IsInfinite 7 rounded
  overflow : IsFinite 23 bits → bf16Overflow ≤ |patternValue 23 bits| →
    IsInfinite 7 rounded
  finite : IsFinite 23 bits → |patternValue 23 bits| < bf16Overflow →
    IsFinite 7 rounded
  nearest : IsFinite 23 bits → |patternValue 23 bits| < bf16Overflow →
    ∀ other, IsFinite 7 other →
      |patternValue 23 bits - patternValue 7 rounded| ≤
          |patternValue 23 bits - patternValue 7 other| ∧
        (|patternValue 23 bits - patternValue 7 rounded| =
            |patternValue 23 bits - patternValue 7 other| →
          patternValue 7 other ≠ patternValue 7 rounded → Even rounded)

/-- A NaN whose mantissa the rounding carries out of. -/
def LosesNan (bits : Nat) : Prop :=
  IsNan 23 bits ∧ 0x7F8000 ≤ bits % 2 ^ 23

/-- One when the low half rounds up. -/
def carry (bits : Nat) : Nat :=
  if 0x8000 < bits % 2 ^ 16 ∨
      (bits % 2 ^ 16 = 0x8000 ∧ bits / 2 ^ 16 % 2 = 1) then 1 else 0

section

variable {bits : Nat}

theorem roundBf16_eq (bits : Nat) :
    roundBf16 bits = (bits / 2 ^ 16 + carry bits) % 2 ^ 16 := by
  have hmask : ∀ n : Nat, n &&& 0xFFFF = n % 2 ^ 16 :=
    fun n => Nat.and_two_pow_sub_one_eq_mod n 16
  have hbit : ∀ n : Nat, n &&& 1 = n % 2 := fun n => Nat.and_one_is_mod n
  unfold roundBf16 carry
  simp only [hmask, hbit, Nat.shiftRight_eq_div_pow]
  split
  · split
    · congr 1
      omega
    · congr 1
      omega
  · split
    · omega
    · rfl

theorem carry_le : carry bits ≤ 1 := by
  unfold carry
  split
  · exact le_rfl
  · exact Nat.zero_le 1

theorem carry_of_exact (h : bits % 2 ^ 16 = 0) : carry bits = 0 := by
  unfold carry
  rw [h]
  rfl

/-- Off the NaNs the carry stays below the sign. -/
theorem magnitude_carry (h : ¬ IsNan 23 bits) :
    bits % 2 ^ 31 / 2 ^ 16 + carry bits ≤ 255 * 2 ^ 7 := by
  have hcarry := @carry_le bits
  have hlarge := not_lt.mp h
  rcases Nat.eq_zero_or_pos (bits % 2 ^ 16) with hexact | hrest
  · rw [carry_of_exact hexact]
    omega
  · omega

theorem roundBf16_magnitude (h : ¬ IsNan 23 bits) :
    roundBf16 bits % 2 ^ 15 = bits % 2 ^ 31 / 2 ^ 16 + carry bits := by
  have hmagnitude := magnitude_carry h
  rw [roundBf16_eq]
  omega

theorem roundBf16_sign (h : ¬ IsNan 23 bits) :
    isNegative 7 (roundBf16 bits) = isNegative 23 bits := by
  have hmagnitude := magnitude_carry h
  have hsame : roundBf16 bits / 2 ^ 15 % 2 = bits / 2 ^ 31 % 2 := by
    rw [roundBf16_eq]
    omega
  unfold isNegative
  rw [hsame]

/-- The code the rounding picks is the nearest of all. -/
theorem roundBf16_nearest (h : ¬ IsNan 23 bits) :
    NearestEven (gridValue 7 127) (gridValue 23 127 (bits % 2 ^ 31))
      (roundBf16 bits % 2 ^ 15) := by
  have hlow : bits % 2 ^ 31 % 2 ^ 16 = bits % 2 ^ 16 := by omega
  have hdrop := nearestEven_drop 7 16 127 (bits % 2 ^ 31 / 2 ^ 16)
    (bits % 2 ^ 31 % 2 ^ 16) (Nat.mod_lt _ (by decide))
  rw [Nat.div_add_mod'] at hdrop
  rw [roundBf16_magnitude h]
  have hcarry : carry bits = if 2 ^ 16 < 2 * (bits % 2 ^ 31 % 2 ^ 16) ∨
      (2 * (bits % 2 ^ 31 % 2 ^ 16) = 2 ^ 16 ∧
        bits % 2 ^ 31 / 2 ^ 16 % 2 = 1) then 1 else 0 := by
    unfold carry
    congr 1
    rw [eq_iff_iff]
    omega
  rw [hcarry]
  exact hdrop

/-- A quiet NaN stays one unless the carry runs out of its mantissa. -/
theorem roundBf16_nan (h : IsNan 23 bits) (hquiet : 2 ^ 22 ≤ bits % 2 ^ 23) :
    IsNan 7 (roundBf16 bits) ↔ ¬ 0x7F8000 ≤ bits % 2 ^ 23 := by
  unfold IsNan at h ⊢
  rw [roundBf16_eq]
  unfold carry
  split
  · omega
  · omega

theorem abs_patternValue (width pattern : Nat) :
    |patternValue width pattern| =
      gridValue width 127 (pattern % 2 ^ (8 + width)) := by
  have hnonneg := @gridValue_nonneg width 127 (pattern % 2 ^ (8 + width))
  have hzero := abs_signed_sub (isNegative width pattern)
    (x := gridValue width 127 (pattern % 2 ^ (8 + width))) (y := 0)
  rw [signed_zero, sub_zero, sub_zero, abs_of_nonneg hnonneg] at hzero
  exact hzero

/-- The half step beyond the largest bfloat16 is itself a float32. -/
theorem bf16Overflow_eq : bf16Overflow = gridValue 23 127 0x7F7F8000 := by
  norm_num [bf16Overflow, gridValue]

theorem overflows_iff : bf16Overflow ≤ |patternValue 23 bits| ↔
    0x7F7F8000 ≤ bits % 2 ^ 31 := by
  rw [bf16Overflow_eq, abs_patternValue]
  exact (gridValue_strictMono 127).le_iff_le

theorem roundBf16_infinite (h : ¬ IsNan 23 bits) :
    IsInfinite 7 (roundBf16 bits) ↔ 0x7F7F8000 ≤ bits % 2 ^ 31 := by
  have hlarge := not_lt.mp h
  unfold IsInfinite
  rw [roundBf16_magnitude h]
  unfold carry
  split
  · omega
  · omega

theorem IsFinite.not_nan {width pattern : Nat} (h : IsFinite width pattern) :
    ¬ IsNan width pattern := not_lt.mpr (le_of_lt h)

/-- Off the NaNs the writer rounds as it should. -/
theorem roundsTo_of_not_nan (h : ¬ IsNan 23 bits) :
    RoundsTo bits (roundBf16 bits) where
  nan hnan := absurd hnan h
  sign _ := roundBf16_sign h
  infinite hinfinite := by
    rw [roundBf16_infinite h, hinfinite]
    decide
  overflow _ hover := (roundBf16_infinite h).mpr (overflows_iff.mp hover)
  finite _ hunder := by
    have hsmall := mt (roundBf16_infinite h).mp
      (mt overflows_iff.mpr (not_le.mpr hunder))
    have hmagnitude := magnitude_carry h
    rw [← roundBf16_magnitude h] at hmagnitude
    exact lt_of_le_of_ne hmagnitude hsmall
  nearest _ _ other _ := by
    have hnearest := (roundBf16_nearest h).signed (gridValue_zero 127)
      (gridValue_nonneg 127) (gridValue_nonneg 127 _) (isNegative 23 bits)
      (isNegative 7 other) (other % 2 ^ 15)
    unfold patternValue
    rw [roundBf16_sign h]
    refine ⟨hnearest.1, fun heq hne => ?_⟩
    have heven := hnearest.2 heq hne
    rw [Nat.even_iff] at heven ⊢
    omega

theorem roundBf16_rounds_iff
    (hquiet : IsNan 23 bits → 2 ^ 22 ≤ bits % 2 ^ 23) :
    RoundsTo bits (roundBf16 bits) ↔ ¬ LosesNan bits := by
  by_cases h : IsNan 23 bits
  · have hkeeps := roundBf16_nan h (hquiet h)
    constructor
    · intro hrounds hloses
      exact hkeeps.mp (hrounds.nan h) hloses.2
    · intro hkept
      have hnan := hkeeps.mpr fun hlost => hkept ⟨h, hlost⟩
      refine ⟨fun _ => hnan, fun hnot => absurd h hnot,
        fun hinfinite => ?_, fun hfinite => absurd h hfinite.not_nan,
        fun hfinite => absurd h hfinite.not_nan,
        fun hfinite => absurd h hfinite.not_nan⟩
      exact absurd h (not_lt.mpr (le_of_eq hinfinite))
  · exact ⟨fun _ hloses => h hloses.1, fun _ => roundsTo_of_not_nan h⟩

end

/-! What the conversions leave of a pattern. -/

theorem quiet_of_not_nan {value : UInt32} (h : ¬ IsNan 23 value.toNat) :
    quiet value = value := if_neg h

/-- A NaN that has been converted is quiet. -/
theorem le_quiet {value : UInt32} (h : IsNan 23 (quiet value).toNat) :
    2 ^ 22 ≤ (quiet value).toNat % 2 ^ 23 := by
  by_cases hnan : IsNan 23 value.toNat
  · refine Nat.ge_two_pow_of_testBit ?_
    rw [quiet, if_pos hnan, UInt32.toNat_or, Nat.testBit_mod_two_pow,
      Nat.testBit_or]
    simp only [Bool.and_eq_true, Bool.or_eq_true]
    exact ⟨by decide, .inr (by decide)⟩
  · rw [quiet_of_not_nan hnan] at h
    exact absurd h hnan

theorem leNat_packF32 (value : UInt32) :
    leNat (packF32 value) = (quiet value).toNat := by
  have hlt := (quiet value).toNat_lt
  exact leNat_leBytes (show _ < 256 ^ 4 by omega)

theorem unpackF32_packF32 {value : UInt32} (h : ¬ IsNan 23 value.toNat) :
    unpackF32 (packF32 value) = some value := by
  have hlength : (packF32 value).length = 4 := length_leBytes 4 _
  rw [unpackF32, if_pos hlength, leNat_packF32, UInt32.ofNat_toNat,
    quiet_of_not_nan h, quiet_of_not_nan h]

/-! Casting a tensor's bytes. -/

section

variable {α : Type} {reader : Bytes → Nat → Option UInt32}
  {writer : UInt32 → Bytes} {spell : α → Bytes} {value : α → UInt32}
  {width : Nat}

theorem castFrom_flatMap (hwidth : ∀ item, (spell item).length = width)
    (items : List α)
    (hread : ∀ item ∈ items, ∀ front back index,
      front.length = index * width →
        reader (front ++ (spell item ++ back)) index = some (value item))
    {front : Bytes} {index : Nat} (hfront : front.length = index * width) :
    castFrom reader writer (front ++ items.flatMap spell) items.length
      index = some (items.flatMap fun item => writer (value item)) := by
  induction items generalizing front index with
  | nil => rfl
  | cons item items ih =>
      have hnext : (front ++ spell item).length = (index + 1) * width := by
        rw [List.length_append, hfront, hwidth, Nat.succ_mul]
      have hrest := ih (fun other hother =>
        hread other (List.mem_cons_of_mem _ hother)) hnext
      rw [List.append_assoc] at hrest
      rw [List.flatMap_cons, List.length_cons, castFrom,
        hread item List.mem_cons_self front _ index hfront,
        Option.bind_eq_bind, Option.bind_some, hrest]
      rfl

theorem kernelCast_flatMap (hwidth : ∀ item, (spell item).length = width)
    (items : List α)
    (hread : ∀ item ∈ items, ∀ front back index,
      front.length = index * width →
        reader (front ++ (spell item ++ back)) index = some (value item)) :
    kernelCast reader writer (items.flatMap spell) items.length =
      some (items.flatMap fun item => writer (value item)) := by
  have hfront : ([] : Bytes).length = 0 * width := (Nat.zero_mul _).symm
  exact castFrom_flatMap hwidth items hread hfront

end

/-- A bfloat16 as the float32 of the same value. -/
def widen (half : UInt16) : UInt32 := UInt32.ofNat (half.toNat * 2 ^ 16)

theorem toNat_widen (half : UInt16) :
    (widen half).toNat = half.toNat * 2 ^ 16 := by
  have hlt := half.toNat_lt
  exact UInt32.toNat_ofNat_of_lt (show _ < 2 ^ 32 by omega)

theorem widen_not_nan {half : UInt16} (h : ¬ IsNan 7 half.toNat) :
    ¬ IsNan 23 (widen half).toNat := by
  unfold IsNan at h ⊢
  rw [toNat_widen]
  omega

/-- The two bytes of a bfloat16 are the upper ones of its float32. -/
theorem packF32_widen {half : UInt16} (hnan : ¬ IsNan 7 half.toNat) :
    packF32 (widen half) = [0, 0] ++ leBytes 2 half.toNat := by
  have hfirst : half.toNat * 2 ^ 16 % 256 = 0 := by omega
  have hsecond : half.toNat * 2 ^ 16 / 256 % 256 = 0 := by omega
  have hupper : half.toNat * 2 ^ 16 / 256 / 256 = half.toNat := by omega
  rw [packF32, quiet_of_not_nan (widen_not_nan hnan), toNat_widen]
  simp only [leBytes, hfirst, hsecond, hupper]
  rfl

theorem readBf16_at {half : UInt16} (hnan : ¬ IsNan 7 half.toNat)
    (front back : Bytes) (index : Nat) (h : front.length = index * 2) :
    readBf16 (front ++ (leBytes 2 half.toNat ++ back)) index =
      some (widen half) := by
  have hback := unpackF32_packF32 (widen_not_nan hnan)
  rw [packF32_widen hnan] at hback
  simp only [leBytes, readBf16] at hback ⊢
  rw [← h, List.getElem?_append_right le_rfl, Nat.sub_self,
    List.getElem?_append_right (Nat.le_succ _), Nat.succ_sub le_rfl,
    Nat.sub_self]
  exact hback

theorem readF32_at {value : UInt32} (hnan : ¬ IsNan 23 value.toNat)
    (front back : Bytes) (index : Nat) (h : front.length = index * 4) :
    readF32 (front ++ (writeF32 value ++ back)) index = some value := by
  have htaken : ((front ++ (writeF32 value ++ back)).drop
      (index * 4)).take 4 = packF32 value := by
    rw [← h, List.drop_left]
    exact List.take_left' (length_leBytes 4 (quiet value).toNat)
  rw [readF32, htaken]
  exact unpackF32_packF32 hnan

/-- The pattern the writer spells. -/
theorem leNat_writeBf16 (value : UInt32) :
    leNat (writeBf16 value) = roundBf16 (quiet value).toNat := by
  rw [writeBf16, leNat_packF32]
  refine leNat_leBytes ?_
  rw [roundBf16_eq]
  exact Nat.mod_lt _ (by decide)

theorem writeBf16_widen {half : UInt16} (hnan : ¬ IsNan 7 half.toNat) :
    writeBf16 (widen half) = leBytes 2 half.toNat := by
  have hlt := half.toNat_lt
  rw [writeBf16, leNat_packF32, quiet_of_not_nan (widen_not_nan hnan),
    toNat_widen, roundBf16_eq, carry_of_exact (Nat.mul_mod_left _ _)]
  congr 1
  omega

/-- The writer rounds every pattern that packing makes as it should but the
NaNs next to the upper border of their range; casting up and back gives every
tensor without NaNs again. -/
theorem writeBf16_rounds_iff (value : UInt32) (halves : List UInt16) :
    (RoundsTo (leNat (packF32 value)) (leNat (writeBf16 value)) ↔
      ¬ LosesNan (leNat (packF32 value))) ∧
    ((∀ half ∈ halves, ¬ IsNan 7 half.toNat) →
      ∃ wide, kernelCast readBf16 writeF32
          (halves.flatMap fun half => leBytes 2 half.toNat) halves.length =
            some wide ∧
        kernelCast readF32 writeBf16 wide halves.length =
          some (halves.flatMap fun half => leBytes 2 half.toNat)) := by
  constructor
  · rw [leNat_writeBf16, leNat_packF32]
    exact roundBf16_rounds_iff le_quiet
  · intro hnan
    refine ⟨_, kernelCast_flatMap (fun half => length_leBytes 2 half.toNat)
      halves fun half hhalf => readBf16_at (hnan half hhalf), ?_⟩
    have hback := @kernelCast_flatMap UInt16 readF32 writeBf16
      (fun half => writeF32 (widen half)) widen 4
      (fun half => length_leBytes 4 (quiet (widen half)).toNat) halves
      fun half hhalf => readF32_at (widen_not_nan (hnan half hhalf))
    rw [hback, Option.some.injEq]
    exact List.flatMap_congr fun half hhalf =>
      writeBf16_widen (hnan half hhalf)

/-- A NaN packs to a quiet one and stays one; one and minus two are cast up
and back. -/
theorem writeBf16_rounds_iff_pair :
    RoundsTo (leNat (packF32 0x7F812345)) (leNat (writeBf16 0x7F812345)) ∧
    ∃ wide, kernelCast readBf16 writeF32 [0x80, 0x3F, 0x00, 0xC0] 2 =
        some wide ∧
      kernelCast readF32 writeBf16 wide 2 =
        some [0x80, 0x3F, 0x00, 0xC0] := by
  have hboth := writeBf16_rounds_iff 0x7F812345 [0x3F80, 0xC000]
  have hpacked : leNat (packF32 0x7F812345) = 0x7FC12345 := by decide
  refine ⟨hboth.1.mpr fun hloses => ?_, hboth.2 (by simp [IsNan])⟩
  rw [hpacked] at hloses
  exact absurd hloses.2 (by decide)

/-- The all-ones NaN comes out as minus zero. -/
theorem writeBf16_loses_nan :
    packF32 0x7FFFFFFF = [0xFF, 0xFF, 0xFF, 0x7F] ∧ IsNan 23 0x7FFFFFFF ∧
      leNat (writeBf16 0x7FFFFFFF) = 0x8000 ∧ ¬ IsNan 7 0x8000 := by
  decide

end TensorFS.Python
