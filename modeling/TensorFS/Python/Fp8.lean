import TensorFS.Data.FloatGrid

namespace TensorFS.Python

open Data

/-! Encoding a float as one byte of `float8_e4m3fn`. -/

/-- A float by its sign bit, which a zero has too, and its magnitude. -/
inductive PyFloat where
  | nan
  | infinite (negative : Bool)
  | finite (negative : Bool) (magnitude : ℚ) (nonneg : 0 ≤ magnitude)

def signBit (negative : Bool) : Nat := if negative then 0x80 else 0

/-- The integer part, one more when the rest is past the half, or is the half
behind an odd integer. -/
def nearestUnit (quantum : ℚ) : Nat :=
  let unit := ⌊quantum⌋₊
  let remainder := quantum - unit
  if 1 / 2 < remainder ∨ (remainder = 1 / 2 ∧ unit % 2 = 1) then unit + 1
  else unit

def halveDown : Nat → ℚ → Int → Option (ℚ × Int)
  | 0, _, _ => none
  | fuel + 1, scaled, exponent =>
      if 2 ≤ scaled then halveDown fuel (scaled / 2) (exponent + 1)
      else some (scaled, exponent)

def doubleUp : Nat → ℚ → Int → Option (ℚ × Int)
  | 0, _, _ => none
  | fuel + 1, scaled, exponent =>
      if scaled < 1 then doubleUp fuel (scaled * 2) (exponent - 1)
      else some (scaled, exponent)

/-- The two loops that bring a magnitude between one and two. -/
def normalize (magnitude : ℚ) : Option (ℚ × Int) := do
  let (scaled, exponent) ← halveDown (magnitude.num.natAbs + 1) magnitude 0
  doubleUp (magnitude.den + 1) scaled exponent

def encodeE4m3 : PyFloat → Option Nat
  | .nan => some 0x7F
  | .infinite negative => some (signBit negative ||| 0x7E)
  | .finite negative magnitude _ =>
      let sign := signBit negative
      if 464 ≤ magnitude then some (sign ||| 0x7E)
      else if magnitude = 0 then some sign
      else if magnitude < 2 ^ (-6 : Int) then
        -- subnormals: exponent 0, step 2 ** -9
        some (sign ||| min (nearestUnit (magnitude / 2 ^ (-9 : Int))) 0x07)
      else do
        let (scaled, exponent) ← normalize magnitude
        let unit := nearestUnit ((scaled - 1) * 8)
        let (unit, exponent) :=
          if unit = 8 then (0, exponent + 1) else (unit, exponent)
        if 8 < exponent then some (sign ||| 0x7E)
        else some (sign ||| (exponent + 7).toNat <<< 3 ||| unit)

/-- What a byte of `float8_e4m3fn` stands for; the all-ones magnitude is its
only NaN. -/
def decodeE4m3 (byte : Nat) : Option ℚ :=
  if byte % 2 ^ 7 = 0x7F then none
  else some (signed (byte / 2 ^ 7 % 2 = 1) (gridValue 3 7 (byte % 2 ^ 7)))

section

variable {fuel : Nat} {scaled : ℚ} {exponent : Int} {magnitude : ℚ}

theorem halveDown_spec (hfuel : scaled < 2 ^ fuel) :
    ∃ steps : Nat, halveDown (fuel + 1) scaled exponent =
        some (scaled / 2 ^ steps, exponent + steps) ∧
      scaled / 2 ^ steps < 2 ∧ (steps = 0 ∨ 1 ≤ scaled / 2 ^ steps) := by
  induction fuel generalizing scaled exponent with
  | zero =>
      rw [pow_zero] at hfuel
      refine ⟨0, ?_, ?_, .inl rfl⟩
      · rw [halveDown, if_neg (by linarith)]
        simp
      · simp only [pow_zero, div_one]
        linarith
  | succ fuel ih =>
      by_cases hlarge : 2 ≤ scaled
      · have hhalf : scaled / 2 < 2 ^ fuel := by
          rw [pow_succ] at hfuel
          linarith
        obtain ⟨steps, hsteps, hupper, hlower⟩ := @ih (scaled / 2) (exponent + 1) hhalf
        have hsame : scaled / 2 / 2 ^ steps = scaled / 2 ^ (steps + 1) := by
          rw [div_div, pow_succ, mul_comm]
        rw [hsame] at hsteps hupper hlower
        refine ⟨steps + 1, ?_, hupper, .inr ?_⟩
        · rw [halveDown, if_pos hlarge, hsteps]
          push_cast
          rw [add_assoc, add_comm 1]
        · rcases hlower with rfl | hlower
          · rw [zero_add, pow_one]
            linarith
          · exact hlower
      · refine ⟨0, ?_, ?_, .inl rfl⟩
        · rw [halveDown, if_neg hlarge]
          simp
        · rw [pow_zero, div_one]
          exact not_le.mp hlarge

theorem doubleUp_spec (hfuel : 1 ≤ scaled * 2 ^ fuel) (hupper : scaled < 2) :
    ∃ steps : Nat, doubleUp (fuel + 1) scaled exponent =
        some (scaled * 2 ^ steps, exponent - steps) ∧
      1 ≤ scaled * 2 ^ steps ∧ scaled * 2 ^ steps < 2 := by
  induction fuel generalizing scaled exponent with
  | zero =>
      rw [pow_zero, mul_one] at hfuel
      refine ⟨0, ?_, ?_, ?_⟩
      · rw [doubleUp, if_neg (not_lt.mpr hfuel)]
        simp
      · rwa [pow_zero, mul_one]
      · rwa [pow_zero, mul_one]
  | succ fuel ih =>
      by_cases hsmall : scaled < 1
      · have hdouble : 1 ≤ scaled * 2 * 2 ^ fuel := by
          rw [mul_assoc, ← pow_succ']
          exact hfuel
        obtain ⟨steps, hsteps, hlower, hupper⟩ :=
          @ih (scaled * 2) (exponent - 1) hdouble (by linarith)
        have hsame : scaled * 2 * 2 ^ steps = scaled * 2 ^ (steps + 1) := by
          rw [mul_assoc, ← pow_succ']
        rw [hsame] at hsteps hlower hupper
        refine ⟨steps + 1, ?_, hlower, hupper⟩
        rw [doubleUp, if_pos hsmall, hsteps]
        push_cast
        rw [sub_sub, add_comm 1]
      · refine ⟨0, ?_, ?_, ?_⟩
        · rw [doubleUp, if_neg hsmall]
          simp
        · rw [pow_zero, mul_one]
          exact not_lt.mp hsmall
        · rwa [pow_zero, mul_one]

/-- Every positive magnitude is brought between one and two. -/
theorem normalize_spec (hpos : 0 < magnitude) :
    ∃ scaled exponent, normalize magnitude = some (scaled, exponent) ∧
      magnitude = scaled * 2 ^ exponent ∧ 1 ≤ scaled ∧ scaled < 2 := by
  have hnumPos := Rat.num_pos.mpr hpos
  have hone : (1 : ℚ) ≤ magnitude.num.natAbs := by
    exact_mod_cast (by omega : 1 ≤ magnitude.num.natAbs)
  have hratio : magnitude * magnitude.den = magnitude.num.natAbs := by
    rw [Rat.mul_den_eq_num, ← Int.cast_natCast,
      Int.natAbs_of_nonneg hnumPos.le]
  have hdenPos : (1 : ℚ) ≤ magnitude.den := by
    exact_mod_cast magnitude.den_pos
  have hnum : magnitude < 2 ^ magnitude.num.natAbs := by
    have hpow : (magnitude.num.natAbs : ℚ) < 2 ^ magnitude.num.natAbs := by
      exact_mod_cast Nat.lt_two_pow_self
    refine lt_of_le_of_lt ?_ hpow
    rw [← hratio]
    exact le_mul_of_one_le_right hpos.le hdenPos
  have hden : 1 ≤ magnitude * 2 ^ magnitude.den := by
    have hpow : (magnitude.den : ℚ) < 2 ^ magnitude.den := by
      exact_mod_cast Nat.lt_two_pow_self
    refine le_trans ?_ (mul_le_mul_of_nonneg_left hpow.le hpos.le)
    rw [hratio]
    exact hone
  obtain ⟨halvings, hhalve, hupper, hlower⟩ := @halveDown_spec _ _ 0 hnum
  have hreach : 1 ≤ magnitude / 2 ^ halvings * 2 ^ magnitude.den := by
    rcases hlower with rfl | hlower
    · rwa [pow_zero, div_one]
    · exact one_le_mul_of_one_le_of_one_le hlower
        (one_le_pow₀ one_le_two)
  obtain ⟨doublings, hdouble, hlow, hhigh⟩ :=
    @doubleUp_spec _ _ (0 + halvings) hreach hupper
  refine ⟨_, 0 + (halvings : Int) - doublings, ?_, ?_, hlow, hhigh⟩
  · rw [normalize, hhalve, Option.bind_eq_bind, Option.bind_some]
    exact hdouble
  · rw [zpow_sub₀ two_ne_zero, zero_add, zpow_natCast, zpow_natCast]
    field_simp

end

/-! What the encoder rounds to. -/

section

variable {quantum magnitude : ℚ} {negative : Bool} {code shift unit : Nat}

theorem nearestUnit_eq (quantum : ℚ) : nearestUnit quantum =
    ⌊quantum⌋₊ + if 1 / 2 < quantum - ⌊quantum⌋₊ ∨
      (quantum - ⌊quantum⌋₊ = 1 / 2 ∧ ⌊quantum⌋₊ % 2 = 1) then 1 else 0 := by
  have hdef : nearestUnit quantum =
      if 1 / 2 < quantum - ⌊quantum⌋₊ ∨
        (quantum - ⌊quantum⌋₊ = 1 / 2 ∧ ⌊quantum⌋₊ % 2 = 1) then
          ⌊quantum⌋₊ + 1 else ⌊quantum⌋₊ := rfl
  rw [hdef]
  split
  · rfl
  · rfl

theorem nearestUnit_le (h : quantum ≤ code) : nearestUnit quantum ≤ code := by
  rcases lt_or_ge quantum 0 with hneg | hnonneg
  · have hfloor : ⌊quantum⌋₊ = 0 := Nat.floor_of_nonpos hneg.le
    rw [nearestUnit_eq, hfloor, if_neg]
    · exact Nat.zero_le code
    · rw [Nat.cast_zero, sub_zero]
      intro hpart
      rcases hpart with hpart | ⟨-, hodd⟩
      · linarith
      · cases hodd
  · have hfloor := Nat.floor_le hnonneg
    rw [nearestUnit_eq]
    split
    · rename_i hpart
      have hlt : (⌊quantum⌋₊ : ℚ) < code := by
        rcases hpart with hpart | ⟨hpart, -⟩
        · linarith
        · linarith
      exact_mod_cast hlt
    · exact_mod_cast hfloor.trans h

/-- Rounding inside a stretch of the grid that is even. -/
theorem nearestEven_stretch {start : Nat} {step : ℚ}
    (heven : start % 2 = 0) (hquantum : 0 ≤ quantum) (hbelow : quantum < 8)
    (hstretch : ∀ offset : Nat, offset ≤ 8 →
      gridValue 3 7 (start + offset) = gridValue 3 7 start + offset * step)
    (hvalue : magnitude = gridValue 3 7 start + quantum * step) :
    NearestEven (gridValue 3 7) magnitude (start + nearestUnit quantum) := by
  have hfloor := Nat.floor_le hquantum
  have hceil := Nat.lt_floor_add_one quantum
  have hunit : ⌊quantum⌋₊ < 8 := by
    exact_mod_cast lt_of_le_of_lt hfloor hbelow
  have hround := @NearestEven.round (gridValue 3 7) (start + ⌊quantum⌋₊)
    (gridValue_strictMono 7) (quantum - ⌊quantum⌋₊)
    (sub_nonneg.mpr hfloor) (by linarith)
  have hodd : (start + ⌊quantum⌋₊) % 2 = ⌊quantum⌋₊ % 2 := by omega
  have hpoint : gridValue 3 7 (start + ⌊quantum⌋₊) +
      (quantum - ⌊quantum⌋₊) * (gridValue 3 7 (start + ⌊quantum⌋₊ + 1) -
        gridValue 3 7 (start + ⌊quantum⌋₊)) = magnitude := by
    rw [Nat.add_assoc start, hstretch _ hunit.le, hstretch _ hunit, hvalue]
    push_cast
    ring
  rw [hpoint, hodd, Nat.add_assoc, ← nearestUnit_eq] at hround
  exact hround

theorem nearest_subnormal (hnonneg : 0 ≤ magnitude)
    (hsmall : magnitude < 2 ^ (-6 : Int)) :
    NearestEven (gridValue 3 7) magnitude
      (nearestUnit (magnitude / 2 ^ (-9 : Int))) := by
  have hstep : (0 : ℚ) < 2 ^ (-9 : Int) := by positivity
  have hbelow : magnitude / 2 ^ (-9 : Int) < 8 := by
    rw [div_lt_iff₀ hstep]
    refine lt_of_lt_of_eq hsmall ?_
    norm_num
  have hunits : ∀ offset, offset ≤ 8 → gridUnits 3 offset = offset := by
    decide
  have hround := @nearestEven_stretch (magnitude / 2 ^ (-9 : Int)) magnitude
    0 (2 ^ (-9 : Int)) rfl (by positivity) hbelow
    (fun offset hoffset => by
      rw [Nat.zero_add, gridValue_zero, zero_add, gridValue_eq,
        hunits offset hoffset]
      norm_num)
    (by rw [gridValue_zero, zero_add, div_mul_cancel₀ _ hstep.ne'])
  rwa [Nat.zero_add] at hround

theorem nearest_normal {scaled : ℚ} (hlow : 1 ≤ scaled) (hhigh : scaled < 2)
    (hvalue : magnitude = scaled * 2 ^ ((shift : Int) - 6)) :
    NearestEven (gridValue 3 7) magnitude
      ((shift + 1) * 2 ^ 3 + nearestUnit ((scaled - 1) * 8)) := by
  have hunits : ∀ offset, offset ≤ 8 →
      gridUnits 3 ((shift + 1) * 2 ^ 3 + offset) =
        gridUnits 3 ((shift + 1) * 2 ^ 3) + offset * 2 ^ shift := by
    intro offset hoffset
    rw [gridUnits_add (by omega)]
    congr 3
    omega
  have hstart : gridUnits 3 ((shift + 1) * 2 ^ 3) = 2 ^ 3 * 2 ^ shift :=
    @gridUnits_of_ge 3 shift 0 (by decide)
  have hscale : (2 : ℚ) ^ ((shift : Int) - 6) =
      8 * (2 ^ shift * 2 ^ (1 - 7 - (3 : Nat) : Int)) := by
    rw [zpow_sub₀ two_ne_zero, zpow_natCast]
    norm_num
    ring
  refine @nearestEven_stretch ((scaled - 1) * 8) magnitude
    ((shift + 1) * 2 ^ 3) (2 ^ shift * 2 ^ (1 - 7 - (3 : Nat) : Int))
    (by omega) (by linarith) (by linarith)
    (fun offset hoffset => ?_) ?_
  · rw [gridValue_eq, gridValue_eq, hunits offset hoffset]
    push_cast
    ring
  · rw [hvalue, hscale, gridValue_eq, hstart]
    push_cast
    ring

theorem sign_or (h : code < 2 ^ 7) :
    signBit negative ||| code = signBit negative + code := by
  cases negative with
  | false => exact (Nat.zero_or code).trans (Nat.zero_add code).symm
  | true => exact (Nat.shiftLeft_add_eq_or_of_lt h 1).symm

/-- The magnitudes the subnormal branch should round up to the first normal
one, and keeps below it. -/
def StuckBelowNormal (magnitude : ℚ) : Prop :=
  15 / 1024 ≤ magnitude ∧ magnitude < 1 / 64

theorem eight_of_half (h : quantum < 8) :
    7 < nearestUnit quantum ↔ 15 / 2 ≤ quantum := by
  rcases le_or_gt quantum (7 : Nat) with hle | hgt
  · have hunit := nearestUnit_le hle
    rw [Nat.cast_ofNat] at hle
    constructor
    · intro height
      omega
    · intro hhalf
      linarith
  · rw [Nat.cast_ofNat] at hgt
    have hfloor : ⌊quantum⌋₊ = 7 := by
      rw [Nat.floor_eq_iff (by linarith)]
      norm_num
      exact ⟨hgt.le, h⟩
    rw [nearestUnit_eq, hfloor]
    split
    · rename_i hpart
      refine ⟨fun _ => ?_, fun _ => by decide⟩
      rcases hpart with hpart | ⟨hpart, -⟩
      · push_cast at hpart
        linarith
      · push_cast at hpart
        linarith
    · rename_i hpart
      push Not at hpart
      refine ⟨fun hlt => absurd hlt (by decide), fun hhalf => ?_⟩
      have hless := hpart.1
      push_cast at hless
      exact absurd rfl (hpart.2 (by push_cast; linarith))

/-- The byte's magnitude for a magnitude in range: the nearest one, but for
those stuck below the normal ones. -/
structure Encodes (magnitude : ℚ) (code : Nat) : Prop where
  finite : code < 0x7F
  stuck : StuckBelowNormal magnitude → code = 7
  nearest : ¬ StuckBelowNormal magnitude →
    NearestEven (gridValue 3 7) magnitude code

theorem encodes_subnormal (hnonneg : 0 ≤ magnitude)
    (hsmall : magnitude < 2 ^ (-6 : Int)) :
    Encodes magnitude
      (min (nearestUnit (magnitude / 2 ^ (-9 : Int))) 0x07) := by
  have hnearest := nearest_subnormal hnonneg hsmall
  have hquantum : magnitude / 2 ^ (-9 : Int) = magnitude * 512 := by
    norm_num
    ring
  have hlimit : (2 : ℚ) ^ (-6 : Int) = 1 / 64 := by norm_num
  rw [hlimit] at hsmall
  rw [hquantum] at hnearest ⊢
  have hseven : StuckBelowNormal magnitude ↔
      ¬ nearestUnit (magnitude * 512) ≤ 7 := by
    rw [not_le, eight_of_half (by linarith)]
    constructor
    · intro hstuck
      linarith [hstuck.1]
    · intro hhalf
      exact ⟨by linarith, hsmall⟩
  refine ⟨?_, fun hstuck => ?_, fun hfree => ?_⟩
  · exact lt_of_le_of_lt (min_le_right _ _) (by decide)
  · rw [min_eq_right (not_le.mp (hseven.mp hstuck)).le]
  · rwa [min_eq_left (not_not.mp (mt hseven.mpr hfree))]

theorem code_or (hunit : unit < 2 ^ 3) (hcode : code * 2 ^ 3 + unit < 2 ^ 7) :
    signBit negative ||| code <<< 3 ||| unit =
      signBit negative + (code * 2 ^ 3 + unit) := by
  rw [Nat.or_assoc, ← Nat.shiftLeft_add_eq_or_of_lt hunit, Nat.shiftLeft_eq,
    sign_or hcode]

/-- The exponent of a normal magnitude in range. -/
theorem normal_exponent {scaled : ℚ} {exponent : Int}
    (hnormal : 2 ^ (-6 : Int) ≤ magnitude) (hrange : magnitude ≤ 448)
    (hvalue : magnitude = scaled * 2 ^ exponent) (hlow : 1 ≤ scaled)
    (hhigh : scaled < 2) :
    ∃ shift : Nat, exponent = (shift : Int) - 6 ∧ shift ≤ 14 := by
  have hpos : (0 : ℚ) < 2 ^ exponent := by positivity
  have habove : (2 : ℚ) ^ (-6 : Int) < 2 ^ (exponent + 1) := by
    rw [zpow_add_one₀ two_ne_zero]
    nlinarith
  have hbelow : (2 : ℚ) ^ exponent < 2 ^ (9 : Int) := by
    norm_num
    nlinarith
  rw [zpow_lt_zpow_iff_right₀ one_lt_two] at habove hbelow
  exact ⟨(exponent + 6).toNat, by omega, by omega⟩

/-- The two normal cases: the rounded mantissa fits, or it carries into the
exponent. -/
theorem encode_normal (hnonneg : 0 ≤ magnitude)
    (hnormal : 2 ^ (-6 : Int) ≤ magnitude) (hrange : magnitude ≤ 448) :
    ∃ code, encodeE4m3 (.finite negative magnitude hnonneg) =
        some (signBit negative + code) ∧ Encodes magnitude code := by
  have hpos : 0 < magnitude := lt_of_lt_of_le (by positivity) hnormal
  obtain ⟨scaled, exponent, hnormalize, hvalue, hlow, hhigh⟩ :=
    normalize_spec hpos
  obtain ⟨shift, rfl, hshift⟩ :=
    normal_exponent hnormal hrange hvalue hlow hhigh
  have hnearest := nearest_normal hlow hhigh hvalue
  have hunit : nearestUnit ((scaled - 1) * 8) ≤ 8 :=
    nearestUnit_le (by push_cast; linarith)
  have htop : shift = 14 → nearestUnit ((scaled - 1) * 8) ≤ 6 := by
    rintro rfl
    refine nearestUnit_le ?_
    norm_num at hvalue ⊢
    linarith
  have hfree : ¬ StuckBelowNormal magnitude := by
    rintro ⟨-, hsmall⟩
    norm_num at hnormal hsmall
    linarith
  refine ⟨(shift + 1) * 2 ^ 3 + nearestUnit ((scaled - 1) * 8), ?_,
    by omega, fun hstuck => absurd hstuck hfree, fun _ => hnearest⟩
  simp only [encodeE4m3, hnormalize, Option.bind_eq_bind, Option.bind_some]
  rw [if_neg (by linarith), if_neg hpos.ne', if_neg (not_lt.mpr hnormal)]
  by_cases hcarry : nearestUnit ((scaled - 1) * 8) = 8
  · have hexponent : ((shift : Int) - 6 + 1 + 7).toNat = shift + 2 := by omega
    simp only [hcarry, if_true]
    rw [if_neg (by omega), hexponent,
      code_or (by decide) (by omega)]
    congr 2
    omega
  · have hexponent : ((shift : Int) - 6 + 7).toNat = shift + 1 := by omega
    simp only [hcarry, if_false]
    rw [if_neg (by omega), hexponent, code_or (by omega) (by omega)]

theorem encode_spec (hnonneg : 0 ≤ magnitude) (hrange : magnitude ≤ 448) :
    ∃ code, encodeE4m3 (.finite negative magnitude hnonneg) =
        some (signBit negative + code) ∧ Encodes magnitude code := by
  rcases lt_or_ge magnitude (2 ^ (-6 : Int)) with hsmall | hnormal
  · have hencodes := encodes_subnormal hnonneg hsmall
    refine ⟨_, ?_, hencodes⟩
    simp only [encodeE4m3]
    rw [if_neg (by linarith)]
    by_cases hzero : magnitude = 0
    · have hnone : nearestUnit ((0 : ℚ) / 2 ^ (-9 : Int)) ≤ 0 :=
        nearestUnit_le (by norm_num)
      rw [if_pos hzero, hzero, Nat.le_zero.mp hnone]
      rfl
    · rw [if_neg hzero, if_pos hsmall, sign_or]
      exact lt_of_le_of_lt (min_le_right _ _) (by decide)
  · exact encode_normal hnonneg hnormal hrange

end

/-! The encoded byte as a value. -/

/-- The byte keeps the sign and is finite; no finite byte is nearer, and of two
equally near ones its mantissa is even. -/
structure RoundsToE4m3 (negative : Bool) (magnitude : ℚ) (byte : Nat) :
    Prop where
  sign : decide (byte / 2 ^ 7 = 1) = negative
  nearest : ∃ value, decodeE4m3 byte = some value ∧
    ∀ other otherValue, decodeE4m3 other = some otherValue →
      |signed negative magnitude - value| ≤
          |signed negative magnitude - otherValue| ∧
        (|signed negative magnitude - value| =
            |signed negative magnitude - otherValue| →
          otherValue ≠ value → Even (byte % 2 ^ 3))

section

variable {magnitude : ℚ} {negative : Bool} {code : Nat}

theorem sign_byte (h : code < 2 ^ 7) :
    (signBit negative + code) % 2 ^ 7 = code ∧
      decide ((signBit negative + code) / 2 ^ 7 = 1) = negative := by
  cases negative with
  | false =>
      simp only [signBit, Bool.false_eq_true, if_false, decide_eq_false_iff_not]
      omega
  | true =>
      simp only [signBit, if_true, decide_eq_true_eq]
      omega

theorem decode_sign_byte (h : code < 0x7F) :
    decodeE4m3 (signBit negative + code) =
      some (signed negative (gridValue 3 7 code)) := by
  obtain ⟨hcode, hsign⟩ := @sign_byte negative code (h.trans (by decide))
  have hbit : decide ((signBit negative + code) / 2 ^ 7 % 2 = 1) =
      negative := by
    have hbyte : signBit negative ≤ 0x80 := by
      cases negative with
      | false => exact Nat.zero_le _
      | true => exact le_rfl
    refine Eq.trans ?_ hsign
    rw [decide_eq_decide]
    omega
  rw [decodeE4m3, hcode, if_neg h.ne, hbit]

/-- A nearest code with its sign is a nearest byte. -/
theorem rounds_of_nearest (hnonneg : 0 ≤ magnitude) (hcode : code < 0x7F)
    (h : NearestEven (gridValue 3 7) magnitude code) :
    RoundsToE4m3 negative magnitude (signBit negative + code) := by
  obtain ⟨hlow, hsign⟩ := @sign_byte negative code (hcode.trans (by decide))
  refine ⟨hsign, _, decode_sign_byte hcode, fun other otherValue hother => ?_⟩
  unfold decodeE4m3 at hother
  split at hother
  · cases hother
  · cases hother
    have hnearest := h.signed (gridValue_zero 7) (gridValue_nonneg 7) hnonneg
      negative (other / 2 ^ 7 % 2 = 1) (other % 2 ^ 7)
    refine ⟨hnearest.1, fun heq hne => ?_⟩
    have heven := hnearest.2 heq hne
    rw [Nat.even_iff] at heven ⊢
    omega

/-- Just below the normal magnitudes the largest subnormal is not the nearest
value, or is odd against an even one. -/
theorem not_rounds_of_stuck (h : StuckBelowNormal magnitude) :
    ¬ RoundsToE4m3 negative magnitude (signBit negative + 7) := by
  intro hrounds
  obtain ⟨value, hvalue, hnearest⟩ := hrounds.nearest
  rw [decode_sign_byte (by decide)] at hvalue
  cases hvalue
  obtain ⟨hnear, htie⟩ := hnearest _ _
    (@decode_sign_byte negative 8 (by decide))
  have hseven : gridValue 3 7 7 = 7 / 512 := by norm_num [gridValue]
  have height : gridValue 3 7 8 = 1 / 64 := by norm_num [gridValue]
  rw [abs_signed_sub, abs_signed_sub, hseven, height,
    abs_sub_below (by linarith [h.1]), abs_sub_above h.2.le] at hnear htie
  have hhalf : magnitude - 7 / 512 = 1 / 64 - magnitude := by
    linarith [h.1]
  have hodd := htie hhalf (fun heq => ?_)
  · obtain ⟨hlow, -⟩ := @sign_byte negative 7 (by decide)
    rw [Nat.even_iff] at hodd
    omega
  · have hsame := abs_signed_sub negative (x := 1 / 64) (y := 7 / 512)
    rw [heq, sub_self, abs_zero] at hsame
    norm_num at hsame

/-- Encoding keeps the order of the magnitudes. -/
theorem Encodes.mono {other : ℚ} {otherCode : Nat}
    (h : Encodes magnitude code) (hother : Encodes other otherCode)
    (hlt : magnitude < other) :
    gridValue 3 7 code ≤ gridValue 3 7 otherCode := by
  have hseven : gridValue 3 7 7 = 7 / 512 := by norm_num [gridValue]
  have height : gridValue 3 7 8 = 1 / 64 := by norm_num [gridValue]
  have hmono := @gridValue_strictMono 3 7
  by_cases hstuck : StuckBelowNormal magnitude
  · rw [h.stuck hstuck]
    by_cases hotherStuck : StuckBelowNormal other
    · rw [hother.stuck hotherStuck]
    · have hlarge : 1 / 64 ≤ other := by
        by_contra hsmall
        exact hotherStuck ⟨hstuck.1.trans hlt.le, not_le.mp hsmall⟩
      exact (hmono.monotone (by decide : 7 ≤ 8)).trans
        ((hother.nearest hotherStuck).ge (height ▸ hlarge))
  · have hnearest := h.nearest hstuck
    by_cases hotherStuck : StuckBelowNormal other
    · rw [hother.stuck hotherStuck]
      have hbelow : magnitude < 15 / 1024 := by
        by_contra hlarge
        exact hstuck ⟨not_lt.mp hlarge, hlt.trans hotherStuck.2⟩
      -- the next code is farther away than the seventh
      rcases Nat.lt_or_ge 7 code with hhigh | hlow
      · have hvalue := hmono.monotone (Nat.succ_le_of_lt hhigh)
        rw [Nat.succ_eq_add_one, height] at hvalue
        have hnear := (hnearest 7).1
        rw [abs_sub_above (by linarith)] at hnear
        rcases le_total magnitude (gridValue 3 7 7) with hle | hge
        · rw [abs_sub_above hle] at hnear
          linarith
        · rw [abs_sub_below hge] at hnear
          linarith
      · exact hmono.monotone hlow
    · exact hnearest.mono (hother.nearest hotherStuck) hlt

theorem Encodes.zero (h : Encodes 0 code) : gridValue 3 7 code = 0 := by
  have hfree : ¬ StuckBelowNormal 0 := by
    intro hstuck
    linarith [hstuck.1]
  have hle := (h.nearest hfree).le (gridValue_zero 7).ge
  rw [gridValue_zero] at hle
  exact le_antisymm hle (gridValue_nonneg 7 code)

/-- With the signs of the values. -/
theorem encoded_le {sign : Bool} {other : ℚ} {otherCode : Nat}
    (hnonneg : 0 ≤ magnitude) (hother : 0 ≤ other)
    (hencode : encodeE4m3 (.finite negative magnitude hnonneg) =
      some (signBit negative + code))
    (hotherEncode : encodeE4m3 (.finite sign other hother) =
      some (signBit sign + otherCode))
    (hcode : Encodes magnitude code) (hotherCode : Encodes other otherCode)
    (hle : signed negative magnitude ≤ signed sign other) :
    signed negative (gridValue 3 7 code) ≤
      signed sign (gridValue 3 7 otherCode) := by
  have hleft := @gridValue_nonneg 3 7 code
  have hright := @gridValue_nonneg 3 7 otherCode
  cases negative with
  | false =>
      cases sign with
      | false =>
          rcases lt_or_eq_of_le (show magnitude ≤ other from hle) with
            hlt | rfl
          · exact hcode.mono hotherCode hlt
          · rw [hencode, Option.some.injEq, Nat.add_left_cancel_iff]
              at hotherEncode
            rw [hotherEncode]
      | true =>
          have hneg : magnitude ≤ -other := hle
          have hzero : magnitude = 0 := by linarith
          have hnone : other = 0 := by linarith
          subst hzero hnone
          rw [hcode.zero, hotherCode.zero, signed_zero, signed_zero]
  | true =>
      cases sign with
      | false =>
          exact le_trans (neg_nonpos.mpr hleft) hright
      | true =>
          have hreverse : other ≤ magnitude := neg_le_neg_iff.mp hle
          refine neg_le_neg ?_
          rcases lt_or_eq_of_le hreverse with hlt | rfl
          · exact hotherCode.mono hcode hlt
          · rw [hencode, Option.some.injEq, Nat.add_left_cancel_iff]
              at hotherEncode
            rw [hotherEncode]

end

/-- The encoder rounds to nearest even, but just below the normal magnitudes;
it keeps the order of the values everywhere. -/
theorem encodeE4m3_rounds_iff {magnitude other : ℚ} (negative sign : Bool)
    (hnonneg : 0 ≤ magnitude) (hother : 0 ≤ other) (hrange : magnitude ≤ 448)
    (hotherRange : other ≤ 448) :
    ((∃ byte, encodeE4m3 (.finite negative magnitude hnonneg) = some byte ∧
        RoundsToE4m3 negative magnitude byte) ↔
      ¬ StuckBelowNormal magnitude) ∧
    (signed negative magnitude ≤ signed sign other →
      ∃ byte otherByte value otherValue,
        encodeE4m3 (.finite negative magnitude hnonneg) = some byte ∧
        encodeE4m3 (.finite sign other hother) = some otherByte ∧
        decodeE4m3 byte = some value ∧
        decodeE4m3 otherByte = some otherValue ∧ value ≤ otherValue) := by
  obtain ⟨code, hencode, hcode⟩ := @encode_spec magnitude negative hnonneg
    hrange
  constructor
  · constructor
    · rintro ⟨byte, hbyte, hrounds⟩ hstuck
      rw [hencode, Option.some.injEq] at hbyte
      rw [← hbyte, hcode.stuck hstuck] at hrounds
      exact not_rounds_of_stuck hstuck hrounds
    · intro hfree
      exact ⟨_, hencode,
        rounds_of_nearest hnonneg hcode.finite (hcode.nearest hfree)⟩
  · intro hle
    obtain ⟨otherCode, hotherEncode, hotherCode⟩ := @encode_spec other sign
      hother hotherRange
    refine ⟨_, _, _, _, hencode, hotherEncode, decode_sign_byte hcode.finite,
      decode_sign_byte hotherCode.finite, ?_⟩
    exact encoded_le hnonneg hother hencode hotherEncode hcode hotherCode hle

/-- Seven and three quarters of the smallest subnormal are nearest to eight of
it and come out as seven. -/
theorem encodeE4m3_stuck :
    encodeE4m3 (.finite false (31 / 2048) (by norm_num)) = some 0x07 ∧
      decodeE4m3 0x07 = some (7 / 512) ∧
      decodeE4m3 0x08 = some (8 / 512) ∧
      |(31 / 2048 : ℚ) - 8 / 512| < |(31 / 2048 : ℚ) - 7 / 512| := by
  obtain ⟨code, hencode, hcode⟩ := @encode_spec (31 / 2048) false
    (by norm_num) (by norm_num)
  have hseven := hcode.stuck ⟨by norm_num, by norm_num⟩
  subst hseven
  refine ⟨hencode, ?_, ?_, ?_⟩
  · norm_num [decodeE4m3, signed, gridValue]
  · norm_num [decodeE4m3, signed, gridValue]
  · norm_num [abs_of_pos, abs_of_neg]

/-- A tie between two subnormals and a tie between two normal values go to the
even one and keep their order. -/
theorem encodeE4m3_rounds_iff_ties :
    encodeE4m3 (.finite true (5 / 1024) (by norm_num)) = some 0x82 ∧
      RoundsToE4m3 true (5 / 1024) 0x82 ∧
      encodeE4m3 (.finite false (19 / 16) (by norm_num)) = some 0x3a ∧
      RoundsToE4m3 false (19 / 16) 0x3a ∧
      ∃ value otherValue, decodeE4m3 0x82 = some value ∧
        decodeE4m3 0x3a = some otherValue ∧ value ≤ otherValue := by
  have hlow : encodeE4m3 (.finite true (5 / 1024) (by norm_num)) =
      some 0x82 := by
    decide +kernel
  have hhigh : encodeE4m3 (.finite false (19 / 16) (by norm_num)) =
      some 0x3a := by
    decide +kernel
  have hlowFree : ¬ StuckBelowNormal (5 / 1024) :=
    fun hstuck => absurd hstuck.1 (by norm_num)
  have hhighFree : ¬ StuckBelowNormal (19 / 16) :=
    fun hstuck => absurd hstuck.2 (by norm_num)
  obtain ⟨hround, horder⟩ := @encodeE4m3_rounds_iff (5 / 1024) (19 / 16) true
    false (by norm_num) (by norm_num) (by norm_num) (by norm_num)
  obtain ⟨hother, -⟩ := @encodeE4m3_rounds_iff (19 / 16) (5 / 1024) false
    true (by norm_num) (by norm_num) (by norm_num) (by norm_num)
  obtain ⟨byte, hbyte, hrounds⟩ := hround.mpr hlowFree
  obtain ⟨otherByte, hotherByte, hotherRounds⟩ := hother.mpr hhighFree
  obtain ⟨first, second, value, otherValue, hfirst, hsecond, hvalue,
    hotherValue, hle⟩ := horder (by norm_num [signed])
  rw [hlow, Option.some.injEq] at hbyte hfirst
  rw [hhigh, Option.some.injEq] at hotherByte hsecond
  subst hbyte hotherByte hfirst hsecond
  exact ⟨hlow, hrounds, hhigh, hotherRounds, value, otherValue, hvalue,
    hotherValue, hle⟩

end TensorFS.Python
