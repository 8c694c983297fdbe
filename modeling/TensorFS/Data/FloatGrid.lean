import Mathlib

namespace TensorFS.Data

/-! The magnitudes a binary floating-point format can spell, in code order, and
what it means to round to them. -/

/-- The code's magnitude, in units of the smallest subnormal; `bits` mantissa
bits stand below the exponent. -/
def gridUnits (bits code : Nat) : Nat :=
  if code / 2 ^ bits = 0 then code % 2 ^ bits
  else (2 ^ bits + code % 2 ^ bits) * 2 ^ (code / 2 ^ bits - 1)

/-- The magnitude as the format defines it, from a biased exponent. -/
def gridValue (bits : Nat) (bias : Int) (code : Nat) : ℚ :=
  if code / 2 ^ bits = 0 then
    (code % 2 ^ bits : Nat) / 2 ^ bits * 2 ^ (1 - bias)
  else
    (1 + (code % 2 ^ bits : Nat) / 2 ^ bits) *
      2 ^ ((code / 2 ^ bits : Nat) - bias)

section

variable {bits code offset : Nat}

theorem gridUnits_of_lt (h : code < 2 ^ bits) : gridUnits bits code = code := by
  rw [gridUnits, if_pos (Nat.div_eq_of_lt h), Nat.mod_eq_of_lt h]

theorem gridUnits_of_ge {exponent mantissa : Nat}
    (h : mantissa < 2 ^ bits) :
    gridUnits bits ((exponent + 1) * 2 ^ bits + mantissa) =
      (2 ^ bits + mantissa) * 2 ^ exponent := by
  have hpos := Nat.two_pow_pos bits
  have hdiv : ((exponent + 1) * 2 ^ bits + mantissa) / 2 ^ bits =
      exponent + 1 := by
    rw [Nat.mul_comm, Nat.mul_add_div hpos, Nat.div_eq_of_lt h, Nat.add_zero]
  have hmod : ((exponent + 1) * 2 ^ bits + mantissa) % 2 ^ bits =
      mantissa := by
    rw [Nat.mul_comm, Nat.mul_add_mod, Nat.mod_eq_of_lt h]
  rw [gridUnits, hdiv, hmod, if_neg (Nat.succ_ne_zero exponent),
    Nat.add_sub_cancel]

/-- Within one exponent the grid is even, up to the first code of the next. -/
theorem gridUnits_add (h : code % 2 ^ bits + offset ≤ 2 ^ bits) :
    gridUnits bits (code + offset) =
      gridUnits bits code + offset * 2 ^ (code / 2 ^ bits - 1) := by
  have hpos := Nat.two_pow_pos bits
  have hsplit := Nat.div_add_mod code (2 ^ bits)
  have hmod := Nat.mod_lt code hpos
  set exponent := code / 2 ^ bits
  set mantissa := code % 2 ^ bits
  rw [← hsplit, Nat.mul_comm]
  cases exponent with
  | zero =>
      rw [Nat.zero_mul, Nat.zero_add, gridUnits_of_lt hmod, Nat.zero_sub,
        Nat.pow_zero, Nat.mul_one]
      rcases Nat.lt_or_ge (mantissa + offset) (2 ^ bits) with hlt | hge
      · exact gridUnits_of_lt hlt
      · have hend : mantissa + offset = (0 + 1) * 2 ^ bits + 0 := by omega
        rw [hend, gridUnits_of_ge hpos]
        omega
  | succ exponent =>
      rw [Nat.add_assoc, gridUnits_of_ge hmod, Nat.add_sub_cancel]
      rcases Nat.lt_or_ge (mantissa + offset) (2 ^ bits) with hlt | hge
      · rw [gridUnits_of_ge hlt]
        ring
      · have hend : (exponent + 1) * 2 ^ bits + (mantissa + offset) =
            (exponent + 1 + 1) * 2 ^ bits + 0 := by
          rw [Nat.succ_mul (exponent + 1)]
          omega
        rw [hend, gridUnits_of_ge hpos, ← Nat.add_mul, Nat.add_assoc,
          Nat.le_antisymm h hge, Nat.pow_succ]
        ring

theorem gridUnits_succ : gridUnits bits (code + 1) =
    gridUnits bits code + 2 ^ (code / 2 ^ bits - 1) := by
  rw [gridUnits_add (Nat.mod_lt code (Nat.two_pow_pos bits)), Nat.one_mul]

theorem gridUnits_strictMono : StrictMono (gridUnits bits) :=
  strictMono_nat_of_lt_succ fun code => by
    rw [gridUnits_succ]
    exact Nat.lt_add_of_pos_right (Nat.two_pow_pos _)

@[simp] theorem gridUnits_zero : gridUnits bits 0 = 0 :=
  gridUnits_of_lt (Nat.two_pow_pos bits)

/-- More mantissa bits refine the grid. -/
theorem gridUnits_refine (extra : Nat) :
    gridUnits (bits + extra) (code * 2 ^ extra) =
      gridUnits bits code * 2 ^ extra := by
  have hpos := Nat.two_pow_pos extra
  have hdiv : code * 2 ^ extra / 2 ^ (bits + extra) = code / 2 ^ bits := by
    rw [Nat.pow_add, Nat.mul_div_mul_right _ _ hpos]
  have hmod : code * 2 ^ extra % 2 ^ (bits + extra) =
      code % 2 ^ bits * 2 ^ extra := by
    rw [Nat.pow_add, Nat.mul_mod_mul_right]
  rw [gridUnits, gridUnits, hdiv, hmod]
  split
  · rfl
  · rw [Nat.pow_add]
    ring

theorem gridValue_eq (bits : Nat) (bias : Int) (code : Nat) :
    gridValue bits bias code =
      gridUnits bits code * 2 ^ (1 - bias - bits : Int) := by
  have hscale : (2 : ℚ) ^ (1 - bias - bits : Int) =
      2 ^ (1 - bias) / 2 ^ bits := by
    rw [zpow_sub₀ two_ne_zero, zpow_natCast]
  have hne : (2 : ℚ) ^ bits ≠ 0 := by positivity
  rw [gridValue, gridUnits, hscale]
  split
  · rw [div_mul_eq_mul_div, mul_div_assoc]
  · rename_i hexponent
    have hshift : (2 : ℚ) ^ ((code / 2 ^ bits : Nat) - bias) =
        2 ^ (code / 2 ^ bits - 1) * 2 ^ (1 - bias) := by
      rw [← zpow_natCast, ← zpow_add₀ two_ne_zero]
      congr 1
      have hpos := Nat.pos_of_ne_zero hexponent
      push_cast [Nat.cast_sub hpos]
      ring
    rw [hshift]
    push_cast
    field_simp

theorem gridValue_zero (bias : Int) : gridValue bits bias 0 = 0 := by
  rw [gridValue_eq, gridUnits_zero, Nat.cast_zero, zero_mul]

theorem gridValue_strictMono (bias : Int) :
    StrictMono (gridValue bits bias) := by
  intro left right hlt
  rw [gridValue_eq, gridValue_eq]
  exact mul_lt_mul_of_pos_right
    (Nat.cast_lt.mpr (gridUnits_strictMono hlt)) (by positivity)

theorem gridValue_nonneg (bias : Int) (code : Nat) :
    0 ≤ gridValue bits bias code := by
  rw [gridValue_eq]
  positivity

/-- Codes of a finer format stand at even steps between those of the coarser
one. -/
theorem gridValue_offset {extra : Nat} (bias : Int)
    (h : offset ≤ 2 ^ extra) :
    gridValue (bits + extra) bias (code * 2 ^ extra + offset) =
      gridValue bits bias code + offset *
        (2 ^ (code / 2 ^ bits - 1) * 2 ^ (1 - bias - (bits + extra) : Int)) := by
  have hpos := Nat.two_pow_pos extra
  have hdiv : code * 2 ^ extra / 2 ^ (bits + extra) = code / 2 ^ bits := by
    rw [Nat.pow_add, Nat.mul_div_mul_right _ _ hpos]
  have hroom : code * 2 ^ extra % 2 ^ (bits + extra) + offset ≤
      2 ^ (bits + extra) := by
    have hmod := Nat.mod_lt code (Nat.two_pow_pos bits)
    calc code * 2 ^ extra % 2 ^ (bits + extra) + offset
        = code % 2 ^ bits * 2 ^ extra + offset := by
          rw [Nat.pow_add, Nat.mul_mod_mul_right]
      _ ≤ (code % 2 ^ bits + 1) * 2 ^ extra := by
          rw [Nat.succ_mul]
          exact Nat.add_le_add_left h _
      _ ≤ 2 ^ bits * 2 ^ extra := Nat.mul_le_mul_right _ hmod
      _ = 2 ^ (bits + extra) := (Nat.pow_add 2 bits extra).symm
  have hscale : (2 : ℚ) ^ (1 - bias - bits : Int) =
      2 ^ extra * 2 ^ (1 - bias - (bits + extra) : Int) := by
    rw [← zpow_natCast, ← zpow_add₀ two_ne_zero]
    congr 1
    ring
  rw [gridValue_eq, gridValue_eq, gridUnits_add hroom, gridUnits_refine,
    hdiv, hscale]
  push_cast
  ring

end

/-! Rounding to a grid of magnitudes. -/

/-- No other value of the grid is nearer, and of two equally near ones the
code is even. -/
def NearestEven (grid : Nat → ℚ) (x : ℚ) (code : Nat) : Prop :=
  ∀ other, |x - grid code| ≤ |x - grid other| ∧
    (|x - grid code| = |x - grid other| → other ≠ code → Even code)

section

variable {grid : Nat → ℚ} {x y : ℚ} {code other : Nat}

theorem abs_sub_below (h : y ≤ x) : |x - y| = x - y :=
  abs_of_nonneg (sub_nonneg.mpr h)

theorem abs_sub_above (h : x ≤ y) : |x - y| = y - x := by
  rw [abs_sub_comm]
  exact abs_sub_below h

theorem NearestEven.of_low (hgrid : StrictMono grid)
    (hlow : grid code ≤ x) (hhigh : x ≤ grid (code + 1))
    (hnear : x - grid code ≤ grid (code + 1) - x)
    (heven : x - grid code = grid (code + 1) - x → Even code) :
    NearestEven grid x code := by
  intro other
  rw [abs_sub_below hlow]
  rcases Nat.lt_or_ge code other with habove | hbelow
  · have hother := hgrid.monotone habove
    rw [Nat.succ_eq_add_one] at hother
    rw [abs_sub_above (hhigh.trans hother)]
    exact ⟨by linarith, fun heq _ => heven (by linarith)⟩
  · have hother := hgrid.monotone hbelow
    rw [abs_sub_below (hother.trans hlow)]
    refine ⟨by linarith, fun heq hne => ?_⟩
    exact absurd (hgrid.injective (by linarith)) hne

theorem NearestEven.of_high (hgrid : StrictMono grid)
    (hlow : grid code ≤ x) (hhigh : x ≤ grid (code + 1))
    (hnear : grid (code + 1) - x ≤ x - grid code)
    (heven : x - grid code = grid (code + 1) - x → Even (code + 1)) :
    NearestEven grid x (code + 1) := by
  intro other
  rw [abs_sub_above hhigh]
  rcases Nat.lt_or_ge code other with habove | hbelow
  · have hother := hgrid.monotone habove
    rw [Nat.succ_eq_add_one] at hother
    rw [abs_sub_above (hhigh.trans hother)]
    refine ⟨by linarith, fun heq hne => ?_⟩
    exact absurd (hgrid.injective (by linarith)) hne
  · have hother := hgrid.monotone hbelow
    rw [abs_sub_below (hother.trans hlow)]
    exact ⟨by linarith, fun heq _ => heven (by linarith)⟩

/-- Rounding does not cross a value of the grid. -/
theorem NearestEven.le (h : NearestEven grid x code) (hx : x ≤ grid other) :
    grid code ≤ grid other := by
  by_contra hlt
  have hnear := (h other).1
  rw [abs_sub_above hx, abs_sub_above (hx.trans (not_le.mp hlt).le)] at hnear
  linarith

theorem NearestEven.ge (h : NearestEven grid x code) (hx : grid other ≤ x) :
    grid other ≤ grid code := by
  by_contra hlt
  have hnear := (h other).1
  rw [abs_sub_below hx, abs_sub_below ((not_le.mp hlt).le.trans hx)] at hnear
  linarith

/-- Rounding keeps the order. -/
theorem NearestEven.mono (hx : NearestEven grid x code)
    (hy : NearestEven grid y other) (hlt : x < y) :
    grid code ≤ grid other := by
  by_contra hgt
  have hgt := not_le.mp hgt
  have hleft := (hx other).1
  have hright := (hy code).1
  rcases le_total x (grid other) with hxo | hxo
  · rw [abs_sub_above hxo, abs_sub_above (hxo.trans hgt.le)] at hleft
    linarith
  · rw [abs_sub_below hxo] at hleft
    rw [abs_sub_below (hxo.trans hlt.le)] at hright
    have hreach := neg_le_abs (x - grid code)
    rcases le_total (grid code) y with hcy | hcy
    · rw [abs_sub_below hcy] at hright
      linarith
    · rw [abs_sub_above hcy] at hright
      linarith

/-- The part of a step beyond a code decides: past the half, or at the half
from an odd code, the next one is taken. -/
theorem NearestEven.round (hgrid : StrictMono grid) {part : ℚ}
    (hpart : 0 ≤ part) (hone : part ≤ 1) :
    NearestEven grid (grid code + part * (grid (code + 1) - grid code))
      (code + if 1 / 2 < part ∨ (part = 1 / 2 ∧ code % 2 = 1) then 1
        else 0) := by
  have hstep : 0 < grid (code + 1) - grid code :=
    sub_pos.mpr (hgrid (Nat.lt_succ_self code))
  set step := grid (code + 1) - grid code with hdef
  have hnext : grid (code + 1) = grid code + step := by rw [hdef]; ring
  have hbelow : grid code + part * step - grid code = part * step :=
    add_sub_cancel_left _ _
  have habove : grid (code + 1) - (grid code + part * step) =
      (1 - part) * step := by
    rw [hnext]
    ring
  have hlow : grid code ≤ grid code + part * step :=
    le_add_of_nonneg_right (mul_nonneg hpart hstep.le)
  have hhigh : grid code + part * step ≤ grid (code + 1) := by
    rw [← sub_nonneg, habove]
    exact mul_nonneg (sub_nonneg.mpr hone) hstep.le
  have htie : part * step = (1 - part) * step → part = 1 / 2 := by
    intro heq
    have hcancel := mul_right_cancel₀ hstep.ne' heq
    linarith
  split
  · rename_i hup
    have hhalf : 1 / 2 ≤ part := hup.elim le_of_lt fun heq => heq.1.ge
    apply NearestEven.of_high hgrid hlow hhigh
    · rw [hbelow, habove]
      exact mul_le_mul_of_nonneg_right (by linarith) hstep.le
    · rw [hbelow, habove]
      intro heq
      have hodd := hup.resolve_left (htie heq).not_gt
      rw [Nat.even_add_one, Nat.even_iff]
      omega
  · rename_i hdown
    push Not at hdown
    rw [add_zero]
    apply NearestEven.of_low hgrid hlow hhigh
    · rw [hbelow, habove]
      exact mul_le_mul_of_nonneg_right (by linarith [hdown.1]) hstep.le
    · rw [hbelow, habove]
      intro heq
      have hodd := hdown.2 (htie heq)
      rw [Nat.even_iff]
      omega

/-- Dropping low bits rounds to nearest, ties to even, when the code goes up
past the half and at the half from an odd one. -/
theorem nearestEven_drop (bits extra : Nat) (bias : Int) (code offset : Nat)
    (h : offset < 2 ^ extra) :
    NearestEven (gridValue bits bias)
      (gridValue (bits + extra) bias (code * 2 ^ extra + offset))
      (code + if 2 ^ extra < 2 * offset ∨ (2 * offset = 2 ^ extra ∧
        code % 2 = 1) then 1 else 0) := by
  have hpos : (0 : ℚ) < (2 ^ extra : Nat) :=
    Nat.cast_pos.mpr (Nat.two_pow_pos extra)
  have hnext := @gridValue_offset bits (code + 1) 0 extra bias
    (Nat.zero_le (2 ^ extra))
  rw [Nat.cast_zero, zero_mul, add_zero, add_zero, Nat.succ_mul,
    gridValue_offset bias le_rfl] at hnext
  have hvalue : gridValue (bits + extra) bias (code * 2 ^ extra + offset) =
      gridValue bits bias code + (offset / (2 ^ extra : Nat) : ℚ) *
        (gridValue bits bias (code + 1) - gridValue bits bias code) := by
    rw [gridValue_offset bias h.le, ← hnext, add_sub_cancel_left]
    congr 1
    rw [← mul_assoc (_ / _), div_mul_cancel₀ _ hpos.ne']
  have hlarge : 1 / 2 < (offset / (2 ^ extra : Nat) : ℚ) ↔
      2 ^ extra < 2 * offset := by
    rw [lt_div_iff₀ hpos, one_div_mul_eq_div, div_lt_iff₀ two_pos, mul_comm]
    exact_mod_cast Iff.rfl
  have hhalf : (offset / (2 ^ extra : Nat) : ℚ) = 1 / 2 ↔
      2 * offset = 2 ^ extra := by
    rw [div_eq_iff hpos.ne', one_div_mul_eq_div, eq_div_iff two_ne_zero,
      mul_comm]
    exact_mod_cast Iff.rfl
  have hround := @NearestEven.round (gridValue bits bias) code
    (gridValue_strictMono bias) (offset / (2 ^ extra : Nat))
    (by positivity)
    ((div_le_one hpos).mpr (Nat.cast_le.mpr h.le))
  rw [hvalue]
  simp only [hlarge, hhalf] at hround
  exact hround

/-! Signed magnitudes. -/

def signed (negative : Bool) (x : ℚ) : ℚ := if negative then -x else x

theorem abs_signed_sub (negative : Bool) :
    |signed negative x - signed negative y| = |x - y| := by
  cases negative with
  | false => rfl
  | true =>
      rw [abs_sub_comm x y]
      exact congrArg abs (neg_sub_neg x y)

theorem abs_signed_sub_not (negative : Bool) :
    |signed negative x - signed (!negative) y| = |x + y| := by
  cases negative with
  | false => exact congrArg abs (sub_neg_eq_add x y)
  | true =>
      rw [← abs_neg (x + y), neg_add']
      rfl

theorem signed_zero (negative : Bool) : signed negative 0 = 0 := by
  cases negative with
  | false => rfl
  | true => exact neg_zero

/-- A sign does not bring a value nearer. -/
theorem NearestEven.signed (h : NearestEven grid x code)
    (hzero : grid 0 = 0) (hgrid : ∀ other, 0 ≤ grid other) (hx : 0 ≤ x)
    (negative sign : Bool) (other : Nat) :
    |signed negative x - signed negative (grid code)| ≤
        |signed negative x - signed sign (grid other)| ∧
      (|signed negative x - signed negative (grid code)| =
          |signed negative x - signed sign (grid other)| →
        signed sign (grid other) ≠ signed negative (grid code) →
          Even code) := by
  rw [abs_signed_sub]
  rcases Bool.eq_or_eq_not sign negative with rfl | rfl
  · rw [abs_signed_sub]
    refine ⟨(h other).1, fun heq hne => (h other).2 heq fun hsame => ?_⟩
    exact hne (by rw [hsame])
  · have hother := hgrid other
    rw [abs_signed_sub_not, abs_of_nonneg (add_nonneg hx hother)]
    have hnear := h 0
    rw [hzero, sub_zero, abs_of_nonneg hx] at hnear
    refine ⟨by linarith [hnear.1], fun heq hne => ?_⟩
    have hnone : grid other = 0 := by linarith [hnear.1]
    rw [hnone, add_zero] at heq
    refine hnear.2 heq fun hcode => hne ?_
    rw [← hcode, hzero, hnone, signed_zero, signed_zero]

end

end TensorFS.Data
