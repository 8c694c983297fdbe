import TensorFS.Data.Machine

namespace TensorFS.Data

/-! Decimal numerals: the digits of a number, and the one numeral of a value
that no zero leads. -/

theorem isDigit_of_mem_decimal {n : Nat} {c : Char} (h : c ∈ decimal n) :
    c.isDigit = true :=
  Nat.isDigit_of_mem_toDigits (by decide) (by decide) h

theorem decimal_ne_nil {n : Nat} : decimal n ≠ [] := Nat.toDigits_ne_nil

theorem not_mem_decimal {c : Char} (h : c.isDigit = false) {n : Nat} :
    c ∉ decimal n := by
  intro hmem
  rw [isDigit_of_mem_decimal hmem] at h
  cases h

theorem head?_decimal_ne {c : Char} (h : c.isDigit = false) {n : Nat} :
    (decimal n).head? ≠ some c := by
  intro hhead
  have hmem : c ∈ decimal n := List.mem_of_head? hhead
  exact not_mem_decimal h hmem

theorem digitsValue_append (front : Text) (c : Char) :
    digitsValue (front ++ [c]) = 10 * digitsValue front + digitValue c := by
  simp [digitsValue]

theorem digitsValue_decimal (n : Nat) : digitsValue (decimal n) = n := by
  have h := Nat.ofDigitChars_ten_toDigits (n := n)
  rwa [Nat.ofDigitChars_eq_foldl] at h

theorem decimal_injective : Function.Injective decimal := by
  intro m n h
  rw [← digitsValue_decimal m, h, digitsValue_decimal]

theorem digitChar_digitValue {c : Char} (h : c.isDigit = true) :
    digitValue c < 10 ∧ Nat.digitChar (digitValue c) = c := by
  simp only [Char.isDigit, Bool.and_eq_true, decide_eq_true_eq,
    ge_iff_le] at h
  have hlow := UInt32.le_iff_toNat_le.mp h.1
  have hhigh := UInt32.le_iff_toNat_le.mp h.2
  have hnat : c.toNat = 48 + digitValue c := by
    unfold digitValue
    change 48 ≤ c.toNat at hlow
    change c.toNat = 48 + (c.toNat - 48)
    omega
  have hlt : digitValue c < 10 := by
    change c.toNat ≤ 57 at hhigh
    omega
  have hchar : ∀ d < 10, (Nat.digitChar d).toNat = 48 + d := by decide
  refine ⟨hlt, Char.toNat_inj.mp ?_⟩
  rw [hchar _ hlt, hnat]

/-- No zero leads the numeral of a positive number. -/
theorem head?_decimal_ne_zero {n : Nat} (h : n ≠ 0) :
    (decimal n).head? ≠ some '0' := by
  induction n using Nat.strong_induction_on with
  | _ n ih =>
      unfold decimal
      rw [Nat.toDigits_eq_if (by decide)]
      split
      case isTrue hlt =>
        have hdigit : ∀ d < 10, d ≠ 0 → Nat.digitChar d ≠ '0' := by decide
        simpa using hdigit n hlt h
      case isFalse hge =>
        have hrest := ih (n / 10) (by omega) (by omega)
        rw [List.head?_append_of_ne_nil _ Nat.toDigits_ne_nil]
        exact hrest

/-- Digits that no zero leads are the numeral of their value. -/
theorem decimal_digitsValue {digits : Text} (hne : digits ≠ [])
    (hdigits : ∀ c ∈ digits, c.isDigit = true)
    (hzero : digits.head? ≠ some '0') : decimal (digitsValue digits) = digits := by
  induction digits using List.reverseRecOn with
  | nil => exact absurd rfl hne
  | append_singleton front c ih =>
      obtain ⟨hlt, hchar⟩ := digitChar_digitValue (hdigits c (by simp))
      by_cases hfront : front = []
      · subst hfront
        unfold decimal
        rw [digitsValue_append, show digitsValue [] = 0 from rfl, Nat.mul_zero,
          Nat.zero_add, Nat.toDigits_of_lt_base hlt, hchar]
        rfl
      · have hhead : front.head? ≠ some '0' := by
          rwa [List.head?_append_of_ne_nil _ hfront] at hzero
        have hrest := ih hfront
          (fun d hmem => hdigits d (List.mem_append_left _ hmem)) hhead
        have hpos : 0 < digitsValue front := by
          rw [Nat.pos_iff_ne_zero]
          intro hnil
          rw [hnil] at hrest
          rw [← hrest] at hhead
          exact hhead rfl
        rw [digitsValue_append, decimal,
          ← Nat.toDigits_append_toDigits (by decide) hpos hlt,
          Nat.toDigits_of_lt_base hlt, hchar]
        unfold decimal at hrest
        rw [hrest]

/-- A numeral is spelled in one way when no zero leads it. -/
theorem decimal_eq_iff {digits : Text} (hne : digits ≠ [])
    (hdigits : ∀ c ∈ digits, c.isDigit = true) (hvalue : digitsValue digits ≠ 0) :
    decimal (digitsValue digits) = digits ↔ digits.head? ≠ some '0' := by
  constructor
  · intro h
    rw [← h]
    exact head?_decimal_ne_zero hvalue
  · exact decimal_digitsValue hne hdigits

end TensorFS.Data
