import TensorFS.Data.Text

namespace TensorFS.Data

/-! Checked 64-bit arithmetic on naturals. -/

def checkedAdd (a b : Nat) : Option Nat :=
  if a + b < 2 ^ 64 then some (a + b) else none

def checkedMul (a b : Nat) : Option Nat :=
  if a * b < 2 ^ 64 then some (a * b) else none

@[simp] theorem checkedAdd_eq_some {a b c : Nat} :
    checkedAdd a b = some c ↔ c = a + b ∧ a + b < 2 ^ 64 := by
  unfold checkedAdd
  split
  · rename_i hlt
    rw [Option.some.injEq]
    exact ⟨fun heq => ⟨heq.symm, hlt⟩, fun h => h.1.symm⟩
  · rename_i hlt
    exact ⟨fun h => (by cases h), fun h => absurd h.2 hlt⟩

@[simp] theorem checkedMul_eq_some {a b c : Nat} :
    checkedMul a b = some c ↔ c = a * b ∧ a * b < 2 ^ 64 := by
  unfold checkedMul
  split
  · rename_i hlt
    rw [Option.some.injEq]
    exact ⟨fun heq => ⟨heq.symm, hlt⟩, fun h => h.1.symm⟩
  · rename_i hlt
    exact ⟨fun h => (by cases h), fun h => absurd h.2 hlt⟩

/-- The product of the factors, `none` as soon as it leaves 64 bits. -/
def checkedProduct : Nat → List Nat → Option Nat
  | product, [] => some product
  | product, n :: rest => do
      let product ← checkedMul product n
      checkedProduct product rest

theorem checkedProduct_eq {product result : Nat} {factors : List Nat}
    (h : checkedProduct product factors = some result) :
    result = product * factors.prod := by
  induction factors generalizing product with
  | nil =>
      cases h
      rw [List.prod_nil, Nat.mul_one]
  | cons factor factors ih =>
      simp only [checkedProduct, Option.bind_eq_bind, Option.bind_eq_some_iff,
        checkedMul_eq_some] at h
      obtain ⟨next, ⟨rfl, -⟩, h⟩ := h
      rw [ih h, List.prod_cons, Nat.mul_assoc]

theorem checkedProduct_lt {product result : Nat} {factors : List Nat}
    (hproduct : product < 2 ^ 64)
    (h : checkedProduct product factors = some result) :
    result < 2 ^ 64 := by
  induction factors generalizing product with
  | nil =>
      cases h
      exact hproduct
  | cons factor factors ih =>
      simp only [checkedProduct, Option.bind_eq_bind, Option.bind_eq_some_iff,
        checkedMul_eq_some] at h
      obtain ⟨next, ⟨rfl, hnext⟩, h⟩ := h
      exact ih hnext h

/-! A call that ends without a value either returns its own error or
unwinds. -/

inductive Failure (ε : Type) where
  | refused (error : ε)
  | panicked
  deriving DecidableEq

/-- A call that cannot panic, inside one that can. -/
def refusing {ε α : Type} : Except ε α → Except (Failure ε) α
  | .ok value => .ok value
  | .error refusal => .error (.refused refusal)

@[simp] theorem refusing_eq_ok {ε α : Type} {x : Except ε α} {a : α} :
    refusing x = .ok a ↔ x = .ok a := by
  cases x <;> simp [refusing]

/-! Decimal text. -/

def isAsciiDigit (c : Char) : Bool := '0' ≤ c && c ≤ '9'

def digitValue (c : Char) : Nat := c.toNat - '0'.toNat

def digitsValue (digits : Text) : Nat :=
  digits.foldl (fun value c => 10 * value + digitValue c) 0

/-- The standard library's reading of an unsigned decimal: an optional plus
sign, at least one digit, and a value that fits. -/
def parseU64 (text : Text) : Option Nat :=
  let digits := if text.head? = some '+' then text.tail else text
  if digits ≠ [] ∧ digits.all isAsciiDigit ∧ digitsValue digits < 2 ^ 64 then
    some (digitsValue digits)
  else
    none

def decimal (n : Nat) : Text := (Nat.toDigits 10 n)

end TensorFS.Data
