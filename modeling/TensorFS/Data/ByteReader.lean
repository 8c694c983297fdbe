import Mathlib

namespace TensorFS.Data

/-! Fallible computations and byte readers.  A reader consumes a prefix of its
input; every refusal names an error. -/

abbrev Bytes := List UInt8

def ensure (p : Prop) [Decidable p] (refusal : ε) : Except ε Unit :=
  if p then .ok () else .error refusal

@[simp] theorem ensure_eq_ok {p : Prop} [Decidable p] {refusal : ε}
    {u : Unit} : ensure p refusal = .ok u ↔ p := by
  unfold ensure
  split <;> simp_all

theorem ensure_of {p : Prop} [Decidable p] {refusal : ε} (h : p) :
    ensure p refusal = .ok () := ensure_eq_ok.mpr h

theorem ensure_of_not {p : Prop} [Decidable p] {refusal : ε} (h : ¬ p) :
    ensure p refusal = .error refusal := by
  simp [ensure, h]

@[simp] theorem except_bind_eq_ok {x : Except ε α} {f : α → Except ε β}
    {b : β} : (x >>= f) = .ok b ↔ ∃ a, x = .ok a ∧ f a = .ok b := by
  cases x with
  | error e => simp [bind, Except.bind]
  | ok a => simp [bind, Except.bind]

@[simp] theorem except_ok_bind {a : α} {f : α → Except ε β} :
    ((Except.ok a : Except ε α) >>= f) = f a := rfl

@[simp] theorem except_error_bind {e : ε} {f : α → Except ε β} :
    ((Except.error e : Except ε α) >>= f) = .error e := rfl

@[simp] theorem except_pure_eq_ok {a b : α} :
    (pure a : Except ε α) = .ok b ↔ a = b := by
  simp [pure, Except.pure]

@[simp] theorem except_map_eq_ok {x : Except ε α} {f : α → β} {b : β} :
    (f <$> x) = .ok b ↔ ∃ a, x = .ok a ∧ f a = b := by
  cases x with
  | error e => simp [Functor.map, Except.map]
  | ok a => simp [Functor.map, Except.map]

theorem toOption_bind {ε α β : Type} (x : Except ε α) (f : α → Except ε β) :
    (x >>= f).toOption = x.toOption.bind fun a => (f a).toOption := by
  cases x <;> rfl

theorem toOption_eq_some {ε α : Type} {x : Except ε α} {a : α} :
    x.toOption = some a ↔ x = .ok a := by
  cases x <;> simp [Except.toOption]

@[simp] theorem toOption_ok {ε α : Type} (a : α) :
    (Except.ok a : Except ε α).toOption = some a := rfl

@[simp] theorem toOption_error {ε α : Type} (e : ε) :
    (Except.error e : Except ε α).toOption = none := rfl

theorem toOption_ensure {ε : Type} (p : Prop) [Decidable p] (refusal : ε) :
    (ensure p refusal).toOption = if p then some () else none := by
  unfold ensure
  split <;> rfl

theorem mapError_eq_ok {ε δ α : Type} {x : Except ε α} {f : ε → δ} {a : α} :
    x.mapError f = .ok a ↔ x = .ok a := by
  cases x <;> simp [Except.mapError]

theorem except_map_bind {ε α β γ : Type} {x : Except ε α}
    {f : α → Except ε β} {g : β → γ} :
    (x >>= f).map g = x >>= fun a => (f a).map g := by
  cases x with
  | error refusal => rfl
  | ok a => rfl

theorem except_bind_congr {ε α β : Type} {x : Except ε α}
    {f g : α → Except ε β} (h : ∀ a, f a = g a) : x >>= f = x >>= g := by
  rw [funext h]

theorem mapM_except_eq_ok {α β ε : Type} {f : α → Except ε β} {xs : List α}
    {ys : List β} (h : xs.mapM f = .ok ys) :
    List.Forall₂ (fun x y => f x = .ok y) xs ys := by
  induction xs generalizing ys with
  | nil =>
      cases h
      exact List.Forall₂.nil
  | cons x xs ih =>
      rw [List.mapM_cons] at h
      simp only [except_bind_eq_ok] at h
      obtain ⟨y, hy, rest, hrest, hcons⟩ := h
      cases hcons
      exact List.Forall₂.cons hy (ih hrest)

theorem mapM_eq_ok_iff {α β ε : Type} {f : α → Except ε β} {xs : List α}
    {ys : List β} :
    xs.mapM f = .ok ys ↔ List.Forall₂ (fun x y => f x = .ok y) xs ys := by
  refine ⟨mapM_except_eq_ok, fun h => ?_⟩
  induction h with
  | nil => rfl
  | cons hhead _ ih =>
      rw [List.mapM_cons, hhead, except_ok_bind, ih]
      rfl

theorem exists_forall₂_iff {α β : Type} {related : α → β → Prop}
    {xs : List α} :
    (∃ ys, List.Forall₂ related xs ys) ↔ ∀ x ∈ xs, ∃ y, related x y := by
  induction xs with
  | nil => simp
  | cons x xs ih =>
      simp only [List.forall₂_cons_left_iff, List.forall_mem_cons, ← ih]
      constructor
      · intro h
        obtain ⟨ys, y, rest, hy, hrest, _⟩ := h
        exact ⟨⟨y, hy⟩, rest, hrest⟩
      · intro h
        obtain ⟨⟨y, hy⟩, rest, hrest⟩ := h
        exact ⟨y :: rest, y, rest, hy, hrest, rfl⟩

theorem map_eq_of_forall₂ {α β γ : Type} {related : α → β → Prop} {f : α → γ}
    {g : β → γ} {xs : List α} {ys : List β}
    (h : List.Forall₂ related xs ys)
    (heq : ∀ x y, related x y → f x = g y) : xs.map f = ys.map g := by
  induction h with
  | nil => rfl
  | cons hhead _ ih => rw [List.map_cons, List.map_cons, heq _ _ hhead, ih]

theorem mem_of_mapM {α β ε : Type} {f : α → Except ε β} {xs : List α}
    {ys : List β} (h : xs.mapM f = .ok ys) {y : β} (hy : y ∈ ys) :
    ∃ x ∈ xs, f x = .ok y := by
  induction xs generalizing ys with
  | nil =>
      cases h
      cases hy
  | cons x xs ih =>
      rw [List.mapM_cons] at h
      simp only [except_bind_eq_ok] at h
      obtain ⟨first, hfirst, rest, hrest, hcons⟩ := h
      cases hcons
      rcases List.mem_cons.mp hy with rfl | hy
      · exact ⟨x, List.mem_cons_self, hfirst⟩
      · obtain ⟨other, hother, hf⟩ := ih hrest hy
        exact ⟨other, List.mem_cons_of_mem _ hother, hf⟩

@[simp] theorem exists_unit {p : Unit → Prop} : (∃ u, p u) ↔ p () :=
  ⟨fun ⟨_, h⟩ => h, fun h => ⟨(), h⟩⟩

def checkAll (check : α → Except ε Unit) : List α → Except ε Unit
  | [] => .ok ()
  | x :: xs => do
      check x
      checkAll check xs

theorem checkAll_eq_ok {check : α → Except ε Unit} {xs : List α} {u : Unit} :
    checkAll check xs = .ok u ↔ ∀ x ∈ xs, check x = .ok () := by
  induction xs with
  | nil => simp [checkAll]
  | cons x xs ih => simp [checkAll, ih]

abbrev Reader (ε α : Type) := StateT Bytes (Except ε) α

namespace Reader

variable {ε α β : Type}

theorem bind_eq_ok {m : Reader ε α} {f : α → Reader ε β} {input rest : Bytes}
    {b : β} :
    (m >>= f) input = .ok (b, rest) ↔
      ∃ a middle, m input = .ok (a, middle) ∧ f a middle = .ok (b, rest) := by
  show (m input >>= fun p => f p.1 p.2) = .ok (b, rest) ↔ _
  rw [except_bind_eq_ok]
  constructor
  · rintro ⟨⟨a, middle⟩, hm, hf⟩
    exact ⟨a, middle, hm, hf⟩
  · rintro ⟨a, middle, hm, hf⟩
    exact ⟨(a, middle), hm, hf⟩

theorem bind_of_ok {m : Reader ε α} {f : α → Reader ε β}
    {input middle : Bytes} {a : α} (h : m input = .ok (a, middle)) :
    (m >>= f) input = f a middle := by
  show (m input >>= fun p => f p.1 p.2) = _
  rw [h]
  rfl

@[simp] theorem pure_apply (a : α) (input : Bytes) :
    (pure a : Reader ε α) input = .ok (a, input) := rfl

def ensure (p : Prop) [Decidable p] (refusal : ε) : Reader ε Unit :=
  fun input => if p then .ok ((), input) else .error refusal

@[simp] theorem ensure_eq_ok {p : Prop} [Decidable p] {refusal : ε}
    {input : Bytes} {r : Unit × Bytes} :
    ensure p refusal input = .ok r ↔ p ∧ r = ((), input) := by
  unfold ensure
  split
  · rename_i h
    constructor
    · intro heq
      exact ⟨h, by cases heq; rfl⟩
    · rintro ⟨_, rfl⟩
      rfl
  · rename_i h
    simp [h]

def lift (x : Except ε α) : Reader ε α :=
  fun input => x.map fun a => (a, input)

@[simp] theorem lift_eq_ok {x : Except ε α} {input : Bytes} {r : α × Bytes} :
    lift x input = .ok r ↔ x = .ok r.1 ∧ r.2 = input := by
  cases x with
  | error e => simp [lift, Except.map]
  | ok a =>
      obtain ⟨b, rest⟩ := r
      simp only [lift, Except.map, Except.ok.injEq, Prod.mk.injEq]
      constructor
      · rintro ⟨rfl, rfl⟩
        exact ⟨rfl, rfl⟩
      · rintro ⟨rfl, rfl⟩
        exact ⟨rfl, rfl⟩

def fail (refusal : ε) : Reader ε α := fun _ => .error refusal

@[simp] theorem fail_ne_ok {refusal : ε} {input : Bytes} {r : α × Bytes} :
    (fail refusal : Reader ε α) input ≠ .ok r := by
  simp [fail]

def remaining : Reader ε Nat := fun input => .ok (input.length, input)

@[simp] theorem remaining_apply (input : Bytes) :
    (remaining : Reader ε Nat) input = .ok (input.length, input) := rfl

def take (truncated : ε) (count : Nat) : Reader ε Bytes :=
  fun input =>
    if count ≤ input.length then
      .ok (input.take count, input.drop count)
    else
      .error truncated

theorem take_append {truncated : ε} {front rest : Bytes} :
    take truncated front.length (front ++ rest) = .ok (front, rest) := by
  simp [take]

theorem take_sound {truncated : ε} {count : Nat} {input front rest : Bytes}
    (h : take truncated count input = .ok (front, rest)) :
    front.length = count ∧ input = front ++ rest := by
  unfold take at h
  split at h
  · rename_i hle
    cases h
    exact ⟨by simp [hle], by simp⟩
  · cases h

/-- The reader turns `front` into `a`, whatever follows it. -/
def Reads (m : Reader ε α) (a : α) (front : Bytes) : Prop :=
  ∀ rest, m (front ++ rest) = .ok (a, rest)

theorem Reads.pure (a : α) : Reads (pure a : Reader ε α) a [] :=
  fun _ => rfl

theorem Reads.bind {m : Reader ε α} {f : α → Reader ε β} {a : α} {b : β}
    {s t : Bytes} (hm : Reads m a s) (hf : Reads (f a) b t) :
    Reads (m >>= f) b (s ++ t) := by
  intro rest
  rw [List.append_assoc, bind_of_ok (hm (t ++ rest))]
  exact hf rest

theorem Reads.ensure {p : Prop} [Decidable p] {refusal : ε} (h : p)
    {f : Unit → Reader ε β} {b : β} {front : Bytes}
    (hf : Reads (f ()) b front) :
    Reads (ensure p refusal >>= f) b front := by
  intro rest
  have hcheck : Reader.ensure p refusal (front ++ rest) =
      .ok ((), front ++ rest) := ensure_eq_ok.mpr ⟨h, rfl⟩
  rw [bind_of_ok hcheck]
  exact hf rest

theorem Reads.lift {x : Except ε α} {a : α} (h : x = .ok a)
    {f : α → Reader ε β} {b : β} {front : Bytes} (hf : Reads (f a) b front) :
    Reads (lift x >>= f) b front := by
  intro rest
  have hlift : Reader.lift x (front ++ rest) = .ok (a, front ++ rest) :=
    lift_eq_ok.mpr ⟨h, rfl⟩
  rw [bind_of_ok hlift]
  exact hf rest

theorem Reads.map {m : Reader ε α} {f : α → β} {a : α} {front : Bytes}
    (hm : Reads m a front) :
    Reads (m >>= fun x => Pure.pure (f x)) (f a) front := by
  have h := hm.bind (f := fun x => Pure.pure (f x)) (Reads.pure (f a))
  rwa [List.append_nil] at h

end Reader

/-! Little-endian naturals of a fixed width. -/

def leBytes : Nat → Nat → Bytes
  | 0, _ => []
  | width + 1, n => UInt8.ofNat (n % 256) :: leBytes width (n / 256)

def leNat : Bytes → Nat
  | [] => 0
  | b :: bs => b.toNat + 256 * leNat bs

@[simp] theorem length_leBytes (width n : Nat) :
    (leBytes width n).length = width := by
  induction width generalizing n with
  | zero => rfl
  | succ width ih => simp [leBytes, ih]

theorem leNat_lt (bs : Bytes) : leNat bs < 256 ^ bs.length := by
  induction bs with
  | nil => simp [leNat]
  | cons b bs ih =>
      have hb := b.toNat_lt
      simp only [leNat, List.length_cons, Nat.pow_succ]
      omega

theorem leNat_leBytes {width n : Nat} (h : n < 256 ^ width) :
    leNat (leBytes width n) = n := by
  induction width generalizing n with
  | zero =>
      simp only [Nat.pow_zero, Nat.lt_one_iff] at h
      simp [leBytes, leNat, h]
  | succ width ih =>
      have hdiv : n / 256 < 256 ^ width := by
        rw [Nat.pow_succ] at h
        omega
      simp only [leBytes, leNat, ih hdiv, UInt8.toNat_ofNat']
      omega

theorem leBytes_leNat (bs : Bytes) : leBytes bs.length (leNat bs) = bs := by
  induction bs with
  | nil => rfl
  | cons b bs ih =>
      have hb := b.toNat_lt
      have hmod : (b.toNat + 256 * leNat bs) % 256 = b.toNat := by omega
      have hdiv : (b.toNat + 256 * leNat bs) / 256 = leNat bs := by omega
      simp only [List.length_cons, leBytes, leNat, hmod, hdiv, ih]
      simp

end TensorFS.Data
