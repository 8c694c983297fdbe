import TensorFS.Data.ByteReader

namespace TensorFS.Data

/-! Two fallible computations in lockstep: both succeed with related values or
both refuse.  `diverges` says exactly when their refusals do not match. -/

section Lockstep

variable {ε δ α β γ κ : Type} {same : ε → δ → Prop}

def Lockstep (same : ε → δ → Prop) (related : α → β → Prop)
    (diverges : Prop) : Except ε α → Except δ β → Prop
  | .ok a, .ok b => related a b ∧ ¬ diverges
  | .error e, .error d => same e d ↔ ¬ diverges
  | _, _ => False

theorem Lockstep.congr {related : α → β → Prop} {diverges diverges' : Prop}
    {x : Except ε α} {y : Except δ β}
    (h : Lockstep same related diverges x y) (heq : diverges ↔ diverges') :
    Lockstep same related diverges' x y := by
  rwa [← propext heq]

theorem Lockstep.mono {related related' : α → β → Prop} {diverges : Prop}
    {x : Except ε α} {y : Except δ β}
    (h : Lockstep same related diverges x y)
    (himp : ∀ a b, x = .ok a → related a b → related' a b) :
    Lockstep same related' diverges x y := by
  cases x with
  | ok a =>
      cases y with
      | ok b => exact ⟨himp a b rfl h.1, h.2⟩
      | error d => exact h
  | error e =>
      cases y with
      | ok b => exact h
      | error d => exact h

theorem Lockstep.bind {related : α → β → Prop} {related' : γ → κ → Prop}
    {diverges : Prop} {diverges' : α → Prop}
    {x : Except ε α} {y : Except δ β}
    {f : α → Except ε γ} {g : β → Except δ κ}
    (h : Lockstep same related diverges x y)
    (hf : ∀ a b, x = .ok a → related a b →
      Lockstep same related' (diverges' a) (f a) (g b)) :
    Lockstep same related' (diverges ∨ ∃ a, x = .ok a ∧ diverges' a)
      (x >>= f) (y >>= g) := by
  cases x with
  | ok a =>
      cases y with
      | ok b =>
          refine (hf a b rfl h.1).congr ?_
          constructor
          · exact fun hd => .inr ⟨a, rfl, hd⟩
          · rintro (hd | ⟨_, heq, hd⟩)
            · exact absurd hd h.2
            · cases heq
              exact hd
      | error d => exact h.elim
  | error e =>
      cases y with
      | ok b => exact h.elim
      | error d =>
          have hnone : ¬ ∃ a, (Except.error e : Except ε α) = .ok a ∧
              diverges' a := by simp
          show same e d ↔ ¬ (_ ∨ _)
          rw [or_iff_left hnone]
          exact h

theorem Lockstep.bind_agree {related : α → β → Prop}
    {related' : γ → κ → Prop} {x : Except ε α} {y : Except δ β}
    {f : α → Except ε γ} {g : β → Except δ κ}
    (h : Lockstep same related False x y)
    (hf : ∀ a b, x = .ok a → related a b →
      Lockstep same related' False (f a) (g b)) :
    Lockstep same related' False (x >>= f) (y >>= g) :=
  (h.bind hf).congr (by simp)

theorem Lockstep.pure {related : α → β → Prop} {a : α} {b : β}
    (h : related a b) :
    Lockstep same related False (.ok a) (.ok b) :=
  ⟨h, not_false⟩

theorem Lockstep.refuse {related : α → β → Prop} {e : ε} {d : δ}
    (h : same e d) : Lockstep same related False (.error e) (.error d) :=
  ⟨fun _ => not_false, fun _ => h⟩

theorem Lockstep.ensure {p q : Prop} [Decidable p] [Decidable q] {e : ε}
    {d : δ} (hpq : p ↔ q) (h : same e d) :
    Lockstep same (fun _ _ => p) False (ensure p e) (ensure q d) := by
  by_cases hp : p
  · rw [ensure_of hp, ensure_of (hpq.mp hp)]
    exact .pure hp
  · rw [ensure_of_not hp, ensure_of_not (fun hq => hp (hpq.mpr hq))]
    exact .refuse h

theorem Lockstep.guard {related : α → β → Prop} {diverges : Prop}
    {p q : Prop} [Decidable p] [Decidable q] {e : ε} {d : δ}
    {f : Unit → Except ε α} {g : Unit → Except δ β}
    (h : same e d) (hpq : p ↔ q)
    (hf : p → Lockstep same related diverges (f ()) (g ())) :
    Lockstep same related (p ∧ diverges) (Data.ensure p e >>= f)
      (Data.ensure q d >>= g) := by
  by_cases hp : p
  · rw [ensure_of hp, ensure_of (hpq.mp hp)]
    exact (hf hp).congr (by simp [hp])
  · rw [ensure_of_not hp, ensure_of_not (fun hq => hp (hpq.mpr hq))]
    exact (Lockstep.refuse h).congr (by simp [hp])

theorem Lockstep.guard_agree {related : α → β → Prop}
    {p q : Prop} [Decidable p] [Decidable q] {e : ε} {d : δ}
    {f : Unit → Except ε α} {g : Unit → Except δ β}
    (h : same e d) (hpq : p ↔ q)
    (hf : p → Lockstep same related False (f ()) (g ())) :
    Lockstep same related False (Data.ensure p e >>= f)
      (Data.ensure q d >>= g) :=
  (Lockstep.guard h hpq hf).congr (by simp)

theorem Lockstep.checkAll {check : α → Except ε Unit}
    {check' : β → Except δ Unit} {xs : List α} {ys : List β}
    (h : List.Forall₂ (fun x y =>
      Lockstep same (fun _ _ => True) False (check x) (check' y)) xs ys) :
    Lockstep same (fun _ _ => True) False (checkAll check xs)
      (checkAll check' ys) := by
  induction h with
  | nil => exact .pure trivial
  | cons hhead _ ih => exact hhead.bind_agree fun _ _ _ _ => ih

/-- Checks that all refuse alike amount to one check. -/
theorem checkAll_ensure {check : α → Except ε Unit} {p : α → Prop}
    [DecidablePred p] {e : ε} {xs : List α}
    [Decidable (∀ x ∈ xs, p x)]
    (h : ∀ x, check x = Data.ensure (p x) e) :
    Data.checkAll check xs = Data.ensure (∀ x ∈ xs, p x) e := by
  by_cases hall : ∀ x ∈ xs, p x
  · rw [ensure_of hall, checkAll_eq_ok]
    intro x hx
    rw [h x, ensure_of (hall x hx)]
  · rw [ensure_of_not hall]
    induction xs with
    | nil => simp at hall
    | cons x xs ih =>
        unfold Data.checkAll
        by_cases hx : p x
        · rw [h x, ensure_of hx, except_ok_bind]
          classical
          exact ih fun hrest => hall (List.forall_mem_cons.mpr ⟨hx, hrest⟩)
        · rw [h x, ensure_of_not hx, except_error_bind]

theorem Lockstep.ok_iff {related : α → β → Prop} {diverges : Prop}
    {x : Except ε α} {y : Except δ β}
    (h : Lockstep same related diverges x y) :
    (∃ a, x = .ok a) ↔ ∃ b, y = .ok b := by
  cases x with
  | ok a =>
      cases y with
      | ok b => exact ⟨fun _ => ⟨b, rfl⟩, fun _ => ⟨a, rfl⟩⟩
      | error d => exact h.elim
  | error e =>
      cases y with
      | ok b => exact h.elim
      | error d => simp

end Lockstep

/-! Readers in lockstep consume the same bytes. -/

namespace Reader

variable {ε δ α β γ κ : Type} {same : ε → δ → Prop}

def Matches (same : ε → δ → Prop) (related : α → β → Prop)
    (diverges : Bytes → Prop) (m : Reader ε α) (n : Reader δ β) : Prop :=
  ∀ input, Lockstep same (fun p q => related p.1 q.1 ∧ p.2 = q.2)
    (diverges input) (m input) (n input)

/-- Readers whose refusals always match. -/
def Agrees (same : ε → δ → Prop) (related : α → β → Prop)
    (m : Reader ε α) (n : Reader δ β) : Prop :=
  Matches same related (fun _ => False) m n

theorem bind_of_error {m : Reader ε α} {f : α → Reader ε β} {input : Bytes}
    {e : ε} (h : m input = .error e) : (m >>= f) input = .error e := by
  show (m input >>= fun p => f p.1 p.2) = _
  rw [h]
  rfl

theorem ensure_of_not {p : Prop} [Decidable p] {e : ε} (h : ¬ p)
    (input : Bytes) : ensure p e input = .error e :=
  if_neg h

theorem ensure_bind {p : Prop} [Decidable p] {e : ε}
    {f : Unit → Reader ε α} (h : p) : (ensure p e >>= f) = f () := by
  funext input
  exact bind_of_ok (ensure_eq_ok.mpr ⟨h, rfl⟩)

theorem ensure_then {p : Prop} [Decidable p] {e : ε}
    {f : Unit → Reader ε α} (input : Bytes) :
    (ensure p e >>= f) input =
      Data.ensure p e >>= fun _ => f () input := by
  by_cases hp : p
  · rw [ensure_bind hp, ensure_of hp]
    rfl
  · rw [bind_of_error (ensure_of_not hp input), Data.ensure_of_not hp]
    rfl

theorem lift_then {x : Except ε β} {f : β → Reader ε α} (input : Bytes) :
    (lift x >>= f) input = x >>= fun b => f b input := by
  cases x <;> rfl

theorem take_then {e : ε} {count : Nat} {f : Bytes → Reader ε α}
    (input : Bytes) :
    (take e count >>= f) input =
      Data.ensure (count ≤ input.length) e >>= fun _ =>
        f (input.take count) (input.drop count) := by
  by_cases hle : count ≤ input.length
  · rw [bind_of_ok (if_pos hle), ensure_of hle]
    rfl
  · rw [bind_of_error (if_neg hle), Data.ensure_of_not hle]
    rfl

theorem Matches.congr {related : α → β → Prop}
    {diverges diverges' : Bytes → Prop} {m : Reader ε α} {n : Reader δ β}
    (h : Matches same related diverges m n)
    (heq : ∀ input, diverges input ↔ diverges' input) :
    Matches same related diverges' m n :=
  fun input => (h input).congr (heq input)

theorem Matches.bind {related : α → β → Prop} {related' : γ → κ → Prop}
    {diverges : Bytes → Prop} {diverges' : α → Bytes → Prop}
    {m : Reader ε α} {n : Reader δ β}
    {f : α → Reader ε γ} {g : β → Reader δ κ}
    (h : Matches same related diverges m n)
    (hf : ∀ a b, related a b → Matches same related' (diverges' a) (f a) (g b)) :
    Matches same related'
      (fun input => diverges input ∨
        ∃ a rest, m input = .ok (a, rest) ∧ diverges' a rest)
      (m >>= f) (n >>= g) := by
  intro input
  have hbind : ∀ (p : α × Bytes) (q : β × Bytes), m input = .ok p →
      (related p.1 q.1 ∧ p.2 = q.2) →
      Lockstep same (fun p q => related' p.1 q.1 ∧ p.2 = q.2)
        (diverges' p.1 p.2) (f p.1 p.2) (g q.1 q.2) := by
    rintro ⟨a, rest⟩ ⟨b, rest'⟩ _ ⟨hab, hrest⟩
    cases hrest
    exact hf a b hab rest
  refine ((h input).bind hbind).congr ?_
  simp only [Prod.exists]

theorem Agrees.bind_matches {related : α → β → Prop}
    {related' : γ → κ → Prop} {diverges' : α → Bytes → Prop}
    {m : Reader ε α} {n : Reader δ β}
    {f : α → Reader ε γ} {g : β → Reader δ κ}
    (h : Agrees same related m n)
    (hf : ∀ a b, related a b → Matches same related' (diverges' a) (f a) (g b)) :
    Matches same related'
      (fun input => ∃ a rest, m input = .ok (a, rest) ∧ diverges' a rest)
      (m >>= f) (n >>= g) :=
  (Matches.bind h hf).congr fun _ => by simp only [false_or]

theorem Matches.bind_agrees {related : α → β → Prop}
    {related' : γ → κ → Prop} {diverges : Bytes → Prop}
    {m : Reader ε α} {n : Reader δ β}
    {f : α → Reader ε γ} {g : β → Reader δ κ}
    (h : Matches same related diverges m n)
    (hf : ∀ a b, related a b → Agrees same related' (f a) (g b)) :
    Matches same related' diverges (m >>= f) (n >>= g) :=
  (h.bind hf).congr fun _ => by simp

theorem Agrees.bind {related : α → β → Prop} {related' : γ → κ → Prop}
    {m : Reader ε α} {n : Reader δ β}
    {f : α → Reader ε γ} {g : β → Reader δ κ}
    (h : Agrees same related m n)
    (hf : ∀ a b, related a b → Agrees same related' (f a) (g b)) :
    Agrees same related' (m >>= f) (n >>= g) :=
  (h.bind_matches hf).congr fun _ => by simp

theorem Agrees.pure {related : α → β → Prop} {a : α} {b : β}
    (h : related a b) : Agrees same related (pure a) (pure b) :=
  fun _ => .pure ⟨h, rfl⟩

theorem Agrees.fail {related : α → β → Prop} {e : ε} {d : δ}
    (h : same e d) :
    Agrees same related (fail e : Reader ε α) (fail d : Reader δ β) :=
  fun _ => .refuse h

theorem Matches.guard {related : α → β → Prop} {diverges : Bytes → Prop}
    {p q : Prop} [Decidable p] [Decidable q] {e : ε} {d : δ}
    {f : Unit → Reader ε α} {g : Unit → Reader δ β}
    (h : same e d) (hpq : p ↔ q)
    (hf : p → Matches same related diverges (f ()) (g ())) :
    Matches same related (fun input => p ∧ diverges input)
      (ensure p e >>= f) (ensure q d >>= g) := by
  intro input
  by_cases hp : p
  · have hleft : ensure p e input = .ok ((), input) :=
      ensure_eq_ok.mpr ⟨hp, rfl⟩
    have hright : ensure q d input = .ok ((), input) :=
      ensure_eq_ok.mpr ⟨hpq.mp hp, rfl⟩
    rw [bind_of_ok hleft, bind_of_ok hright]
    exact (hf hp input).congr (by simp [hp])
  · rw [bind_of_error (ensure_of_not hp input),
      bind_of_error (ensure_of_not (mt hpq.mpr hp) input)]
    exact (Lockstep.refuse h).congr (by simp [hp])

theorem Agrees.guard {related : α → β → Prop}
    {p q : Prop} [Decidable p] [Decidable q] {e : ε} {d : δ}
    {f : Unit → Reader ε α} {g : Unit → Reader δ β}
    (h : same e d) (hpq : p ↔ q)
    (hf : p → Agrees same related (f ()) (g ())) :
    Agrees same related (ensure p e >>= f) (ensure q d >>= g) :=
  (Matches.guard h hpq hf).congr fun _ => by simp

theorem Matches.lift {related : α → β → Prop} {diverges : Prop}
    {x : Except ε α} {y : Except δ β}
    (h : Lockstep same related diverges x y) :
    Matches same related (fun _ => diverges) (lift x) (lift y) := by
  intro input
  cases x with
  | ok a =>
      cases y with
      | ok b => exact ⟨⟨h.1, rfl⟩, h.2⟩
      | error d => exact h
  | error e =>
      cases y with
      | ok b => exact h
      | error d => exact h

theorem Agrees.remaining :
    Agrees same (· = ·) (remaining : Reader ε Nat) remaining :=
  fun _ => .pure ⟨rfl, rfl⟩

theorem Agrees.take {e : ε} {d : δ} (h : same e d) (count : Nat) :
    Agrees same (fun a b => a = b ∧ a.length = count)
      (take e count) (take d count) := by
  intro input
  by_cases hle : count ≤ input.length
  · rw [Reader.take, Reader.take, if_pos hle, if_pos hle]
    exact .pure ⟨⟨rfl, by simp [hle]⟩, rfl⟩
  · rw [Reader.take, Reader.take, if_neg hle, if_neg hle]
    exact .refuse h

end Reader

end TensorFS.Data
