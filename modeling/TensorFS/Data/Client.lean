import TensorFS.Data.ByteReader

namespace TensorFS.Data

/-! Programs that call an environment.  A program runs on a state, which each
of its calls may extend; it may stop early, by an error or a panic, and a loop
that is not given enough rounds stops unfinished. -/

inductive Stop (ε : Type) where
  | failed (error : ε)
  | panicked
  | unfinished
  deriving DecidableEq

def Client (σ ε α : Type) : Type := σ → Except (Stop ε) α × σ

namespace Client

variable {σ ε α β : Type}

instance : Monad (Client σ ε) where
  pure a := fun s => (.ok a, s)
  bind m f := fun s =>
    match m s with
    | (.ok a, s) => f a s
    | (.error stop, s) => (.error stop, s)

def fail (error : ε) : Client σ ε α := fun s => (.error (.failed error), s)

def orFail (x : Except ε α) : Client σ ε α := fun s =>
  match x with
  | .ok a => (.ok a, s)
  | .error error => (.error (.failed error), s)

def check (p : Prop) [Decidable p] (error : ε) : Client σ ε Unit := fun s =>
  if p then (.ok (), s) else (.error (.failed error), s)

/-- Panics unless `p` holds. -/
def assert (p : Prop) [Decidable p] : Client σ ε Unit := fun s =>
  if p then (.ok (), s) else (.error .panicked, s)

def read (f : σ → α) : Client σ ε α := fun s => (.ok (f s), s)

def update (f : σ → σ) : Client σ ε Unit := fun s => (.ok (), f s)

/-- Rounds of `body` until one of them returns. -/
def rounds (body : β → Client σ ε (β ⊕ α)) : Nat → β → Client σ ε α
  | 0, _ => fun s => (.error .unfinished, s)
  | fuel + 1, b => do
      match ← body b with
      | .inl b => rounds body fuel b
      | .inr a => pure a

/-! Running. -/

@[simp] theorem pure_run (a : α) (s : σ) :
    (pure a : Client σ ε α) s = (.ok a, s) := rfl

@[simp] theorem fail_run (error : ε) (s : σ) :
    (fail error : Client σ ε α) s = (.error (.failed error), s) := rfl

@[simp] theorem read_run (f : σ → α) (s : σ) :
    (read f : Client σ ε α) s = (.ok (f s), s) := rfl

@[simp] theorem update_run (f : σ → σ) (s : σ) :
    (update f : Client σ ε Unit) s = (.ok (), f s) := rfl

@[simp] theorem orFail_ok (a : α) (s : σ) :
    (orFail (.ok a) : Client σ ε α) s = (.ok a, s) := rfl

@[simp] theorem orFail_error (error : ε) (s : σ) :
    (orFail (.error error) : Client σ ε α) s = (.error (.failed error), s) := rfl

theorem check_of {p : Prop} [Decidable p] (error : ε) (s : σ) (h : p) :
    (check p error : Client σ ε Unit) s = (.ok (), s) := if_pos h

theorem check_of_not {p : Prop} [Decidable p] (error : ε) (s : σ)
    (h : ¬ p) :
    (check p error : Client σ ε Unit) s = (.error (.failed error), s) :=
  if_neg h

theorem assert_of {p : Prop} [Decidable p] (s : σ) (h : p) :
    (assert p : Client σ ε Unit) s = (.ok (), s) := if_pos h

theorem assert_of_not {p : Prop} [Decidable p] (s : σ) (h : ¬ p) :
    (assert p : Client σ ε Unit) s = (.error .panicked, s) := if_neg h

theorem bind_run (m : Client σ ε α) (f : α → Client σ ε β) (s : σ) :
    (m >>= f) s =
      match m s with
      | (.ok a, s) => f a s
      | (.error stop, s) => (.error stop, s) := rfl

theorem bind_of_ok {m : Client σ ε α} {f : α → Client σ ε β} {s s' : σ}
    {a : α} (h : m s = (.ok a, s')) : (m >>= f) s = f a s' := by
  rw [bind_run, h]

theorem bind_of_error {m : Client σ ε α} {f : α → Client σ ε β} {s s' : σ}
    {stop : Stop ε} (h : m s = (.error stop, s')) :
    (m >>= f) s = (.error stop, s') := by
  rw [bind_run, h]

theorem bind_eq_ok {m : Client σ ε α} {f : α → Client σ ε β} {s s' : σ}
    {b : β} :
    (m >>= f) s = (.ok b, s') ↔
      ∃ a middle, m s = (.ok a, middle) ∧ f a middle = (.ok b, s') := by
  rw [bind_run]
  cases hm : m s with
  | mk result middle =>
      cases result with
      | ok a =>
          constructor
          · exact fun h => ⟨a, middle, rfl, h⟩
          · rintro ⟨_, _, h, hf⟩
            cases h
            exact hf
      | error stop =>
          constructor
          · intro h
            cases h
          · rintro ⟨_, _, h, -⟩
            cases h

theorem check_eq_ok {p : Prop} [Decidable p] {error : ε} {s s' : σ} {u : Unit} :
    (check p error : Client σ ε Unit) s = (.ok u, s') ↔ p ∧ s' = s := by
  rcases Decidable.em p with h | h
  · rw [check_of error s h]
    simp [h, eq_comm]
  · rw [check_of_not error s h]
    simp [h]

theorem assert_eq_ok {p : Prop} [Decidable p] {s s' : σ} {u : Unit} :
    (assert p : Client σ ε Unit) s = (.ok u, s') ↔ p ∧ s' = s := by
  rcases Decidable.em p with h | h
  · rw [assert_of s h]
    simp [h, eq_comm]
  · rw [assert_of_not s h]
    simp [h]

theorem orFail_eq_ok {x : Except ε α} {s s' : σ} {a : α} :
    (orFail x : Client σ ε α) s = (.ok a, s') ↔ x = .ok a ∧ s' = s := by
  cases x with
  | ok b => simp [eq_comm]
  | error error => simp

/-! What a successful run does to the state. -/

/-- A run that returns takes the state along `R`. -/
def Reaches (R : σ → σ → Prop) (m : Client σ ε α) : Prop :=
  ∀ s a s', m s = (.ok a, s') → R s s'

section

variable {R : σ → σ → Prop} {m : Client σ ε α}

theorem Reaches.still [Std.Refl R] (h : ∀ s, (m s).2 = s) : Reaches R m := by
  intro s a s' hrun
  have hstate : s' = s := by simpa [hrun] using h s
  rw [hstate]
  exact Std.Refl.refl s

theorem Reaches.bind [IsTrans σ R] {f : α → Client σ ε β}
    (hm : Reaches R m) (hf : ∀ a, Reaches R (f a)) : Reaches R (m >>= f) := by
  intro s b s' hrun
  obtain ⟨a, middle, hfirst, hrest⟩ := bind_eq_ok.mp hrun
  exact Trans.trans (hm s a middle hfirst) (hf a middle b s' hrest)

end

/-! What a run leaves alone. -/

def Keeps {γ : Type} (f : σ → γ) (m : Client σ ε α) : Prop :=
  ∀ s, f (m s).2 = f s

section

variable {γ : Type} {g : σ → γ}

theorem Keeps.pure (a : α) : Keeps g (pure a : Client σ ε α) := fun _ => rfl

theorem Keeps.fail (error : ε) : Keeps g (fail error : Client σ ε α) :=
  fun _ => rfl

theorem Keeps.read (f : σ → α) : Keeps g (read f : Client σ ε α) :=
  fun _ => rfl

theorem Keeps.orFail (x : Except ε α) :
    Keeps g (orFail x : Client σ ε α) := by
  cases x with
  | ok a => exact .pure a
  | error error => exact .fail error

theorem Keeps.check (p : Prop) [Decidable p] (error : ε) :
    Keeps g (check p error : Client σ ε Unit) := by
  intro s
  rcases Decidable.em p with h | h
  · rw [check_of error s h]
  · rw [check_of_not error s h]

theorem Keeps.bind {m : Client σ ε α} {f : α → Client σ ε β}
    (hm : Keeps g m) (hf : ∀ a, Keeps g (f a)) : Keeps g (m >>= f) := by
  intro s
  have hfirst := hm s
  rw [bind_run]
  cases hrun : m s with
  | mk result middle =>
      rw [hrun] at hfirst
      cases result with
      | ok a => exact (hf a middle).trans hfirst
      | error stop => exact hfirst

end

/-! How much a run costs, while the state it ends in is a good one. -/

/-- A run that ends in a good state began in one, added at most `cost` to its
size, and did not run out of rounds if it had `enough` of them. -/
def WithinAt (enough : Prop) (good : σ → Prop) (size : σ → Nat) (cost : Nat)
    (m : Client σ ε α) (s : σ) : Prop :=
  good (m s).2 →
    good s ∧ size (m s).2 ≤ size s + cost ∧
      (enough → (m s).1 ≠ .error .unfinished)

abbrev Within (enough : Prop) (good : σ → Prop) (size : σ → Nat) (cost : Nat)
    (m : Client σ ε α) : Prop := ∀ s, WithinAt enough good size cost m s

section

variable {enough : Prop} {good : σ → Prop} {size : σ → Nat} {cost more : Nat}
  {m : Client σ ε α} {s : σ}

theorem Within.pure (a : α) :
    Within enough good size cost (pure a : Client σ ε α) :=
  fun _ hgood => ⟨hgood, Nat.le_add_right _ _, by simp⟩

theorem Within.fail (error : ε) :
    Within enough good size cost (fail error : Client σ ε α) :=
  fun _ hgood => ⟨hgood, Nat.le_add_right _ _, by simp⟩

theorem Within.read (f : σ → α) :
    Within enough good size 0 (read f : Client σ ε α) :=
  fun _ hgood => ⟨hgood, le_rfl, by simp⟩

theorem Within.orFail (x : Except ε α) :
    Within enough good size 0 (orFail x : Client σ ε α) := by
  cases x with
  | ok a => exact .pure a
  | error error => exact .fail error

theorem Within.check (p : Prop) [Decidable p] (error : ε) :
    Within enough good size 0 (check p error : Client σ ε Unit) := by
  intro s hgood
  rcases Decidable.em p with h | h
  · rw [check_of error s h] at hgood ⊢
    exact ⟨hgood, Nat.le_add_right _ _, by simp⟩
  · rw [check_of_not error s h] at hgood ⊢
    exact ⟨hgood, Nat.le_add_right _ _, by simp⟩

theorem Within.assert (p : Prop) [Decidable p] :
    Within enough good size 0 (assert p : Client σ ε Unit) := by
  intro s hgood
  rcases Decidable.em p with h | h
  · rw [assert_of s h] at hgood ⊢
    exact ⟨hgood, Nat.le_add_right _ _, by simp⟩
  · rw [assert_of_not s h] at hgood ⊢
    exact ⟨hgood, Nat.le_add_right _ _, by simp⟩

theorem WithinAt.mono (h : WithinAt enough good size cost m s)
    (hle : cost ≤ more) : WithinAt enough good size more m s := by
  intro hgood
  obtain ⟨hstart, hcost, hends⟩ := h hgood
  exact ⟨hstart, by omega, hends⟩

theorem Within.mono (h : Within enough good size cost m) (hle : cost ≤ more) :
    Within enough good size more m := fun s => (h s).mono hle

theorem WithinAt.weaken {rounds : Prop}
    (h : WithinAt rounds good size cost m s) (himp : enough → rounds) :
    WithinAt enough good size cost m s := by
  intro hgood
  obtain ⟨hstart, hcost, hends⟩ := h hgood
  exact ⟨hstart, hcost, fun henough => hends (himp henough)⟩

/-- The rest of the program may use what the first part returned. -/
theorem WithinAt.bind {f : α → Client σ ε β}
    (hm : WithinAt enough good size cost m s)
    (hf : ∀ a s', m s = (.ok a, s') → good s' →
      WithinAt enough good size more (f a) s')
    (hback : ∀ a s', good (f a s').2 → good s') :
    WithinAt enough good size (cost + more) (m >>= f) s := by
  intro hgood
  have hfirst := hm
  unfold WithinAt at hfirst
  rw [bind_run] at hgood ⊢
  cases hrun : m s with
  | mk result middle =>
      rw [hrun] at hgood hfirst
      cases result with
      | ok a =>
          have hmiddle := hback a middle hgood
          obtain ⟨-, hrest, hends⟩ := hf a middle hrun hmiddle hgood
          obtain ⟨hstart, hcost, -⟩ := hfirst hmiddle
          dsimp only at hcost hrest ⊢
          exact ⟨hstart, by omega, hends⟩
      | error stop =>
          obtain ⟨hstart, hcost, hends⟩ := hfirst hgood
          dsimp only at hcost ⊢
          refine ⟨hstart, by omega, fun henough hstop => ?_⟩
          cases hstop
          exact hends henough rfl

theorem Within.bind {f : α → Client σ ε β}
    (hm : Within enough good size cost m)
    (hf : ∀ a, Within enough good size more (f a)) :
    Within enough good size (cost + more) (m >>= f) := fun s =>
  (hm s).bind (fun a s' _ _ => hf a s') fun a s' hgood => (hf a s' hgood).1

theorem Within.bind_le {most : Nat} {f : α → Client σ ε β}
    (hm : Within enough good size cost m)
    (hf : ∀ a, Within enough good size more (f a)) (hle : cost + more ≤ most) :
    Within enough good size most (m >>= f) := (hm.bind hf).mono hle

/-- What follows a part without calls. -/
theorem Within.free {f : α → Client σ ε β} (hm : Within enough good size 0 m)
    (hf : ∀ a, Within enough good size cost (f a)) :
    Within enough good size cost (m >>= f) :=
  hm.bind_le hf (Nat.zero_add cost).le

/-- What is followed by a part without calls. -/
theorem Within.last {f : α → Client σ ε β} (hm : Within enough good size cost m)
    (hf : ∀ a, Within enough good size 0 (f a)) :
    Within enough good size cost (m >>= f) :=
  hm.bind_le hf (Nat.add_zero cost).le

theorem Within.then_pure {f : α → β} (hm : Within enough good size cost m) :
    Within enough good size cost (m >>= fun a => Pure.pure (f a)) :=
  hm.last fun _ => .pure _

end

/-! The failures of a computation without calls. -/

/-- Every error that `x` can end in is one of `allowed`. -/
def Refuses (allowed : ε → Prop) (x : Except ε α) : Prop :=
  ∀ error, x = .error error → allowed error

section

variable {allowed : ε → Prop}

theorem Refuses.ok (a : α) : Refuses allowed (Except.ok a : Except ε α) :=
  fun _ h => nomatch h

theorem Refuses.error {error : ε} (h : allowed error) :
    Refuses allowed (Except.error error : Except ε α) := by
  intro found hfound
  cases hfound
  exact h

theorem Refuses.ensure {p : Prop} [Decidable p] {error : ε}
    (h : allowed error) : Refuses allowed (Data.ensure p error) := by
  unfold Data.ensure
  split
  · exact .ok ()
  · exact .error h

theorem Refuses.bind {x : Except ε α} {f : α → Except ε β}
    (hx : Refuses allowed x) (hf : ∀ a, Refuses allowed (f a)) :
    Refuses allowed (x >>= f) := by
  cases x with
  | ok a => exact hf a
  | error error => exact .error (hx error rfl)

theorem Refuses.checkAll {check : α → Except ε Unit} {xs : List α}
    (h : ∀ x, Refuses allowed (check x)) :
    Refuses allowed (Data.checkAll check xs) := by
  induction xs with
  | nil => exact .ok ()
  | cons x xs ih => exact (h x).bind fun _ => ih

theorem Refuses.mapError {ε' : Type} {x : Except ε' α} {f : ε' → ε}
    (h : ∀ error, allowed (f error)) : Refuses allowed (x.mapError f) := by
  cases x with
  | ok a => exact .ok a
  | error error => exact .error (h error)

end

/-! The calls of a run, and the failures they bring about. -/

/-- A run only adds to the log, and fails for a `cause` exactly where it has
added a `fatal` call. -/
def FailsOn {ι : Type} (log : σ → List ι) (fatal : ι → Prop)
    (cause : ε → Prop) (m : Client σ ε α) : Prop :=
  ∀ s, ∃ calls, log (m s).2 = calls ++ log s ∧
    ((∃ error, (m s).1 = .error (.failed error) ∧ cause error) ↔
      ∃ call ∈ calls, fatal call)

section

variable {ι : Type} {log : σ → List ι} {fatal : ι → Prop} {cause : ε → Prop}
  {m : Client σ ε α}

theorem FailsOn.pure (a : α) :
    FailsOn log fatal cause (pure a : Client σ ε α) :=
  fun _ => ⟨[], rfl, by simp⟩

theorem FailsOn.fail {error : ε} (h : ¬ cause error) :
    FailsOn log fatal cause (fail error : Client σ ε α) :=
  fun _ => ⟨[], rfl, by simp [h]⟩

theorem FailsOn.read (f : σ → α) :
    FailsOn log fatal cause (read f : Client σ ε α) :=
  fun _ => ⟨[], rfl, by simp⟩

theorem FailsOn.update {f : σ → σ} (h : ∀ s, log (f s) = log s) :
    FailsOn log fatal cause (update f : Client σ ε Unit) :=
  fun s => ⟨[], h s, by simp⟩

theorem FailsOn.check {p : Prop} [Decidable p] {error : ε}
    (h : ¬ cause error) :
    FailsOn log fatal cause (check p error : Client σ ε Unit) := by
  intro s
  rcases Decidable.em p with hp | hp
  · rw [check_of error s hp]
    exact ⟨[], rfl, by simp⟩
  · rw [check_of_not error s hp]
    exact ⟨[], rfl, by simp [h]⟩

theorem FailsOn.assert (p : Prop) [Decidable p] :
    FailsOn log fatal cause (assert p : Client σ ε Unit) := by
  intro s
  rcases Decidable.em p with hp | hp
  · rw [assert_of s hp]
    exact ⟨[], rfl, by simp⟩
  · rw [assert_of_not s hp]
    exact ⟨[], rfl, by simp⟩

theorem FailsOn.orFail {x : Except ε α}
    (h : Refuses (fun error => ¬ cause error) x) :
    FailsOn log fatal cause (orFail x : Client σ ε α) := by
  cases x with
  | ok a => exact .pure a
  | error error => exact .fail (h error rfl)

theorem FailsOn.bind {f : α → Client σ ε β} (hm : FailsOn log fatal cause m)
    (hf : ∀ a, FailsOn log fatal cause (f a)) :
    FailsOn log fatal cause (m >>= f) := by
  intro s
  obtain ⟨calls, hlog, hfirst⟩ := hm s
  rw [bind_run]
  cases hrun : m s with
  | mk result middle =>
      rw [hrun] at hlog hfirst
      cases result with
      | error stop => exact ⟨calls, hlog, by simpa using hfirst⟩
      | ok a =>
          obtain ⟨more, hmore, hrest⟩ := hf a middle
          have hnone : ¬ ∃ call ∈ calls, fatal call := fun h => by
            obtain ⟨error, herror, -⟩ := hfirst.mpr h
            cases herror
          refine ⟨more ++ calls, by rw [hmore, hlog, List.append_assoc], ?_⟩
          rw [hrest]
          constructor
          · rintro ⟨call, hcall, hfatal⟩
            exact ⟨call, List.mem_append_left _ hcall, hfatal⟩
          · rintro ⟨call, hcall, hfatal⟩
            rcases List.mem_append.mp hcall with hcall | hcall
            · exact ⟨call, hcall, hfatal⟩
            · exact absurd ⟨call, hcall, hfatal⟩ hnone

theorem FailsOn.rounds {body : β → Client σ ε (β ⊕ α)}
    (h : ∀ b, FailsOn log fatal cause (body b)) (fuel : Nat) (b : β) :
    FailsOn log fatal cause (rounds body fuel b) := by
  induction fuel generalizing b with
  | zero => exact fun s => ⟨[], rfl, by simp [Client.rounds]⟩
  | succ fuel ih =>
      refine (h b).bind fun next => ?_
      cases next with
      | inl b => exact ih b
      | inr a => exact .pure a

theorem FailsOn.suffix (h : FailsOn log fatal cause m) (s : σ) :
    (log s).IsSuffix (log (m s).2) := by
  obtain ⟨calls, hlog, -⟩ := h s
  exact ⟨calls, hlog.symm⟩

end

/-! Loops with a measure. -/

/-- The measure of a loop that gives up after `limit` rounds in a row that
leave as much as before. -/
def budget (limit left stalled : Nat) : Nat :=
  left * max 1 limit + (max 1 limit - 1 - stalled)

theorem budget_progress {limit left left' stalled : Nat} (h : left' < left) :
    budget limit left' 0 < budget limit left stalled := by
  have hmul : (left' + 1) * max 1 limit ≤ left * max 1 limit :=
    Nat.mul_le_mul_right _ h
  rw [Nat.succ_mul] at hmul
  have hpos : 1 ≤ max 1 limit := le_max_left _ _
  unfold budget
  omega

theorem budget_stall {limit left left' stalled : Nat} (h : left' ≤ left)
    (hstalled : stalled + 1 < limit) :
    budget limit left' (stalled + 1) < budget limit left stalled := by
  have hmul : left' * max 1 limit ≤ left * max 1 limit :=
    Nat.mul_le_mul_right _ h
  have hlimit : limit ≤ max 1 limit := le_max_right _ _
  unfold budget
  omega

theorem budget_le (limit left stalled : Nat) :
    budget limit left stalled < (left + 1) * max 1 limit := by
  have hpos : 1 ≤ max 1 limit := le_max_left _ _
  rw [Nat.succ_mul]
  unfold budget
  omega

/-- What one round owes: its cost, and a smaller measure when it goes on. -/
structure Descends (good : σ → Prop) (size : σ → Nat) (cost : Nat)
    (holds : β → σ → Prop) (measure : β → σ → Nat)
    (body : β → Client σ ε (β ⊕ α)) : Prop where
  within : ∀ b s, holds b s → WithinAt True good size cost (body b) s
  descends : ∀ b s b' s', holds b s → body b s = (.ok (.inl b'), s') →
    good s' → holds b' s' ∧ measure b' s' < measure b s

theorem Descends.rounds {good : σ → Prop} {size : σ → Nat} {cost : Nat}
    {holds : β → σ → Prop} {measure : β → σ → Nat}
    {body : β → Client σ ε (β ⊕ α)}
    (h : Descends good size cost holds measure body)
    (hback : ∀ fuel b s, good (Client.rounds body fuel b s).2 → good s)
    {fuel most : Nat} {b : β} {s : σ} (hholds : holds b s)
    (hmost : measure b s < most) :
    WithinAt (most ≤ fuel) good size (most * cost)
      (Client.rounds body fuel b) s := by
  induction fuel generalizing b s most with
  | zero => exact fun hgood => ⟨hgood, Nat.le_add_right _ _, by omega⟩
  | succ fuel ih =>
      intro hgood
      have hfirst := h.within b s hholds
      unfold WithinAt at hfirst
      obtain ⟨rest, rfl⟩ : ∃ rest, most = rest + 1 := ⟨most - 1, by omega⟩
      rw [Nat.succ_mul]
      rw [Client.rounds, bind_run] at hgood ⊢
      cases hrun : body b s with
      | mk result middle =>
          rw [hrun] at hgood hfirst
          cases result with
          | error stop =>
              obtain ⟨hstart, hcost, hends⟩ := hfirst hgood
              dsimp only at hcost ⊢
              refine ⟨hstart, by omega, fun _ hstop => ?_⟩
              cases hstop
              exact hends trivial rfl
          | ok next =>
              cases next with
              | inr a =>
                  obtain ⟨hstart, hcost, -⟩ := hfirst hgood
                  dsimp only [pure_run] at hcost ⊢
                  exact ⟨hstart, by omega, by simp⟩
              | inl b' =>
                  have hmiddle := hback fuel b' middle hgood
                  obtain ⟨hstart, hcost, -⟩ := hfirst hmiddle
                  obtain ⟨hnext, hless⟩ :=
                    h.descends b s b' middle hholds hrun hmiddle
                  have hbound : measure b' middle < rest := by omega
                  obtain ⟨-, hrest, hends⟩ := ih hnext hbound hgood
                  dsimp only at hcost hrest ⊢
                  exact ⟨hstart, by omega, fun henough => hends (by omega)⟩

end Client

end TensorFS.Data
