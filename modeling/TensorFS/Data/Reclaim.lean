import Mathlib

namespace TensorFS.Data

/-! Reclaiming storage. Deferred reclamation: every sweep observes which objects are held and which
are idle, an idle object is put on the shelf, and one that is still idle two
sweeps later is reclaimed. -/

variable {α : Type}

/-- What one sweep observes. -/
structure Sweep (α : Type) where
  resident : Set α
  rooted : Set α

def Sweep.idle (sweep : Sweep α) : Set α := sweep.resident \ sweep.rooted

/-- The objects waiting, each with the sweep that put it there. -/
structure Shelf (α : Type) where
  epoch : Nat
  rows : Set (α × Nat)

namespace Shelf

def empty : Shelf α := ⟨0, ∅⟩

/-- Idle, and put on the shelf two sweeps ago or earlier. -/
def due (shelf : Shelf α) (sweep : Sweep α) : Set α :=
  {a | a ∈ sweep.idle ∧ ∃ epoch, (a, epoch) ∈ shelf.rows ∧
    epoch + 2 ≤ shelf.epoch + 1}

def kept (shelf : Shelf α) (sweep : Sweep α) : Set (α × Nat) :=
  {row | row ∈ shelf.rows ∧ row.1 ∈ sweep.idle ∧
    ¬ row.2 + 2 ≤ shelf.epoch + 1}

def fresh (shelf : Shelf α) (sweep : Sweep α) : Set (α × Nat) :=
  {row | row.1 ∈ sweep.idle ∧ (∀ epoch, (row.1, epoch) ∉ shelf.rows) ∧
    row.2 = shelf.epoch + 1}

def next (shelf : Shelf α) (sweep : Sweep α) : Shelf α :=
  ⟨shelf.epoch + 1, shelf.kept sweep ∪ shelf.fresh sweep⟩

def after (history : List (Sweep α)) : Shelf α :=
  history.foldl next empty

@[simp] theorem after_nil : (after [] : Shelf α) = empty := rfl

@[simp] theorem after_snoc (history : List (Sweep α)) (sweep : Sweep α) :
    after (history ++ [sweep]) = (after history).next sweep := by
  simp [after, List.foldl_append]

variable {history : List (Sweep α)} {sweep : Sweep α} {a : α} {epoch : Nat}

theorem epoch_after : (after history).epoch = history.length := by
  induction history using List.reverseRecOn with
  | nil => rfl
  | append_singleton history sweep ih => simp [next, ih]

/-- A row on the shelf has been idle at every sweep since its own. -/
theorem idle_of_mem_rows (h : (a, epoch) ∈ (after history).rows) :
    1 ≤ epoch ∧ epoch ≤ history.length ∧
      ∀ k, epoch ≤ k + 1 → k < history.length →
        ∃ sweep, history[k]? = some sweep ∧ a ∈ sweep.idle := by
  induction history using List.reverseRecOn with
  | nil => exact absurd h (Set.notMem_empty _)
  | append_singleton history last ih =>
      rw [after_snoc] at h
      rw [List.length_append, List.length_singleton]
      have hlast : a ∈ last.idle := by
        rcases h with hkept | hfresh
        · exact hkept.2.1
        · exact hfresh.1
      have hsplit : ∀ k, k < history.length + 1 →
          (k < history.length → ∃ sweep, history[k]? = some sweep ∧
            a ∈ sweep.idle) →
          ∃ sweep, (history ++ [last])[k]? = some sweep ∧ a ∈ sweep.idle := by
        intro k hk hbefore
        rcases Nat.lt_or_eq_of_le (Nat.le_of_lt_succ hk) with hlt | rfl
        · obtain ⟨sweep, hsweep, hidle⟩ := hbefore hlt
          exact ⟨sweep, by rw [List.getElem?_append_left hlt, hsweep], hidle⟩
        · exact ⟨last, by simp, hlast⟩
      rcases h with hkept | hfresh
      · obtain ⟨hpos, hle, hidle⟩ := ih hkept.1
        exact ⟨hpos, Nat.le_succ_of_le hle, fun k hepoch hk =>
          hsplit k hk (hidle k hepoch)⟩
      · have hepoch : epoch = history.length + 1 := by
          rw [← epoch_after]
          exact hfresh.2.2
        refine ⟨by omega, by omega, fun k hk hlt => hsplit k hlt fun _ => ?_⟩
        omega

/-- What is reclaimed was idle at this sweep and the two before it. -/
theorem idle_of_due (h : a ∈ (after history).due sweep) :
    2 ≤ history.length ∧ a ∈ sweep.idle ∧
      ∀ k, history.length ≤ k + 2 → k < history.length →
        ∃ sweep, history[k]? = some sweep ∧ a ∈ sweep.idle := by
  obtain ⟨hidle, epoch, hrow, hdue⟩ := h
  obtain ⟨hpos, hle, hsince⟩ := idle_of_mem_rows hrow
  rw [epoch_after] at hdue
  refine ⟨by omega, hidle, fun k hk hlt => hsince k ?_ hlt⟩
  omega

/-- A rooted object is on no shelf after the sweep. -/
theorem not_mem_rows_of_rooted (shelf : Shelf α) (h : a ∈ sweep.rooted) :
    (a, epoch) ∉ (shelf.next sweep).rows := by
  rintro (hkept | hfresh)
  · exact hkept.2.1.2 h
  · exact hfresh.1.2 h

/-- An idle object is reclaimed or on the shelf. -/
theorem mem_rows_of_idle (shelf : Shelf α)
    (hrows : ∀ epoch, (a, epoch) ∈ shelf.rows → epoch ≤ shelf.epoch)
    (hidle : a ∈ sweep.idle) (hdue : a ∉ shelf.due sweep) :
    ∃ epoch, (a, epoch) ∈ (shelf.next sweep).rows ∧
      epoch ≤ shelf.epoch + 1 := by
  by_cases hrow : ∃ epoch, (a, epoch) ∈ shelf.rows
  · obtain ⟨epoch, hrow⟩ := hrow
    refine ⟨epoch, .inl ⟨hrow, hidle, fun hle => ?_⟩,
      Nat.le_succ_of_le (hrows epoch hrow)⟩
    exact hdue ⟨hidle, epoch, hrow, hle⟩
  · push Not at hrow
    exact ⟨shelf.epoch + 1, .inr ⟨hidle, hrow, rfl⟩, le_rfl⟩

/-- An object idle at three sweeps in a row is reclaimed by the third. -/
theorem due_of_idle {first second third : Sweep α} (hfirst : a ∈ first.idle)
    (hsecond : a ∈ second.idle) (hthird : a ∈ third.idle) :
    a ∈ (after history).due first ∨
      a ∈ (after (history ++ [first])).due second ∨
      a ∈ (after (history ++ [first] ++ [second])).due third := by
  by_cases hdue : a ∈ (after history).due first
  · exact .inl hdue
  by_cases hdue' : a ∈ (after (history ++ [first])).due second
  · exact .inr (.inl hdue')
  right
  right
  have hrows : ∀ epoch, (a, epoch) ∈ (after history).rows →
      epoch ≤ (after history).epoch := by
    intro epoch hrow
    rw [epoch_after]
    exact (idle_of_mem_rows hrow).2.1
  obtain ⟨epoch, hrow, hle⟩ :=
    mem_rows_of_idle (after history) hrows hfirst hdue
  rw [← after_snoc] at hrow
  refine ⟨hthird, epoch, ?_, ?_⟩
  · rw [after_snoc]
    refine .inl ⟨hrow, hsecond, fun hold => ?_⟩
    exact hdue' ⟨hsecond, epoch, hrow, hold⟩
  · rw [epoch_after] at hle ⊢
    simp only [List.length_append, List.length_singleton]
    omega

end Shelf

/-! Reference counts: how many roots reach an object, each root counted once. -/

section

variable [DecidableEq α] {root : List α} {roots : List (List α)} {a : α}

def references (roots : List (List α)) (a : α) : Nat :=
  roots.countP fun root => a ∈ root

theorem references_cons :
    references (root :: roots) a =
      references roots a + if a ∈ root then 1 else 0 := by
  simp [references, List.countP_cons]

theorem references_perm {other : List (List α)} (h : roots.Perm other) :
    references roots a = references other a :=
  h.countP_eq _

theorem references_eq_zero : references roots a = 0 ↔ a ∉ roots.flatten := by
  simp [references, List.countP_eq_zero]

/-- An object of a root has one reference exactly when no other root reaches
it. -/
theorem references_cons_eq_one (h : a ∈ root) :
    references (root :: roots) a = 1 ↔ a ∉ roots.flatten := by
  rw [references_cons, if_pos h, Nat.add_eq_right, references_eq_zero]

end

end TensorFS.Data
