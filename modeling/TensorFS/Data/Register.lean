import Mathlib.Logic.Function.Basic
import Mathlib.Data.List.Basic

namespace TensorFS.Data

/-! Named registers that change atomically and are not made durable: a crash
may bring back any value a name had since the last one.  `sets` keeps every
value that was set and `seen` what each reader was given. -/

structure Register (Name Value : Type) where
  value : Name → Option Value
  past : Name → List (Option Value)
  sets : List (Name × Value)
  seen : Nat → Option (Option Value)

namespace Register

variable {Name Value : Type}

def empty : Register Name Value :=
  ⟨fun _ => none, fun _ => [], [], fun _ => none⟩

/-- The values a crash may leave a name with. -/
def values (reg : Register Name Value) (name : Name) : List (Option Value) :=
  reg.value name :: reg.past name

def look (reg : Register Name Value) (who : Nat) (name : Name) :
    Register Name Value :=
  { reg with seen := Function.update reg.seen who (some (reg.value name)) }

structure Crash (reg later : Register Name Value) : Prop where
  value : ∀ name, later.value name ∈ reg.values name
  past : ∀ name, later.past name = []
  sets : later.sets = reg.sets

variable [DecidableEq Name] (reg : Register Name Value)

def put (name : Name) (value : Option Value) : Register Name Value :=
  { reg with
    value := Function.update reg.value name value
    past := Function.update reg.past name (reg.values name) }

def set (name : Name) (value : Value) : Register Name Value :=
  { reg.put name (some value) with sets := (name, value) :: reg.sets }

def remove (name : Name) : Register Name Value := reg.put name none

variable {reg} {name other : Name} {value : Option Value}

theorem value_put_self : (reg.put name value).value name = value :=
  Function.update_self ..

theorem value_put_of_ne (h : other ≠ name) :
    (reg.put name value).value other = reg.value other :=
  Function.update_of_ne h ..

theorem values_put_self :
    (reg.put name value).values name = value :: reg.values name := by
  rw [values, value_put_self]
  exact congrArg _ (Function.update_self ..)

theorem values_put_of_ne (h : other ≠ name) :
    (reg.put name value).values other = reg.values other := by
  rw [values, value_put_of_ne h]
  exact congrArg _ (Function.update_of_ne h ..)

/-- A name only ever has values that were set. -/
structure Faithful (reg : Register Name Value) : Prop where
  values : ∀ name value, some value ∈ reg.values name →
    (name, value) ∈ reg.sets

omit [DecidableEq Name] in
theorem Faithful.empty : (empty : Register Name Value).Faithful where
  values _ _ h := by simp [Register.values, Register.empty] at h

omit [DecidableEq Name] in
theorem Faithful.crash {later : Register Name Value} (h : reg.Faithful)
    (hcrash : reg.Crash later) : later.Faithful where
  values name found hmem := by
    rw [Register.values, hcrash.past] at hmem
    rw [hcrash.sets]
    have hvalue := List.mem_singleton.mp hmem
    exact h.values name found (hvalue ▸ hcrash.value name)

omit [DecidableEq Name] in
theorem Faithful.look (h : reg.Faithful) (who : Nat) (name : Name) :
    (reg.look who name).Faithful :=
  ⟨h.values⟩

theorem Faithful.remove (h : reg.Faithful) (name : Name) :
    (reg.remove name).Faithful where
  values other found hmem := by
    by_cases heq : other = name
    · subst heq
      rw [Register.remove, values_put_self] at hmem
      rcases List.mem_cons.mp hmem with hnone | hmem
      · cases hnone
      · exact h.values other found hmem
    · rw [Register.remove, values_put_of_ne heq] at hmem
      exact h.values other found hmem

theorem Faithful.set (h : reg.Faithful) (name : Name) (value : Value) :
    (reg.set name value).Faithful where
  values other found hmem := by
    change some found ∈ (reg.put name (some value)).values other at hmem
    change (other, found) ∈ (name, value) :: reg.sets
    by_cases heq : other = name
    · subst heq
      rw [values_put_self] at hmem
      rcases List.mem_cons.mp hmem with hsome | hmem
      · cases hsome
        exact List.mem_cons_self
      · exact List.mem_cons_of_mem _ (h.values other found hmem)
    · rw [values_put_of_ne heq] at hmem
      exact List.mem_cons_of_mem _ (h.values other found hmem)

end Register

end TensorFS.Data
