import Mathlib

namespace TensorFS.Data

/-! Finite maps kept as association lists in strictly increasing key order. -/

structure OrdMap (κ β : Type) [LinearOrder κ] where
  entries : List (κ × β)
  sorted : entries.Pairwise fun left right => left.1 < right.1

namespace OrdMap

variable {κ β : Type} [LinearOrder κ]

def empty : OrdMap κ β := ⟨[], List.Pairwise.nil⟩

def lookup (key : κ) : List (κ × β) → Option β
  | [] => none
  | (other, value) :: rest =>
      if key = other then some value else lookup key rest

def get? (m : OrdMap κ β) (key : κ) : Option β := lookup key m.entries

def insertList (key : κ) (value : β) : List (κ × β) → List (κ × β)
  | [] => [(key, value)]
  | (other, old) :: rest =>
      if key < other then
        (key, value) :: (other, old) :: rest
      else if key = other then
        (key, value) :: rest
      else
        (other, old) :: insertList key value rest

theorem mem_insertList {key : κ} {value : β} {xs : List (κ × β)}
    (hsorted : xs.Pairwise fun left right => left.1 < right.1)
    {pair : κ × β} :
    pair ∈ insertList key value xs ↔
      pair = (key, value) ∨ (pair ∈ xs ∧ pair.1 ≠ key) := by
  induction xs with
  | nil => simp [insertList]
  | cons head rest ih =>
      obtain ⟨other, old⟩ := head
      obtain ⟨hhead, hrest⟩ := List.pairwise_cons.mp hsorted
      have hgt : ∀ p ∈ rest, other < p.1 := fun p hp => hhead p hp
      unfold insertList
      split
      · rename_i hlt
        have hne : ∀ p ∈ (other, old) :: rest, p.1 ≠ key := by
          intro p hp heq
          rcases List.mem_cons.mp hp with rfl | hp
          · exact absurd heq (ne_of_gt hlt)
          · exact absurd heq (ne_of_gt (hlt.trans (hgt p hp)))
        constructor
        · intro hmem
          rcases List.mem_cons.mp hmem with rfl | hmem
          · exact .inl rfl
          · exact .inr ⟨hmem, hne pair hmem⟩
        · rintro (rfl | ⟨hmem, _⟩)
          · exact List.mem_cons_self
          · exact List.mem_cons_of_mem _ hmem
      · split
        · rename_i heq
          subst heq
          constructor
          · intro hmem
            rcases List.mem_cons.mp hmem with rfl | hmem
            · exact .inl rfl
            · exact .inr ⟨List.mem_cons_of_mem _ hmem, ne_of_gt (hgt pair hmem)⟩
          · rintro (rfl | ⟨hmem, hne⟩)
            · exact List.mem_cons_self
            · rcases List.mem_cons.mp hmem with rfl | hmem
              · exact absurd rfl hne
              · exact List.mem_cons_of_mem _ hmem
        · rename_i hnlt hne
          rw [List.mem_cons, ih hrest, List.mem_cons]
          constructor
          · rintro (rfl | hpair | ⟨hmem, hk⟩)
            · exact .inr ⟨.inl rfl, fun h => hne h.symm⟩
            · exact .inl hpair
            · exact .inr ⟨.inr hmem, hk⟩
          · rintro (hpair | ⟨hpair | hmem, hk⟩)
            · exact .inr (.inl hpair)
            · exact .inl hpair
            · exact .inr (.inr ⟨hmem, hk⟩)

theorem sorted_insertList {key : κ} {value : β} {xs : List (κ × β)}
    (hsorted : xs.Pairwise fun left right => left.1 < right.1) :
    (insertList key value xs).Pairwise
      fun left right => left.1 < right.1 := by
  induction xs with
  | nil => simp [insertList]
  | cons head rest ih =>
      obtain ⟨other, old⟩ := head
      obtain ⟨hhead, hrest⟩ := List.pairwise_cons.mp hsorted
      unfold insertList
      split
      · rename_i hlt
        refine List.pairwise_cons.mpr ⟨?_, hsorted⟩
        intro p hp
        rcases List.mem_cons.mp hp with rfl | hp
        · exact hlt
        · exact hlt.trans (hhead p hp)
      · split
        · rename_i heq
          subst heq
          exact List.pairwise_cons.mpr ⟨hhead, hrest⟩
        · rename_i hnlt hne
          refine List.pairwise_cons.mpr ⟨?_, ih hrest⟩
          intro p hp
          rcases (mem_insertList hrest).mp hp with rfl | ⟨hp, _⟩
          · exact lt_of_le_of_ne (not_lt.mp hnlt) (Ne.symm hne)
          · exact hhead p hp

def insert (m : OrdMap κ β) (key : κ) (value : β) : OrdMap κ β :=
  ⟨insertList key value m.entries, sorted_insertList m.sorted⟩

def erase (m : OrdMap κ β) (key : κ) : OrdMap κ β :=
  ⟨m.entries.filter fun pair => pair.1 ≠ key, m.sorted.filter _⟩

theorem lookup_eq_some {xs : List (κ × β)}
    (hsorted : xs.Pairwise fun left right => left.1 < right.1)
    {key : κ} {value : β} :
    lookup key xs = some value ↔ (key, value) ∈ xs := by
  induction xs with
  | nil => simp [lookup]
  | cons head rest ih =>
      obtain ⟨other, old⟩ := head
      obtain ⟨hhead, hrest⟩ := List.pairwise_cons.mp hsorted
      unfold lookup
      split
      · rename_i heq
        subst heq
        simp only [Option.some.injEq, List.mem_cons, Prod.mk.injEq, true_and]
        constructor
        · intro h
          exact .inl h.symm
        · rintro (h | hmem)
          · exact h.symm
          · exact absurd (hhead _ hmem) (lt_irrefl _)
      · rename_i hne
        simp [ih hrest, hne]

theorem get?_eq_some {m : OrdMap κ β} {key : κ} {value : β} :
    m.get? key = some value ↔ (key, value) ∈ m.entries :=
  lookup_eq_some m.sorted

theorem get?_eq_none {m : OrdMap κ β} {key : κ} :
    m.get? key = none ↔ ∀ value, (key, value) ∉ m.entries := by
  rw [Option.eq_none_iff_forall_ne_some]
  exact forall_congr' fun value => not_congr get?_eq_some

@[simp] theorem get?_empty (key : κ) :
    (empty : OrdMap κ β).get? key = none := rfl

@[simp] theorem entries_empty : (empty : OrdMap κ β).entries = [] := rfl

theorem mem_insert {m : OrdMap κ β} {key : κ} {value : β} {pair : κ × β} :
    pair ∈ (m.insert key value).entries ↔
      pair = (key, value) ∨ (pair ∈ m.entries ∧ pair.1 ≠ key) :=
  mem_insertList m.sorted

theorem mem_erase {m : OrdMap κ β} {key : κ} {pair : κ × β} :
    pair ∈ (m.erase key).entries ↔ pair ∈ m.entries ∧ pair.1 ≠ key := by
  simp [erase]

theorem get?_insert (m : OrdMap κ β) (key : κ) (value : β) (other : κ) :
    (m.insert key value).get? other =
      if other = key then some value else m.get? other := by
  apply Option.ext
  intro found
  rw [get?_eq_some, mem_insert]
  split
  · rename_i heq
    subst heq
    simp [eq_comm]
  · rename_i hne
    simp [get?_eq_some, hne]

theorem get?_erase (m : OrdMap κ β) (key other : κ) :
    (m.erase key).get? other = if other = key then none else m.get? other := by
  apply Option.ext
  intro found
  rw [get?_eq_some, mem_erase]
  split
  · rename_i heq
    simp [heq]
  · rename_i hne
    simp [get?_eq_some, hne]

theorem ext_entries {left right : OrdMap κ β}
    (h : left.entries = right.entries) : left = right := by
  cases left
  cases right
  congr

/-- Two maps with the same lookups are the same map. -/
theorem ext_get? {left right : OrdMap κ β}
    (h : ∀ key, left.get? key = right.get? key) : left = right := by
  obtain ⟨leftEntries, leftSorted⟩ := left
  obtain ⟨rightEntries, rightSorted⟩ := right
  have hmem : ∀ pair, pair ∈ leftEntries ↔ pair ∈ rightEntries := by
    rintro ⟨key, value⟩
    rw [← lookup_eq_some leftSorted, ← lookup_eq_some rightSorted]
    exact iff_of_eq (congrArg (· = some value) (h key))
  have heq : leftEntries = rightEntries := by
    have leftNodup : leftEntries.Nodup :=
      leftSorted.imp fun h heq => absurd h (by rw [heq]; exact lt_irrefl _)
    have rightNodup : rightEntries.Nodup :=
      rightSorted.imp fun h heq => absurd h (by rw [heq]; exact lt_irrefl _)
    have hperm : leftEntries.Perm rightEntries :=
      (List.perm_ext_iff_of_nodup leftNodup rightNodup).mpr hmem
    exact hperm.eq_of_pairwise (fun a b _ _ hab hba =>
      absurd (hab.trans hba) (lt_irrefl _)) leftSorted rightSorted
  exact ext_entries heq

theorem keys_nodup (m : OrdMap κ β) : (m.entries.map Prod.fst).Nodup := by
  rw [List.nodup_iff_pairwise_ne, List.pairwise_map]
  exact m.sorted.imp fun h => ne_of_lt h

theorem mem_keys_insert {m : OrdMap κ β} {key other : κ} {value : β} :
    other ∈ (m.insert key value).entries.map Prod.fst ↔
      other = key ∨ other ∈ m.entries.map Prod.fst := by
  simp only [List.mem_map, mem_insert, Prod.exists, exists_and_right,
    exists_eq_right, Prod.mk.injEq]
  constructor
  · rintro ⟨found, (⟨rfl, _⟩ | ⟨hmem, _⟩)⟩
    · exact .inl rfl
    · exact .inr ⟨found, hmem⟩
  · rintro (rfl | ⟨found, hmem⟩)
    · exact ⟨value, .inl ⟨rfl, rfl⟩⟩
    · by_cases heq : other = key
      · subst heq
        exact ⟨value, .inl ⟨rfl, rfl⟩⟩
      · exact ⟨found, .inr ⟨hmem, heq⟩⟩

theorem mem_keys {m : OrdMap κ β} {key : κ} :
    key ∈ m.entries.map Prod.fst ↔ m.get? key ≠ none := by
  rw [Ne, get?_eq_none, List.mem_map]
  constructor
  · rintro ⟨entry, hentry, rfl⟩ hnone
    exact hnone entry.2 hentry
  · intro h
    obtain ⟨value, hvalue⟩ := not_forall.mp h
    exact ⟨(key, value), not_not.mp hvalue, rfl⟩

theorem keys_insert_perm {m : OrdMap κ β} {key : κ} {value : β}
    (h : m.get? key = none) :
    ((m.insert key value).entries.map Prod.fst).Perm
      (key :: m.entries.map Prod.fst) := by
  refine (List.perm_ext_iff_of_nodup (keys_nodup _)
    (List.nodup_cons.mpr ⟨?_, m.keys_nodup⟩)).mpr fun other => ?_
  · exact fun hmem => mem_keys.mp hmem h
  · rw [mem_keys_insert, List.mem_cons]

theorem entries_nodup (m : OrdMap κ β) : m.entries.Nodup :=
  List.Nodup.of_map Prod.fst m.keys_nodup

theorem insert_perm (m : OrdMap κ β) (key : κ) (value : β) :
    (m.insert key value).entries.Perm
      ((key, value) :: (m.erase key).entries) := by
  refine (List.perm_ext_iff_of_nodup (entries_nodup _)
    (List.nodup_cons.mpr ⟨?_, entries_nodup _⟩)).mpr fun pair => ?_
  · exact fun hmem => (mem_erase.mp hmem).2 rfl
  · rw [mem_insert, List.mem_cons, mem_erase]

theorem perm_of_get? {m : OrdMap κ β} {key : κ} {value : β}
    (h : m.get? key = some value) :
    m.entries.Perm ((key, value) :: (m.erase key).entries) := by
  have hsame : m.insert key value = m := by
    refine ext_get? fun other => ?_
    rw [get?_insert]
    split
    · rename_i heq
      rw [heq, h]
    · rfl
  have hperm := m.insert_perm key value
  rwa [hsame] at hperm

theorem erase_of_none {m : OrdMap κ β} {key : κ} (h : m.get? key = none) :
    (m.erase key).entries = m.entries := by
  refine List.filter_eq_self.mpr fun pair hpair => ?_
  rw [decide_eq_true_eq]
  rintro rfl
  exact get?_eq_none.mp h pair.2 hpair

/-- Appending a key above every key of the map. -/
theorem insertList_of_gt {key : κ} {value : β} {xs : List (κ × β)}
    (h : ∀ pair ∈ xs, pair.1 < key) :
    insertList key value xs = xs ++ [(key, value)] := by
  induction xs with
  | nil => rfl
  | cons head rest ih =>
      have hhead := h head List.mem_cons_self
      have hrest := ih fun pair hp => h pair (List.mem_cons_of_mem _ hp)
      simp [insertList, not_lt_of_gt hhead, ne_of_gt hhead, hrest]

/-- A value appended under one key is appended to all values. -/
theorem insert_append_perm {α : Type} (m : OrdMap κ (List α)) (key : κ)
    (x : α) :
    ((m.insert key ((m.get? key).getD [] ++ [x])).entries.flatMap
      Prod.snd).Perm (m.entries.flatMap Prod.snd ++ [x]) := by
  have hold : (m.entries.flatMap Prod.snd).Perm
      ((m.get? key).getD [] ++ (m.erase key).entries.flatMap Prod.snd) := by
    cases hget : m.get? key with
    | none => rw [erase_of_none hget, Option.getD_none, List.nil_append]
    | some found => exact (perm_of_get? hget).flatMap_right _
  have hnew := (m.insert_perm key
    ((m.get? key).getD [] ++ [x])).flatMap_right Prod.snd
  rw [List.flatMap_cons] at hnew
  refine hnew.trans ?_
  simp only [List.append_assoc]
  refine (List.Perm.append_left _ List.perm_append_comm).trans ?_
  rw [← List.append_assoc]
  exact hold.symm.append_right _

end OrdMap

end TensorFS.Data
