import Mathlib

namespace TensorFS.Data

/-! Tables: rows found by a key, and integer keys handed out above the ones in
use. -/

variable {ρ κ : Type} {key : ρ → κ} {rows : List ρ} {row : ρ} {k : κ}

theorem eq_of_key (hkeys : (rows.map key).Nodup) {left right : ρ}
    (hleft : left ∈ rows) (hright : right ∈ rows)
    (hkey : key left = key right) : left = right :=
  List.inj_on_of_nodup_map hkeys hleft hright hkey

theorem nodup_filter_keys (hkeys : (rows.map key).Nodup) (p : ρ → Bool) :
    ((rows.filter p).map key).Nodup :=
  hkeys.sublist ((List.filter_sublist (p := p)).map key)

theorem nodup_append_key (hkeys : (rows.map key).Nodup)
    (hfresh : ∀ other ∈ rows, key other ≠ key row) :
    ((rows ++ [row]).map key).Nodup := by
  rw [List.map_append, List.nodup_append]
  refine ⟨hkeys, by simp, ?_⟩
  intro a ha b hb
  obtain ⟨other, hother, rfl⟩ := List.mem_map.mp ha
  rw [List.map_singleton, List.mem_singleton] at hb
  subst hb
  exact hfresh other hother

variable [DecidableEq κ]

/-- The row under one key, and the rows under the others. -/
theorem perm_of_key (hkeys : (rows.map key).Nodup) (h : row ∈ rows) :
    rows.Perm (row :: rows.filter fun other => key other ≠ key row) := by
  induction rows with
  | nil => simp at h
  | cons head rest ih =>
      rw [List.map_cons, List.nodup_cons] at hkeys
      rcases List.mem_cons.mp h with rfl | h
      · have hrest : rest.filter (fun other => key other ≠ key row) = rest := by
          rw [List.filter_eq_self]
          intro other hother
          rw [decide_eq_true_eq]
          rintro heq
          exact hkeys.1 (List.mem_map.mpr ⟨other, hother, heq⟩)
        rw [List.filter_cons_of_neg (by simp), hrest]
      · have hne : key head ≠ key row := by
          rintro heq
          exact hkeys.1 (List.mem_map.mpr ⟨row, h, heq.symm⟩)
        rw [List.filter_cons_of_pos (by simpa using hne)]
        exact ((ih hkeys.2 h).cons head).trans (.swap row head _)

def findRow (key : ρ → κ) (rows : List ρ) (k : κ) : Option ρ :=
  rows.find? fun row => key row = k

theorem findRow_mem (h : findRow key rows k = some row) :
    row ∈ rows ∧ key row = k := by
  have hkey := List.find?_some h
  exact ⟨List.mem_of_find?_eq_some h, by simpa using hkey⟩

theorem findRow_eq_some (hkeys : (rows.map key).Nodup) :
    findRow key rows k = some row ↔ row ∈ rows ∧ key row = k := by
  constructor
  · exact findRow_mem
  · rintro ⟨hmem, hkey⟩
    have hsome : (findRow key rows k).isSome := by
      rw [findRow, List.find?_isSome]
      exact ⟨row, hmem, by simpa using hkey⟩
    obtain ⟨found, hfound⟩ := Option.isSome_iff_exists.mp hsome
    obtain ⟨hfoundMem, hfoundKey⟩ := findRow_mem hfound
    rw [hfound, eq_of_key hkeys hfoundMem hmem (hfoundKey.trans hkey.symm)]

theorem findRow_eq_none :
    findRow key rows k = none ↔ ∀ row ∈ rows, key row ≠ k := by
  simp [findRow]

theorem findRow_isSome :
    (findRow key rows k).isSome = true ↔ ∃ row ∈ rows, key row = k := by
  simp [findRow]

/-- One row rewritten in place. -/
def updateRow (key : ρ → κ) (k : κ) (f : ρ → ρ) (rows : List ρ) : List ρ :=
  rows.map fun row => if key row = k then f row else row

theorem mem_updateRow {f : ρ → ρ} :
    row ∈ updateRow key k f rows ↔
      (row ∈ rows ∧ key row ≠ k) ∨
        ∃ old ∈ rows, key old = k ∧ row = f old := by
  simp only [updateRow, List.mem_map]
  constructor
  · rintro ⟨old, hold, rfl⟩
    split
    · rename_i hkey
      exact .inr ⟨old, hold, hkey, rfl⟩
    · rename_i hkey
      exact .inl ⟨hold, hkey⟩
  · rintro (⟨hmem, hkey⟩ | ⟨old, hold, hkey, rfl⟩)
    · exact ⟨row, hmem, if_neg hkey⟩
    · exact ⟨old, hold, if_pos hkey⟩

theorem map_updateRow {β : Type} {f : ρ → ρ} (g : ρ → β)
    (hg : ∀ row, g (f row) = g row) :
    (updateRow key k f rows).map g = rows.map g := by
  rw [updateRow, List.map_map]
  refine List.map_congr_left fun row _ => ?_
  simp only [Function.comp_apply]
  split
  · exact hg row
  · rfl

/-- One above the largest key in use, and 1 in an empty table. -/
def nextId (ids : List Nat) : Nat := ids.foldr max 0 + 1

theorem lt_nextId {ids : List Nat} {id : Nat} (h : id ∈ ids) :
    id < nextId ids := by
  unfold nextId
  induction ids with
  | nil => simp at h
  | cons head rest ih =>
      rw [List.foldr_cons]
      rcases List.mem_cons.mp h with rfl | h
      · omega
      · have := ih h
        omega

theorem nextId_pos {ids : List Nat} : 0 < nextId ids :=
  Nat.succ_pos _

theorem nextId_le {ids : List Nat} {bound : Nat} (hpos : 0 < bound)
    (h : ∀ id ∈ ids, id < bound) : nextId ids ≤ bound := by
  unfold nextId
  induction ids with
  | nil => exact hpos
  | cons head rest ih =>
      have hhead := h head List.mem_cons_self
      have hrest := ih fun id hid => h id (List.mem_cons_of_mem _ hid)
      rw [List.foldr_cons]
      omega

theorem nextId_ne {ids : List Nat} {id : Nat} (h : id ∈ ids) :
    id ≠ nextId ids :=
  ne_of_lt (lt_nextId h)

end TensorFS.Data
