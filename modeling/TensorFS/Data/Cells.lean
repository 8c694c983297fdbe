import Mathlib

namespace TensorFS.Data

/-! Buffers as consecutive cells of one size. -/

variable {α β ε : Type}

def cell (size : Nat) (buffer : List α) (index : Nat) : List α :=
  (buffer.drop (index * size)).take size

/-- The buffer with a range replaced. -/
def patch (buffer : List α) (start : Nat) (items : List α) : List α :=
  buffer.take start ++ items ++ buffer.drop (start + items.length)

variable {buffer items other : List α} {size start first count index : Nat}

theorem getElem?_cell (position : Nat) :
    (cell size buffer index)[position]? =
      if position < size then buffer[index * size + position]? else none := by
  rw [cell, List.getElem?_take]
  split
  · rw [List.getElem?_drop]
  · rfl

theorem length_patch (h : start + items.length ≤ buffer.length) :
    (patch buffer start items).length = buffer.length := by
  simp only [patch, List.length_append, List.length_take, List.length_drop]
  omega

theorem take_patch (h : start ≤ buffer.length) :
    (patch buffer start items).take (start + items.length) =
      buffer.take start ++ items := by
  have hlength : (buffer.take start ++ items).length =
      start + items.length := by
    rw [List.length_append, List.length_take, Nat.min_eq_left h]
  rw [patch, ← hlength, List.take_left]

theorem getElem?_patch (h : start + items.length ≤ buffer.length)
    (position : Nat) :
    (patch buffer start items)[position]? =
      if start ≤ position ∧ position < start + items.length then
        items[position - start]?
      else buffer[position]? := by
  have htake : (buffer.take start).length = start := by
    rw [List.length_take]
    omega
  rw [patch, List.append_assoc]
  by_cases hbefore : position < start
  · rw [List.getElem?_append_left (by omega), List.getElem?_take,
      if_pos hbefore, if_neg (by omega)]
  · rw [List.getElem?_append_right (by omega), htake]
    by_cases hinside : position < start + items.length
    · rw [List.getElem?_append_left (by omega), if_pos (by omega)]
    · rw [List.getElem?_append_right (by omega), List.getElem?_drop,
        if_neg (by omega)]
      congr 1
      omega

theorem cell_patch_inside
    (h : first * size + items.length ≤ buffer.length)
    (hitems : items.length = count * size) (hfirst : first ≤ index)
    (hlast : index < first + count) :
    cell size (patch buffer (first * size) items) index =
      cell size items (index - first) := by
  have hend : (index - first + 1) * size ≤ count * size :=
    Nat.mul_le_mul_right _ (by omega)
  have hsplit : index * size = first * size + (index - first) * size := by
    rw [← Nat.add_mul]
    congr 1
    omega
  rw [Nat.add_mul, Nat.one_mul] at hend
  refine List.ext_getElem? fun position => ?_
  rw [getElem?_cell, getElem?_cell]
  split
  · rename_i hposition
    rw [getElem?_patch h, if_pos (by omega)]
    congr 1
    omega
  · rfl

theorem cell_patch_outside
    (h : first * size + items.length ≤ buffer.length)
    (hitems : items.length = count * size)
    (houtside : index < first ∨ first + count ≤ index) :
    cell size (patch buffer (first * size) items) index =
      cell size buffer index := by
  refine List.ext_getElem? fun position => ?_
  rw [getElem?_cell, getElem?_cell]
  split
  · rename_i hposition
    rw [getElem?_patch h, if_neg]
    rcases houtside with hbefore | hafter
    · have hend : (index + 1) * size ≤ first * size :=
        Nat.mul_le_mul_right _ hbefore
      rw [Nat.add_mul, Nat.one_mul] at hend
      omega
    · have hend : (first + count) * size ≤ index * size :=
        Nat.mul_le_mul_right _ hafter
      rw [Nat.add_mul] at hend
      omega
  · rfl

theorem cell_slice (hindex : index < count) :
    cell size ((buffer.drop (first * size)).take (count * size)) index =
      cell size buffer (first + index) := by
  have hend : (index + 1) * size ≤ count * size :=
    Nat.mul_le_mul_right _ hindex
  rw [Nat.add_mul, Nat.one_mul] at hend
  refine List.ext_getElem? fun position => ?_
  rw [getElem?_cell, getElem?_cell]
  split
  · rename_i hposition
    rw [List.getElem?_take, if_pos (by omega), List.getElem?_drop, Nat.add_mul]
    congr 1
    omega
  · rfl

theorem cell_append_left (h : (index + 1) * size ≤ buffer.length)
    (items : List α) :
    cell size (buffer ++ items) index = cell size buffer index := by
  rw [Nat.add_mul, Nat.one_mul] at h
  rw [cell, List.drop_append_of_le_length (by omega),
    List.take_append_of_le_length (by rw [List.length_drop]; omega), cell]

theorem cell_append_right (h : buffer.length = count * size)
    (items : List α) (index : Nat) :
    cell size (buffer ++ items) (count + index) = cell size items index := by
  rw [cell, Nat.add_mul, ← h, List.drop_length_add_append, cell]

theorem cell_replicate (item : α) (hindex : index < count) :
    cell size (List.replicate (count * size) item) index =
      List.replicate size item := by
  have hend : (index + 1) * size ≤ count * size :=
    Nat.mul_le_mul_right _ hindex
  rw [Nat.add_mul, Nat.one_mul] at hend
  rw [cell, List.drop_replicate, List.take_replicate,
    Nat.min_eq_left (by omega)]

/-- Buffers of one length with the same cells are the same. -/
theorem eq_of_cells (hbuffer : buffer.length = count * size)
    (hother : other.length = count * size)
    (h : ∀ index < count, cell size buffer index = cell size other index) :
    buffer = other := by
  refine List.ext_getElem? fun position => ?_
  by_cases hposition : position < count * size
  · have hsize : 0 < size := Nat.pos_of_ne_zero fun hzero => by
      rw [hzero, Nat.mul_zero] at hposition
      omega
    have hindex : position / size < count :=
      Nat.div_lt_of_lt_mul (by rwa [Nat.mul_comm])
    have hat := congrArg (fun items => items[position % size]?)
      (h (position / size) hindex)
    simp only [getElem?_cell, Nat.mod_lt _ hsize, if_true,
      Nat.div_add_mod'] at hat
    exact hat
  · rw [List.getElem?_eq_none (by omega), List.getElem?_eq_none (by omega)]

/-- A loop over consecutive steps keeps what each step keeps. -/
theorem foldlM_steps (f : β → α → Except ε β) (g : Nat → α)
    (inv : Nat → β → Prop) {left : Nat} {state : β}
    (hstep : ∀ step, start ≤ step → step < start + left → ∀ state,
      inv step state → ∃ next, f state (g step) = .ok next ∧
        inv (step + 1) next)
    (h : inv start state) :
    ∃ final, ((List.range' start left).map g).foldlM f state = .ok final ∧
      inv (start + left) final := by
  induction left generalizing start state with
  | zero => exact ⟨state, rfl, h⟩
  | succ left ih =>
      obtain ⟨next, hnext, hinv⟩ := hstep start le_rfl (by omega) state h
      obtain ⟨final, hfinal, hdone⟩ := ih (fun step hfrom hto =>
        hstep step (by omega) (by omega)) hinv
      refine ⟨final, ?_, by rwa [Nat.add_assoc, Nat.add_comm 1] at hdone⟩
      rw [List.range'_succ, List.map_cons, List.foldlM_cons, hnext]
      exact hfinal

end TensorFS.Data
