import Mathlib

namespace TensorFS.Data

/-! Mixed-radix numerals, outermost digit first, and what reordering their
digits does to the numbers they spell. -/

namespace Radix

def digits : List Nat → Nat → List Nat
  | [], _ => []
  | _ :: radices, n => n / radices.prod :: digits radices (n % radices.prod)

/-- What one unit of each digit is worth. -/
def weights : List Nat → List Nat
  | [] => []
  | _ :: radices => radices.prod :: weights radices

def value (radices ds : List Nat) : Nat :=
  (List.zipWith (· * ·) ds (weights radices)).sum

/-- One digit a radix, each below it. -/
def Fits (radices ds : List Nat) : Prop := List.Forall₂ (· < ·) ds radices

variable {radices left right ds : List Nat} {n : Nat}

@[simp] theorem value_nil : value [] ds = 0 := by
  simp [value, weights]

@[simp] theorem value_cons (radix digit : Nat) :
    value (radix :: radices) (digit :: ds) =
      digit * radices.prod + value radices ds := by
  simp [value, weights]

@[simp] theorem length_digits : (digits radices n).length = radices.length := by
  induction radices generalizing n with
  | nil => rfl
  | cons radix radices ih => simp [digits, ih]

@[simp] theorem length_weights : (weights radices).length = radices.length := by
  induction radices with
  | nil => rfl
  | cons radix radices ih => simp [weights, ih]

theorem Fits.length_eq (h : Fits radices ds) : ds.length = radices.length :=
  List.Forall₂.length_eq h

theorem Fits.prod_pos (h : Fits radices ds) : 0 < radices.prod := by
  induction h with
  | nil => simp
  | cons hlt _ ih =>
      rw [List.prod_cons]
      exact Nat.mul_pos (by omega) ih

theorem Fits.split (h : Fits (left ++ right) ds) :
    ∃ front back, ds = front ++ back ∧ Fits left front ∧ Fits right back :=
  ⟨ds.take left.length, ds.drop left.length,
    (List.take_append_drop _ _).symm, List.forall₂_take_append _ _ _ h,
    List.forall₂_drop_append _ _ _ h⟩

theorem fits_digits (h : n < radices.prod) :
    Fits radices (digits radices n) := by
  induction radices generalizing n with
  | nil => exact List.Forall₂.nil
  | cons radix radices ih =>
      rw [List.prod_cons] at h
      have hpos : 0 < radices.prod := by
        rw [Nat.pos_iff_ne_zero]
        rintro hzero
        simp [hzero] at h
      exact List.Forall₂.cons (Nat.div_lt_of_lt_mul (by rwa [Nat.mul_comm]))
        (ih (Nat.mod_lt _ hpos))

theorem value_lt (h : Fits radices ds) : value radices ds < radices.prod := by
  induction h with
  | nil => simp
  | @cons digit radix ds radices hlt htail ih =>
      rw [value_cons, List.prod_cons]
      calc digit * radices.prod + value radices ds
          < digit * radices.prod + radices.prod := Nat.add_lt_add_left ih _
        _ = (digit + 1) * radices.prod := by ring
        _ ≤ radix * radices.prod := Nat.mul_le_mul_right _ hlt

theorem value_digits (h : n < radices.prod) :
    value radices (digits radices n) = n := by
  induction radices generalizing n with
  | nil =>
      simp only [List.prod_nil, Nat.lt_one_iff] at h
      rw [value_nil, h]
  | cons radix radices ih =>
      have hpos : 0 < radices.prod := by
        rw [Nat.pos_iff_ne_zero]
        rintro hzero
        simp [hzero] at h
      rw [digits, value_cons, ih (Nat.mod_lt _ hpos)]
      exact Nat.div_add_mod' n radices.prod

theorem digits_value (h : Fits radices ds) :
    digits radices (value radices ds) = ds := by
  induction h with
  | nil => rfl
  | cons hlt htail ih =>
      have hbound := value_lt htail
      rw [value_cons, digits, Nat.add_comm, Nat.add_mul_div_right _ _
        (Fits.prod_pos htail), Nat.div_eq_of_lt hbound, Nat.zero_add,
        Nat.add_mul_mod_self_right, Nat.mod_eq_of_lt hbound, ih]

theorem value_inj {other : List Nat} (h : Fits radices ds)
    (hother : Fits radices other)
    (heq : value radices ds = value radices other) : ds = other := by
  rw [← digits_value h, heq, digits_value hother]

theorem digits_zero : digits radices 0 = List.replicate radices.length 0 := by
  induction radices with
  | nil => rfl
  | cons radix radices ih => simp [digits, ih, List.replicate_succ]

theorem digits_append (h : n < (left ++ right).prod) :
    digits (left ++ right) n =
      digits left (n / right.prod) ++ digits right (n % right.prod) := by
  induction left generalizing n with
  | nil =>
      rw [List.nil_append] at h ⊢
      rw [digits, List.nil_append, Nat.mod_eq_of_lt h]
  | cons radix left ih =>
      rw [List.cons_append, List.prod_cons] at h
      have hpos : 0 < (left ++ right).prod :=
        Nat.pos_of_mul_pos_left (Nat.zero_lt_of_lt h)
      rw [List.cons_append, digits, digits, ih (Nat.mod_lt _ hpos),
        List.cons_append, List.prod_append, Nat.mod_mul_left_mod,
        Nat.mod_mul_left_div_self, Nat.div_div_eq_div_mul,
        Nat.mul_comm left.prod]

theorem weights_append :
    weights (left ++ right) =
      (weights left).map (· * right.prod) ++ weights right := by
  induction left with
  | nil => rfl
  | cons radix left ih => simp [weights, ih]

theorem value_append {front back : List Nat}
    (h : front.length = left.length) :
    value (left ++ right) (front ++ back) =
      value left front * right.prod + value right back := by
  induction left generalizing front with
  | nil =>
      rw [List.length_nil, List.length_eq_zero_iff] at h
      subst h
      simp
  | cons radix left ih =>
      cases front with
      | nil => simp at h
      | cons digit front =>
          rw [List.cons_append, List.cons_append, value_cons, value_cons,
            ih (by simpa using h), List.prod_append]
          ring

/-! Counting up. -/

/-- One step of an odometer, and whether it carried out of the top. -/
def step : List Nat → List Nat → List Nat × Bool
  | radix :: radices, digit :: ds =>
      match step radices ds with
      | (ds, false) => (digit :: ds, false)
      | (ds, true) =>
          if digit + 1 < radix then ((digit + 1) :: ds, false)
          else (0 :: ds, true)
  | _, _ => ([], true)

theorem step_digits (h : n < radices.prod) :
    step radices (digits radices n) =
      if n + 1 < radices.prod then (digits radices (n + 1), false)
      else (digits radices 0, true) := by
  induction radices generalizing n with
  | nil =>
      rw [List.prod_nil] at h ⊢
      rw [if_neg (by omega)]
      rfl
  | cons radix radices ih =>
      rw [List.prod_cons] at h ⊢
      have hpos : 0 < radices.prod :=
        Nat.pos_of_mul_pos_left (Nat.zero_lt_of_lt h)
      have hdigit : n / radices.prod < radix :=
        Nat.div_lt_of_lt_mul (by rwa [Nat.mul_comm])
      have hsplit := Nat.div_add_mod' n radices.prod
      have hmod := Nat.mod_lt n hpos
      rw [digits, step, ih hmod]
      generalize n / radices.prod = high at hdigit hsplit ⊢
      generalize n % radices.prod = low at hsplit hmod ⊢
      subst hsplit
      by_cases hlow : low + 1 < radices.prod
      · have hbelow : high * radices.prod + low + 1 <
            radix * radices.prod := by
          calc high * radices.prod + low + 1
              < high * radices.prod + radices.prod := by omega
            _ = (high + 1) * radices.prod := by ring
            _ ≤ radix * radices.prod := Nat.mul_le_mul_right _ hdigit
        have hnext : digits (radix :: radices)
            (high * radices.prod + low + 1) =
              high :: digits radices (low + 1) := by
          rw [digits, Nat.add_assoc, Nat.add_comm, Nat.add_mul_div_right _ _
            hpos, Nat.div_eq_of_lt hlow, Nat.zero_add,
            Nat.add_mul_mod_self_right, Nat.mod_eq_of_lt hlow]
        rw [if_pos hlow, if_pos hbelow, hnext]
      · have hcarry : high * radices.prod + low + 1 =
            (high + 1) * radices.prod := by
          have hlast : low + 1 = radices.prod := by omega
          rw [Nat.add_assoc, hlast]
          ring
        rw [if_neg hlow, hcarry]
        by_cases hhigh : high + 1 < radix
        · have hbelow : (high + 1) * radices.prod < radix * radices.prod :=
            Nat.mul_lt_mul_of_pos_right hhigh hpos
          rw [if_pos hbelow, digits, Nat.mul_div_cancel _ hpos,
            Nat.mul_mod_left]
          simp only [hhigh, if_true]
        · have hbelow : ¬ (high + 1) * radices.prod <
              radix * radices.prod := by
            rw [show high + 1 = radix by omega]
            exact lt_irrefl _
          rw [if_neg hbelow, digits, Nat.zero_div, Nat.zero_mod]
          simp only [hhigh, if_false]

/-! Reordered digits. -/

/-- Every position below the length, once. -/
def IsOrder (order : List Nat) : Prop := order.Perm (List.range order.length)

/-- The digit of a position, when `order` lists the positions of the digits. -/
def place (order ds : List Nat) (position : Nat) : Nat :=
  ds.getD (order.idxOf position) 0

/-- The radices in another order. -/
def reorder (order radices : List Nat) : List Nat :=
  order.map fun position => radices.getD position 0

/-- The digits back in their declared places. -/
def restore (order ds : List Nat) : List Nat :=
  (List.range order.length).map (place order ds)

variable {order : List Nat}

theorem IsOrder.nodup (h : IsOrder order) : order.Nodup :=
  h.nodup_iff.mpr List.nodup_range

theorem IsOrder.lt (h : IsOrder order) {position : Nat}
    (hmem : position ∈ order) : position < order.length :=
  List.mem_range.mp (h.mem_iff.mp hmem)

theorem IsOrder.mem (h : IsOrder order) {position : Nat}
    (hlt : position < order.length) : position ∈ order :=
  h.mem_iff.mpr (List.mem_range.mpr hlt)

theorem map_place (hnodup : order.Nodup) (hlength : ds.length = order.length) :
    order.map (place order ds) = ds := by
  refine List.ext_getElem (by simpa using hlength.symm) fun index hleft hright =>
    ?_
  rw [List.getElem_map, place, hnodup.idxOf_getElem,
    List.getD_eq_getElem _ _ hright]

theorem map_getD_range (radices : List Nat) :
    (List.range radices.length).map (fun position => radices.getD position 0) =
      radices := by
  refine List.ext_getElem (by simp) fun index hleft hright => ?_
  rw [List.getElem_map, List.getElem_range, List.getD_eq_getElem _ _ hright]

theorem fits_map_range {f : Nat → Nat} :
    Fits radices ((List.range radices.length).map f) ↔
      ∀ position < radices.length, f position < radices.getD position 0 := by
  conv_lhs => rw [← map_getD_range radices]
  rw [List.length_map, List.length_range, Fits, List.forall₂_map_left_iff,
    List.forall₂_map_right_iff, List.forall₂_same]
  simp only [List.mem_range]

theorem prod_reorder (h : IsOrder order) (hlength : order.length = radices.length) :
    (reorder order radices).prod = radices.prod := by
  have hperm := h.map fun position => radices.getD position 0
  rw [hlength, map_getD_range] at hperm
  exact hperm.prod_eq

theorem fits_restore (h : IsOrder order)
    (hlength : order.length = radices.length)
    (hfits : Fits (reorder order radices) ds) :
    Fits radices (restore order ds) := by
  have hall : ∀ position ∈ order,
      place order ds position < radices.getD position 0 := by
    have hmap := map_place h.nodup (by simpa [reorder] using hfits.length_eq)
    have hfits' := hfits
    rw [← hmap, Fits, reorder, List.forall₂_map_left_iff,
      List.forall₂_map_right_iff, List.forall₂_same] at hfits'
    exact hfits'
  have hmapped : Fits ((List.range order.length).map fun position =>
      radices.getD position 0) (restore order ds) := by
    rw [restore, Fits, List.forall₂_map_left_iff, List.forall₂_map_right_iff,
      List.forall₂_same]
    exact fun position hmem => hall position (h.mem_iff.mpr hmem)
  rwa [hlength, map_getD_range] at hmapped

theorem restore_inj (h : IsOrder order) {other : List Nat}
    (hds : ds.length = order.length) (hother : other.length = order.length)
    (heq : restore order ds = restore order other) : ds = other := by
  rw [← map_place h.nodup hds, ← map_place h.nodup hother]
  refine List.map_congr_left fun position hmem => ?_
  have hat := congrArg (fun xs => xs.getD position 0) heq
  have hlt := h.lt hmem
  simpa [restore, hlt] using hat

/-- Where a number lands when its digits are read in `order`. -/
def gather (order radices : List Nat) (n : Nat) : Nat :=
  value radices (restore order (digits (reorder order radices) n))

theorem gather_lt (h : IsOrder order) (hlength : order.length = radices.length)
    (hn : n < radices.prod) : gather order radices n < radices.prod :=
  value_lt (fits_restore h hlength
    (fits_digits (by rwa [prod_reorder h hlength])))

theorem gather_inj (h : IsOrder order) (hlength : order.length = radices.length)
    {m : Nat} (hm : m < radices.prod) (hn : n < radices.prod)
    (heq : gather order radices m = gather order radices n) : m = n := by
  rw [← prod_reorder h hlength] at hm hn
  have hrestore := value_inj (fits_restore h hlength (fits_digits hm))
    (fits_restore h hlength (fits_digits hn)) heq
  have hdigits := restore_inj h (by simp [reorder]) (by simp [reorder]) hrestore
  rw [← value_digits hm, hdigits, value_digits hn]

theorem gather_surj (h : IsOrder order)
    (hlength : order.length = radices.length) (hn : n < radices.prod) :
    ∃ m < radices.prod, gather order radices m = n := by
  have hsurj := Finset.surj_on_of_inj_on_of_card_le
    (s := Finset.range radices.prod) (t := Finset.range radices.prod)
    (fun m _ => gather order radices m)
    (fun m hm => Finset.mem_range.mpr
      (gather_lt h hlength (Finset.mem_range.mp hm)))
    (fun a b ha hb => gather_inj h hlength (Finset.mem_range.mp ha)
      (Finset.mem_range.mp hb)) le_rfl n (Finset.mem_range.mpr hn)
  obtain ⟨m, hm, heq⟩ := hsurj
  exact ⟨m, Finset.mem_range.mp hm, heq.symm⟩

/-- Gathering permutes the numbers below the product. -/
theorem gather_bijOn (h : IsOrder order)
    (hlength : order.length = radices.length) :
    Set.BijOn (gather order radices) (Set.Iio radices.prod)
      (Set.Iio radices.prod) :=
  ⟨fun _ hn => gather_lt h hlength hn,
    fun _ hm _ hn heq => gather_inj h hlength hm hn heq,
    fun _ hn => gather_surj h hlength hn⟩

/-- The restored digits weigh in their own places what the read ones weigh in
theirs. -/
theorem sum_place (h : IsOrder order) (f : Nat → Nat → Nat) :
    ((List.range order.length).map fun position =>
        f position (place order ds position)).sum =
      (order.map fun position => f position (place order ds position)).sum :=
  (h.map _).sum_eq.symm

theorem value_map_range (f : Nat → Nat) :
    value radices ((List.range radices.length).map f) =
      ((List.range radices.length).map fun position =>
        f position * (weights radices).getD position 0).sum := by
  unfold value
  congr 1
  refine List.ext_getElem (by simp) fun index hleft hright => ?_
  have hlt : index < (weights radices).length := by simpa using hright
  rw [List.getElem_zipWith, List.getElem_map, List.getElem_map,
    List.getElem_range, List.getD_eq_getElem _ _ hlt]

/-! The order that undoes another. -/

def inverse (order : List Nat) : List Nat :=
  (List.range order.length).map order.idxOf

@[simp] theorem length_inverse : (inverse order).length = order.length := by
  simp [inverse]

theorem isOrder_inverse (h : IsOrder order) : IsOrder (inverse order) := by
  rw [IsOrder, length_inverse]
  refine (List.perm_ext_iff_of_nodup ?_ List.nodup_range).mpr fun index => ?_
  · refine List.Nodup.map_on (fun left hleft right hright heq => ?_)
      List.nodup_range
    exact (List.idxOf_inj (h.mem (List.mem_range.mp hleft))).mp heq
  · rw [inverse, List.mem_map, List.mem_range]
    constructor
    · rintro ⟨position, hposition, rfl⟩
      exact List.idxOf_lt_length_iff.mpr
        (h.mem (List.mem_range.mp hposition))
    · intro hindex
      exact ⟨order[index], List.mem_range.mpr (h.lt (List.getElem_mem _)),
        h.nodup.idxOf_getElem _ hindex⟩

theorem idxOf_inverse (h : IsOrder order) {index : Nat}
    (hindex : index < order.length) :
    (inverse order).idxOf index = order.getD index 0 := by
  have hlt : order[index] < (inverse order).length := by
    simpa using h.lt (List.getElem_mem hindex)
  have hat : (inverse order)[order[index]] = index := by
    simp [inverse, h.nodup.idxOf_getElem]
  have hidx := (isOrder_inverse h).nodup.idxOf_getElem order[index] hlt
  rw [hat] at hidx
  rw [hidx, List.getD_eq_getElem _ _ hindex]

theorem reorder_inverse (h : IsOrder order)
    (hlength : order.length = radices.length) :
    reorder (inverse order) (reorder order radices) = radices := by
  rw [reorder, inverse, List.map_map, hlength]
  conv_rhs => rw [← map_getD_range radices]
  refine List.map_congr_left fun position hmem => ?_
  have hposition : position ∈ order := h.mem (by
    rw [hlength]
    exact List.mem_range.mp hmem)
  have hindex := List.idxOf_lt_length_iff.mpr hposition
  simp [reorder, hindex]

theorem restore_inverse (h : IsOrder order) (hds : ds.length = order.length) :
    restore (inverse order) (restore order ds) = ds := by
  conv_rhs => rw [← map_getD_range ds, hds]
  rw [restore, length_inverse]
  refine List.map_congr_left fun position hmem => ?_
  have hposition := List.mem_range.mp hmem
  have hlt := h.lt (List.getElem_mem hposition)
  rw [place, idxOf_inverse h hposition, List.getD_eq_getElem _ _ hposition]
  simp [restore, hlt, place, h.nodup.idxOf_getElem]

/-- Gathering by the inverse order puts every number back. -/
theorem gather_inverse (h : IsOrder order)
    (hlength : order.length = radices.length) (hn : n < radices.prod) :
    gather (inverse order) (reorder order radices)
        (gather order radices n) = n := by
  have hn' : n < (reorder order radices).prod := by
    rwa [prod_reorder h hlength]
  rw [gather, reorder_inverse h hlength, gather,
    digits_value (fits_restore h hlength (fits_digits hn')),
    restore_inverse h (by simp [reorder]), value_digits hn']

end Radix

end TensorFS.Data
