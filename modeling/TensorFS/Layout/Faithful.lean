import TensorFS.Layout.Walk

namespace TensorFS

open Data Radix

namespace LayoutPlan

variable {plan : LayoutPlan} {groups : List (List Nat)}
  {outer inner : List Nat}

/-! A run keeps to the naive reading throughout. -/

theorem Folds.prod_eq (hfolds : plan.Folds outer inner)
    (h : plan.Built groups) :
    groups.flatten.prod =
      (outer.map plan.extent).prod * (inner.map plan.extent).prod := by
  rw [← h.prod_order, hfolds.order_eq, List.map_append, List.prod_append]

theorem Folds.run_pos (hfolds : plan.Folds outer inner)
    (h : plan.Built groups) : 0 < (inner.map plan.extent).prod := by
  apply List.prod_pos
  intro extent hextent
  obtain ⟨position, hposition, rfl⟩ := List.mem_map.mp hextent
  apply h.extent_pos
  apply h.lt_of_mem
  rw [hfolds.order_eq]
  exact List.mem_append_right _ hposition

theorem Folds.element_lt (hfolds : plan.Folds outer inner)
    (h : plan.Built groups) {step offset : Nat}
    (hstep : step < (outer.map plan.extent).prod)
    (hoffset : offset < (inner.map plan.extent).prod) :
    step * (inner.map plan.extent).prod + offset < groups.flatten.prod := by
  rw [hfolds.prod_eq h]
  calc step * (inner.map plan.extent).prod + offset
      < step * (inner.map plan.extent).prod +
          (inner.map plan.extent).prod := Nat.add_lt_add_left hoffset _
    _ = (step + 1) * (inner.map plan.extent).prod := by ring
    _ ≤ _ := Nat.mul_le_mul_right _ hstep

/-- The digits of an element: those of its step outside, those of its offset
inside. -/
theorem Folds.map_counts (hfolds : plan.Folds outer inner)
    (h : plan.Built groups) {step offset : Nat}
    (hstep : step < (outer.map plan.extent).prod)
    (hoffset : offset < (inner.map plan.extent).prod) :
    outer.map (plan.counts (step * (inner.map plan.extent).prod + offset)) =
        digits (outer.map plan.extent) step ∧
      inner.map (plan.counts (step * (inner.map plan.extent).prod + offset)) =
        digits (inner.map plan.extent) offset := by
  have helement := hfolds.element_lt h hstep hoffset
  have hrun := hfolds.run_pos h
  rw [← h.prod_order, hfolds.order_eq, List.map_append] at helement
  have hall : plan.permutation.map
      (plan.counts (step * (inner.map plan.extent).prod + offset)) =
        digits (plan.permutation.map plan.extent)
          (step * (inner.map plan.extent).prod + offset) :=
    map_place h.order.nodup (by simp)
  rw [hfolds.order_eq, List.map_append, List.map_append,
    digits_append helement] at hall
  have hdiv : (step * (inner.map plan.extent).prod + offset) /
      (inner.map plan.extent).prod = step := by
    rw [Nat.add_comm, Nat.add_mul_div_right _ _ hrun, Nat.div_eq_of_lt hoffset,
      Nat.zero_add]
  have hmod : (step * (inner.map plan.extent).prod + offset) %
      (inner.map plan.extent).prod = offset := by
    rw [Nat.add_comm, Nat.add_mul_mod_self_right, Nat.mod_eq_of_lt hoffset]
  rw [hdiv, hmod] at hall
  exact List.append_inj hall (by simp)

theorem Folds.sum_split (hfolds : plan.Folds outer inner)
    (h : plan.Built groups) (f : Nat → Nat) :
    ∑ position ∈ Finset.range plan.extents.length, f position =
      (outer.map f).sum + (inner.map f).sum := by
  rw [h.sum_order, hfolds.order_eq, List.map_append, List.sum_append]

theorem Folds.counts_outer (hfolds : plan.Folds outer inner)
    (h : plan.Built groups) {step offset : Nat}
    (hstep : step < (outer.map plan.extent).prod)
    (hoffset : offset < (inner.map plan.extent).prod) :
    ∀ position ∈ outer,
      plan.counts (step * (inner.map plan.extent).prod + offset) position =
        plan.counts (step * (inner.map plan.extent).prod + 0) position := by
  have hrun := hfolds.run_pos h
  have hmap := (hfolds.map_counts h hstep hoffset).1.trans
    (hfolds.map_counts h hstep hrun).1.symm
  exact List.map_inj_left.mp hmap

theorem Folds.counts_inner (hfolds : plan.Folds outer inner)
    (h : plan.Built groups) {step : Nat}
    (hstep : step < (outer.map plan.extent).prod) :
    ∀ position ∈ inner,
      plan.counts (step * (inner.map plan.extent).prod + 0) position = 0 := by
  have hmap := (hfolds.map_counts h hstep (hfolds.run_pos h)).2
  rw [digits_zero, List.length_map, ← List.map_const'] at hmap
  exact List.map_inj_left.mp hmap

/-- Inside a run only the inner digits differ from its start. -/
theorem Folds.sum_counts (hfolds : plan.Folds outer inner)
    (h : plan.Built groups) {step offset : Nat}
    (hstep : step < (outer.map plan.extent).prod)
    (hoffset : offset < (inner.map plan.extent).prod) (f : Nat → Nat) :
    ∑ position ∈ Finset.range plan.extents.length,
        plan.counts (step * (inner.map plan.extent).prod + offset) position *
          f position =
      ∑ position ∈ Finset.range plan.extents.length,
        plan.counts (step * (inner.map plan.extent).prod + 0) position *
          f position +
      (inner.map fun position =>
        plan.counts (step * (inner.map plan.extent).prod + offset) position *
          f position).sum := by
  have houter := hfolds.counts_outer h hstep hoffset
  have hinner := hfolds.counts_inner h hstep
  have hzero : (inner.map fun position =>
      plan.counts (step * (inner.map plan.extent).prod + 0) position *
        f position).sum = 0 := by
    apply List.sum_eq_zero
    intro term hterm
    obtain ⟨position, hposition, rfl⟩ := List.mem_map.mp hterm
    rw [hinner position hposition, Nat.zero_mul]
  rw [hfolds.sum_split h, hfolds.sum_split h, hzero, Nat.add_zero]
  congr 2
  refine List.map_congr_left fun position hposition => ?_
  rw [houter position hposition]

theorem coordSum_eq_mul (counters : Nat → Nat) (axis : Nat) :
    plan.coordSum counters axis =
      ∑ position ∈ Finset.range plan.extents.length,
        counters position *
          (if plan.axis position = axis then plan.multiplier position
            else 0) := by
  refine Finset.sum_congr rfl fun position _ => ?_
  rw [mul_ite, Nat.mul_zero]

theorem Folds.inside_iff (hfolds : plan.Folds outer inner)
    (h : plan.Built groups) {step offset : Nat}
    (hstep : step < (outer.map plan.extent).prod)
    (hoffset : offset < (inner.map plan.extent).prod) :
    plan.Inside
        (plan.counts (step * (inner.map plan.extent).prod + offset)) ↔
      plan.Inside
        (plan.counts (step * (inner.map plan.extent).prod + 0)) := by
  have helement := hfolds.element_lt h hstep hoffset
  have hstart := hfolds.element_lt h hstep (hfolds.run_pos h)
  refine forall₂_congr fun axis haxis => ?_
  have hrank : axis < groups.length := by rwa [h.rank_eq]
  by_cases hpadded : plan.paddedAxis.getD axis false = true
  · have hsame : (inner.map fun position =>
        plan.counts (step * (inner.map plan.extent).prod + offset) position *
          (if plan.axis position = axis then plan.multiplier position
            else 0)).sum = 0 := by
      apply List.sum_eq_zero
      intro term hterm
      obtain ⟨position, hposition, rfl⟩ := List.mem_map.mp hterm
      rw [if_neg, Nat.mul_zero]
      intro heq
      have hnot := hfolds.unpadded position hposition
      rw [heq, hpadded] at hnot
      cases hnot
    rw [coordSum_eq_mul, hfolds.sum_counts h hstep hoffset, hsame,
      Nat.add_zero, ← coordSum_eq_mul]
  · have hfull : (groups.map List.prod).getD axis 0 ≤
        plan.shape.getD axis 0 :=
      not_lt.mp fun hlt => hpadded ((h.padded_eq axis hrank).mpr hlt)
    exact iff_of_true
      (lt_of_lt_of_le (h.coordSum_lt helement hrank) hfull)
      (lt_of_lt_of_le (h.coordSum_lt hstart hrank) hfull)

theorem Folds.inner_sum (hfolds : plan.Folds outer inner)
    (h : plan.Built groups) {step offset : Nat}
    (hstep : step < (outer.map plan.extent).prod)
    (hoffset : offset < (inner.map plan.extent).prod) :
    (inner.map fun position =>
      plan.counts (step * (inner.map plan.extent).prod + offset) position *
        plan.srcStride.getD position 0).sum = offset := by
  have hvalue := value_digits hoffset
  rw [value, ← hfolds.strides, ← (hfolds.map_counts h hstep hoffset).2,
    List.zipWith_map, List.zipWith_self] at hvalue
  exact hvalue

theorem Folds.naive_add (hfolds : plan.Folds outer inner)
    (h : plan.Built groups) {step offset : Nat}
    (hstep : step < (outer.map plan.extent).prod)
    (hoffset : offset < (inner.map plan.extent).prod) :
    naiveSource plan.shape groups plan.permutation
        (step * (inner.map plan.extent).prod + offset) =
      (naiveSource plan.shape groups plan.permutation
        (step * (inner.map plan.extent).prod)).map (· + offset) := by
  classical
  have helement := hfolds.element_lt h hstep hoffset
  have hstart := hfolds.element_lt h hstep (hfolds.run_pos h)
  have hinside := hfolds.inside_iff h hstep hoffset
  rw [h.naive_eq helement, hfolds.sum_counts h hstep hoffset,
    hfolds.inner_sum h hstep hoffset, if_congr hinside rfl rfl,
    ← Nat.add_zero (step * (inner.map plan.extent).prod), h.naive_eq hstart]
  split <;> rfl

/-! The walk as a whole. -/

theorem range_mul (steps run : Nat) :
    List.range (steps * run) =
      (List.range steps).flatMap fun step =>
        (List.range run).map fun offset => step * run + offset := by
  induction steps with
  | zero => simp
  | succ steps ih =>
      rw [Nat.succ_mul, List.range_add, ih, List.range_succ,
        List.flatMap_append, List.flatMap_singleton]

theorem Built.forEachRun_eq (h : plan.Built groups)
    (hfolds : plan.Folds outer inner) :
    plan.forEachRun =
      (List.range (outer.map plan.extent).prod).map fun step =>
        ⟨step * (inner.map plan.extent).prod,
          naiveSource plan.shape groups plan.permutation
            (step * (inner.map plan.extent).prod),
          (inner.map plan.extent).prod⟩ := by
  have hrun := hfolds.run_pos h
  have hsteps : plan.destElements / max (inner.map plan.extent).prod 1 =
      (outer.map plan.extent).prod := by
    rw [h.dest, hfolds.prod_eq h, Nat.max_eq_left hrun,
      Nat.mul_div_cancel _ hrun]
  have hnodup : (outer ++ inner).Nodup := by
    rw [← hfolds.order_eq]
    exact h.order.nodup
  have hinside : ∀ position ∈ outer, position < plan.extents.length := by
    intro position hposition
    apply h.lt_of_mem
    rw [hfolds.order_eq]
    exact List.mem_append_left _ hposition
  have hwalk : plan.forEachRun = plan.walkFrom outer
      (inner.map plan.extent).prod (outer.map plan.extent).prod 0
        (plan.stateAt outer 0) := by
    rw [forEachRun, hfolds.fold_eq, List.reverse_reverse]
    exact congrArg (fun left => plan.walkFrom outer
      (inner.map plan.extent).prod left 0 (plan.stateAt outer 0)) hsteps
  rw [hwalk, walkFrom_eq, List.range_eq_range']
  refine List.map_congr_left fun step hstep => ?_
  have hstep : step < (outer.map plan.extent).prod := by
    rw [← List.range_eq_range'] at hstep
    exact List.mem_range.mp hstep
  obtain ⟨hshows, hdigits, hzero⟩ :=
    stateAt_spec (List.nodup_append.mp hnodup).1 hinside hstep
  have helement := hfolds.element_lt h hstep hrun
  rw [Nat.add_zero] at helement
  have hcounts : ∀ position < plan.extents.length,
      (plan.stateAt outer step).counters position =
        plan.counts (step * (inner.map plan.extent).prod) position := by
    intro position hposition
    have hmem := h.order.mem (by rwa [h.length_eq] : position < _)
    rw [hfolds.order_eq, List.mem_append] at hmem
    by_cases houter : position ∈ outer
    · have hmap := hdigits.trans (hfolds.map_counts h hstep hrun).1.symm
      exact List.map_inj_left.mp hmap position houter
    · rw [hzero position houter]
      exact (hfolds.counts_inner h hstep position
        (hmem.resolve_left houter)).symm
  have hsmall := h.small
  rw [h.locate_eq helement hshows hcounts, Nat.mod_eq_of_lt (by omega)]

/-- The walk visits the destination in order and reads what the record
declares. -/
theorem Built.forEach_eq (h : plan.Built groups) :
    plan.forEach =
      (List.range groups.flatten.prod).map fun element =>
        (element,
          naiveSource plan.shape groups plan.permutation element) := by
  obtain ⟨outer, inner, hfolds⟩ := h.folds
  rw [forEach, h.forEachRun_eq hfolds, hfolds.prod_eq h, range_mul,
    List.flatMap_map, List.map_flatMap]
  refine List.flatMap_congr fun step hstep => ?_
  rw [List.map_map]
  refine List.map_congr_left fun offset hoffset => ?_
  rw [Function.comp_apply, hfolds.naive_add h (List.mem_range.mp hstep)
    (List.mem_range.mp hoffset)]

end LayoutPlan

/-! The naive reading is a bijection with padding. -/

section Naive

variable {dims order : List Nat} {groups : List (List Nat)}

theorem naiveSource_eq_some {element source : Nat} :
    naiveSource dims groups order element = some source ↔
      (List.zip (digits (groups.map List.prod)
        (gather order groups.flatten element)) dims).all
          (fun pair => pair.1 < pair.2) = true ∧
        value dims (digits (groups.map List.prod)
          (gather order groups.flatten element)) = source := by
  rw [naiveSource]
  split
  · rename_i hall
    simp [hall]
  · rename_i hall
    simp [hall]

theorem fits_of_all {ds : List Nat} (hlength : ds.length = dims.length)
    (hall : (List.zip ds dims).all (fun pair => pair.1 < pair.2) = true) :
    Fits dims ds := by
  rw [Fits, List.forall₂_iff_zip]
  refine ⟨hlength, fun {digit radix} hmem => ?_⟩
  exact of_decide_eq_true (List.all_eq_true.mp hall _ hmem)

theorem all_of_fits {ds : List Nat} (h : Fits dims ds) :
    (List.zip ds dims).all (fun pair => pair.1 < pair.2) = true := by
  rw [List.all_eq_true]
  intro pair hpair
  exact decide_eq_true ((List.forall₂_iff_zip.mp h).2 hpair)

variable (horder : IsOrder order)
  (hlength : order.length = groups.flatten.length)
  (hfits : List.Forall₂ (· ≤ ·) dims (groups.map List.prod))

include hfits in
theorem naiveSource_lt {element source : Nat}
    (h : naiveSource dims groups order element = some source) :
    source < dims.prod := by
  obtain ⟨hall, rfl⟩ := naiveSource_eq_some.mp h
  exact value_lt (fits_of_all (by rw [length_digits, hfits.length_eq]) hall)

include horder hlength hfits in
theorem naiveSource_inj {element other source : Nat}
    (helement : element < groups.flatten.prod)
    (hother : other < groups.flatten.prod)
    (h : naiveSource dims groups order element = some source)
    (h' : naiveSource dims groups order other = some source) :
    element = other := by
  obtain ⟨hall, hvalue⟩ := naiveSource_eq_some.mp h
  obtain ⟨hall', hvalue'⟩ := naiveSource_eq_some.mp h'
  have hrank : ∀ n, (digits (groups.map List.prod) n).length = dims.length :=
    fun n => by rw [length_digits, hfits.length_eq]
  have hcoords := value_inj (fits_of_all (hrank _) hall)
    (fits_of_all (hrank _) hall') (hvalue.trans hvalue'.symm)
  have hlt := gather_lt horder hlength helement
  have hlt' := gather_lt horder hlength hother
  rw [List.prod_flatten] at hlt hlt'
  have hgather : gather order groups.flatten element =
      gather order groups.flatten other := by
    rw [← value_digits hlt, hcoords, value_digits hlt']
  exact gather_inj horder hlength helement hother hgather

include horder hlength hfits in
theorem naiveSource_surj {source : Nat} (h : source < dims.prod) :
    ∃ element < groups.flatten.prod,
      naiveSource dims groups order element = some source := by
  have hdims := fits_digits h
  have hsizes : Fits (groups.map List.prod) (digits dims source) := by
    clear h
    generalize digits dims source = ds at hdims ⊢
    generalize groups.map List.prod = sizes at hfits
    clear hlength
    induction hdims generalizing sizes with
    | nil =>
        cases hfits
        exact List.Forall₂.nil
    | cons hlt _ ih =>
        cases hfits with
        | cons hle hrest =>
            exact List.Forall₂.cons (lt_of_lt_of_le hlt hle) (ih _ hrest)
  have hbound := value_lt hsizes
  rw [← List.prod_flatten] at hbound
  obtain ⟨element, helement, hgather⟩ :=
    gather_surj horder hlength hbound
  refine ⟨element, helement, naiveSource_eq_some.mpr ?_⟩
  rw [hgather, digits_value hsizes]
  exact ⟨all_of_fits hdims, value_digits h⟩

include horder hlength hfits in
theorem count_naiveSource {source : Nat} (h : source < dims.prod) :
    ((List.range groups.flatten.prod).map
      (naiveSource dims groups order)).count (some source) = 1 := by
  obtain ⟨element, helement, hsource⟩ :=
    naiveSource_surj horder hlength hfits h
  have hcongr : ∀ other ∈ List.range groups.flatten.prod,
      ((fun found => found == some source) ∘
        naiveSource dims groups order) other = true ↔
          (other == element) = true := by
    intro other hother
    rw [Function.comp_apply, beq_iff_eq, beq_iff_eq]
    constructor
    · intro heq
      exact naiveSource_inj horder hlength hfits (List.mem_range.mp hother)
        helement heq hsource
    · rintro rfl
      exact hsource
  rw [List.count, List.countP_map, List.countP_congr hcongr]
  exact List.count_eq_one_of_mem List.nodup_range (List.mem_range.mpr helement)

end Naive

end TensorFS
