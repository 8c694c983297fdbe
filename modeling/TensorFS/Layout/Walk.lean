import TensorFS.Layout.Morphism

namespace TensorFS

open Data Radix

/-! The walk of a plan against the naive reading of its record. -/

/-- The source element a destination element holds: its storage digits go back
to their declared places, the sub-axes of a logical axis are read as one
coordinate, and a coordinate beyond the source extent is padding. -/
def naiveSource (dims : List Nat) (groups : List (List Nat))
    (order : List Nat) (element : Nat) : Option Nat :=
  let coords := digits (groups.map List.prod)
    (gather order groups.flatten element)
  if (List.zip coords dims).all fun pair => pair.1 < pair.2 then
    some (value dims coords)
  else none

/-- The logical axis of each sub-axis, when each axis has one group. -/
def axesOf : Nat → List (List Nat) → List Nat
  | _, [] => []
  | axis, group :: groups =>
      List.replicate group.length axis ++ axesOf (axis + 1) groups

/-! Reading the sub-axes of an axis as one coordinate. -/

/-- The weighted digits that belong to one axis. -/
def axisSum (axis : Nat) : List Nat → List Nat → List Nat → Nat
  | label :: axes, weight :: within, digit :: ds =>
      (if label = axis then digit * weight else 0) +
        axisSum axis axes within ds
  | _, _, _ => 0

theorem axisSum_append {axis : Nat} {axes within ds : List Nat}
    (hwithin : within.length = axes.length) (hds : ds.length = axes.length)
    (axes' within' ds' : List Nat) :
    axisSum axis (axes ++ axes') (within ++ within') (ds ++ ds') =
      axisSum axis axes within ds + axisSum axis axes' within' ds' := by
  induction axes generalizing within ds with
  | nil =>
      rw [List.length_nil, List.length_eq_zero_iff] at hwithin hds
      subst hwithin hds
      simp [axisSum]
  | cons label axes ih =>
      cases within with
      | nil => simp at hwithin
      | cons weight within =>
          cases ds with
          | nil => simp at hds
          | cons digit ds =>
              simp only [List.cons_append, axisSum]
              rw [ih (by simpa using hwithin) (by simpa using hds)]
              omega

theorem axisSum_replicate {axis label : Nat} {group ds : List Nat}
    (hds : ds.length = group.length) :
    axisSum axis (List.replicate group.length label) (weights group) ds =
      if label = axis then value group ds else 0 := by
  induction group generalizing ds with
  | nil => simp [axisSum]
  | cons radix group ih =>
      cases ds with
      | nil => simp at hds
      | cons digit ds =>
          rw [List.length_cons, List.replicate_succ, weights, axisSum,
            ih (by simpa using hds), value_cons]
          split <;> rfl

theorem length_axesOf (axis : Nat) (groups : List (List Nat)) :
    (axesOf axis groups).length = groups.flatten.length := by
  induction groups generalizing axis with
  | nil => rfl
  | cons group groups ih => simp [axesOf, ih]

theorem length_flatMap_weights (groups : List (List Nat)) :
    (groups.flatMap weights).length = groups.flatten.length := by
  induction groups with
  | nil => rfl
  | cons group groups ih => simp [ih]

theorem le_of_mem_axesOf {start label : Nat} {groups : List (List Nat)}
    (h : label ∈ axesOf start groups) : start ≤ label := by
  induction groups generalizing start with
  | nil => cases h
  | cons group groups ih =>
      rcases List.mem_append.mp h with hlabel | hlabel
      · rw [List.eq_of_mem_replicate hlabel]
      · exact Nat.le_of_succ_le (ih hlabel)

theorem axisSum_of_lt {axis start : Nat} (h : axis < start)
    (groups : List (List Nat)) (within ds : List Nat) :
    axisSum axis (axesOf start groups) within ds = 0 := by
  have hlabels : ∀ label ∈ axesOf start groups, axis < label :=
    fun label hlabel => lt_of_lt_of_le h (le_of_mem_axesOf hlabel)
  generalize axesOf start groups = axes at hlabels
  induction axes generalizing within ds with
  | nil => rfl
  | cons label axes ih =>
      cases within with
      | nil => rfl
      | cons weight within =>
          cases ds with
          | nil => rfl
          | cons digit ds =>
              have hlabel := hlabels label List.mem_cons_self
              rw [axisSum, if_neg (by omega), ih _ _ fun other hother =>
                hlabels other (List.mem_cons_of_mem _ hother)]

theorem digits_axes {groups : List (List Nat)} {ds : List Nat}
    (hfits : Fits groups.flatten ds) (start : Nat) :
    digits (groups.map List.prod) (value groups.flatten ds) =
      (List.range groups.length).map fun axis =>
        axisSum (start + axis) (axesOf start groups)
          (groups.flatMap weights) ds := by
  induction groups generalizing ds start with
  | nil => rfl
  | cons group groups ih =>
      rw [List.flatten_cons] at hfits
      obtain ⟨front, back, rfl, hfront, hback⟩ := hfits.split
      have hlength := hfront.length_eq
      have hbound := value_lt hback
      have hpos := hback.prod_pos
      rw [List.prod_flatten] at hbound hpos
      have hhead : axisSum start (axesOf start (group :: groups))
          ((group :: groups).flatMap weights) (front ++ back) =
            value group front := by
        rw [axesOf, List.flatMap_cons, axisSum_append (by simp) (by simpa),
          axisSum_replicate hlength, if_pos rfl,
          axisSum_of_lt (Nat.lt_succ_self start), Nat.add_zero]
      have htail : ∀ axis, axisSum (start + (axis + 1))
          (axesOf start (group :: groups))
          ((group :: groups).flatMap weights) (front ++ back) =
            axisSum (start + 1 + axis) (axesOf (start + 1) groups)
              (groups.flatMap weights) back := by
        intro axis
        rw [axesOf, List.flatMap_cons, axisSum_append (by simp) (by simpa),
          axisSum_replicate hlength, if_neg (by omega), Nat.zero_add]
        congr 1
        omega
      rw [List.flatten_cons, value_append hlength, List.map_cons, digits,
        List.prod_flatten, Nat.add_comm, Nat.add_mul_div_right _ _ hpos,
        Nat.div_eq_of_lt hbound, Nat.zero_add, Nat.add_mul_mod_self_right,
        Nat.mod_eq_of_lt hbound, ih hback (start + 1), List.length_cons,
        List.range_succ_eq_map, List.map_cons, List.map_map, ← hhead]
      exact congrArg₂ List.cons rfl
        (List.map_congr_left fun axis _ => (htail axis).symm)

namespace LayoutPlan

/-- The plan's numbers are the exact ones of its groups. -/
structure Built (plan : LayoutPlan) (groups : List (List Nat)) : Prop where
  axes_eq : plan.axes = axesOf 0 groups
  extents_eq : plan.extents = groups.flatten
  within_eq : plan.within = groups.flatMap weights
  order : IsOrder plan.permutation
  order_length : plan.permutation.length = groups.flatten.length
  extents_pos : ∀ extent ∈ groups.flatten, 0 < extent
  shape_pos : ∀ dim ∈ plan.shape, 0 < dim
  fits : List.Forall₂ (· ≤ ·) plan.shape (groups.map List.prod)
  strides : plan.logicalStride = weights plan.shape
  srcStride_eq : ∀ position < groups.flatten.length,
    plan.srcStride.getD position 0 = plan.multiplier position *
      (weights plan.shape).getD (plan.axis position) 0
  padded_eq : ∀ axis < groups.length,
    plan.paddedAxis.getD axis false = true ↔
      plan.shape.getD axis 0 < (groups.map List.prod).getD axis 0
  dest : plan.destElements = groups.flatten.prod
  small : groups.flatten.prod < 2 ^ 64

/-! The odometer keeps each coordinate the sum of its counters. -/

section Odometer

variable (plan : LayoutPlan)

def coordSum (counters : Nat → Nat) (axis : Nat) : Nat :=
  ∑ position ∈ Finset.range plan.extents.length,
    if plan.axis position = axis then
      counters position * plan.multiplier position
    else 0

/-- The coordinates are the counters' sums, up to wrapping. -/
def Shows (o : Odometer) : Prop :=
  ∀ axis, o.coord axis = plan.coordSum o.counters axis % 2 ^ 64

variable {plan}

theorem coordSum_update {counters : Nat → Nat} {position : Nat}
    (hposition : position < plan.extents.length) (count axis : Nat) :
    plan.coordSum (Function.update counters position count) axis +
        (if plan.axis position = axis then
          counters position * plan.multiplier position else 0) =
      plan.coordSum counters axis +
        (if plan.axis position = axis then
          count * plan.multiplier position else 0) := by
  have hmem : position ∈ Finset.range plan.extents.length :=
    Finset.mem_range.mpr hposition
  unfold coordSum
  rw [← Finset.add_sum_erase _ _ hmem, ← Finset.add_sum_erase _ _ hmem,
    Function.update_self]
  have hrest : ∀ other ∈ (Finset.range plan.extents.length).erase position,
      (if plan.axis other = axis then
        Function.update counters position count other *
          plan.multiplier other else 0) =
      (if plan.axis other = axis then
        counters other * plan.multiplier other else 0) := by
    intro other hother
    rw [Function.update_of_ne (Finset.ne_of_mem_erase hother)]
  rw [Finset.sum_congr rfl hrest]
  omega

theorem Shows.bump {o : Odometer} (h : plan.Shows o) {position : Nat}
    (hposition : position < plan.extents.length) :
    plan.Shows (plan.bump position o) := by
  intro axis
  have hsum := @coordSum_update plan o.counters position hposition
    (o.counters position + 1) axis
  have haxis := h axis
  simp only [LayoutPlan.bump]
  by_cases heq : plan.axis position = axis
  · subst heq
    rw [if_pos rfl, if_pos rfl, Nat.add_mul, Nat.one_mul] at hsum
    rw [Function.update_self, haxis]
    omega
  · rw [if_neg heq, if_neg heq] at hsum
    rw [Function.update_of_ne (Ne.symm heq), haxis]
    omega

theorem Shows.clear {o : Odometer} (h : plan.Shows o) {position : Nat}
    (hposition : position < plan.extents.length) :
    plan.Shows (plan.clear position o) := by
  intro axis
  have hsum := @coordSum_update plan o.counters position hposition 0 axis
  have haxis := h axis
  simp only [LayoutPlan.clear]
  by_cases heq : plan.axis position = axis
  · subst heq
    rw [if_pos rfl, if_pos rfl, Nat.zero_mul] at hsum
    rw [Function.update_self, haxis]
    omega
  · rw [if_neg heq, if_neg heq] at hsum
    rw [Function.update_of_ne (Ne.symm heq), haxis]
    omega

/-- A step counts up the digits at the positions and touches no other
counter. -/
theorem advance_spec {positions : List Nat} (hnodup : positions.Nodup)
    (hinside : ∀ position ∈ positions, position < plan.extents.length)
    {o : Odometer} (hshows : plan.Shows o) :
    plan.Shows (plan.advance positions o).1 ∧
      (positions.map (plan.advance positions o).1.counters,
          (plan.advance positions o).2) =
        step (positions.map plan.extent) (positions.map o.counters) ∧
      ∀ other ∉ positions,
        (plan.advance positions o).1.counters other = o.counters other := by
  induction positions with
  | nil => exact ⟨hshows, rfl, fun _ _ => rfl⟩
  | cons position inner ih =>
      obtain ⟨hfresh, hnodup⟩ := List.nodup_cons.mp hnodup
      obtain ⟨hnext, hstep, hframe⟩ := ih hnodup fun other hother =>
        hinside other (List.mem_cons_of_mem _ hother)
      have hposition := hinside position List.mem_cons_self
      rw [advance, List.map_cons, List.map_cons, List.map_cons, step, ← hstep]
      generalize plan.advance inner o = result at hnext hframe
      obtain ⟨next, carry⟩ := result
      have hself : next.counters position = o.counters position :=
        hframe position hfresh
      cases carry with
      | false =>
          refine ⟨hnext, by rw [hself], fun other hother => ?_⟩
          exact hframe other fun hmem => hother (List.mem_cons_of_mem _ hmem)
      | true =>
          have hbumped : (plan.bump position next).counters position =
              o.counters position + 1 := by
            simp [LayoutPlan.bump, hself]
          have hinner : ∀ count : Nat, inner.map
              (Function.update next.counters position count) =
                inner.map next.counters := fun count =>
            List.map_congr_left fun other hother =>
              Function.update_of_ne
                (fun heq : other = position => hfresh (heq ▸ hother)) _ _
          have hother : ∀ count other, other ∉ position :: inner →
              Function.update next.counters position count other =
                o.counters other := by
            intro count other hmem
            rw [List.mem_cons, not_or] at hmem
            rw [Function.update_of_ne hmem.1, hframe other hmem.2]
          simp only [hbumped]
          by_cases hbelow : o.counters position + 1 < plan.extent position
          · rw [if_pos hbelow, if_pos hbelow]
            refine ⟨hnext.bump hposition, ?_, hother _⟩
            rw [hbumped]
            simp only [LayoutPlan.bump, hinner]
          · rw [if_neg hbelow, if_neg hbelow]
            refine ⟨(hnext.bump hposition).clear hposition, ?_, ?_⟩
            · simp only [LayoutPlan.clear, LayoutPlan.bump,
                Function.update_self, Function.update_idem, hinner]
            · intro other hmem
              simp only [LayoutPlan.clear, LayoutPlan.bump,
                Function.update_idem]
              exact hother 0 other hmem

/-- The odometer after some steps. -/
def stateAt (plan : LayoutPlan) (outer : List Nat) : Nat → Odometer
  | 0 => ⟨fun _ => 0, fun _ => 0⟩
  | steps + 1 => (plan.advance outer (plan.stateAt outer steps)).1

theorem stateAt_spec {outer : List Nat} (hnodup : outer.Nodup)
    (hinside : ∀ position ∈ outer, position < plan.extents.length)
    {steps : Nat} (hsteps : steps < (outer.map plan.extent).prod) :
    plan.Shows (plan.stateAt outer steps) ∧
      outer.map (plan.stateAt outer steps).counters =
        digits (outer.map plan.extent) steps ∧
      ∀ other ∉ outer, (plan.stateAt outer steps).counters other = 0 := by
  induction steps with
  | zero =>
      refine ⟨fun axis => by simp [stateAt, coordSum], ?_, fun _ _ => rfl⟩
      rw [digits_zero, List.length_map]
      exact List.map_const'
  | succ steps ih =>
      obtain ⟨hshows, hdigits, hframe⟩ := ih (by omega)
      obtain ⟨hnext, hstep, hother⟩ := advance_spec hnodup hinside hshows
      rw [hdigits, step_digits (by omega), if_pos hsteps] at hstep
      refine ⟨hnext, congrArg Prod.fst hstep, fun other hmem => ?_⟩
      rw [stateAt, hother other hmem, hframe other hmem]

theorem walkFrom_eq (outer : List Nat) (run left step : Nat) :
    plan.walkFrom outer run left step (plan.stateAt outer step) =
      (List.range' step left).map fun step =>
        ⟨step * run % 2 ^ 64, locate (plan.stateAt outer step).coord 0 0
          (plan.shape.zip plan.logicalStride), run⟩ := by
  induction left generalizing step with
  | zero => rfl
  | succ left ih =>
      rw [walkFrom, List.range'_succ, List.map_cons, ← ih (step + 1)]
      rfl

end Odometer

/-! The declared digits of a destination element. -/

section Digits

variable {plan : LayoutPlan} {groups : List (List Nat)}

theorem Built.length_eq (h : plan.Built groups) :
    plan.permutation.length = plan.extents.length := by
  rw [h.order_length, h.extents_eq]

theorem axisSum_map_range {axes within : List Nat} {length : Nat}
    (haxes : axes.length = length) (hwithin : within.length = length)
    (counters : Nat → Nat) (axis : Nat) :
    axisSum axis axes within ((List.range length).map counters) =
      ∑ position ∈ Finset.range length,
        if axes.getD position 0 = axis then
          counters position * within.getD position 0
        else 0 := by
  induction length generalizing axes within counters with
  | zero =>
      rw [List.length_eq_zero_iff] at haxes
      subst haxes
      rfl
  | succ length ih =>
      cases axes with
      | nil => simp at haxes
      | cons label axes =>
          cases within with
          | nil => simp at hwithin
          | cons weight within =>
              rw [List.range_succ_eq_map, List.map_cons, axisSum, List.map_map,
                ih (by simpa using haxes) (by simpa using hwithin),
                Finset.sum_range_succ', Nat.add_comm]
              rfl

theorem Built.coordSum_eq (h : plan.Built groups) (counters : Nat → Nat)
    (axis : Nat) :
    plan.coordSum counters axis =
      axisSum axis (axesOf 0 groups) (groups.flatMap weights)
        ((List.range plan.extents.length).map counters) := by
  rw [axisSum_map_range (by rw [length_axesOf, h.extents_eq])
    (by rw [length_flatMap_weights, h.extents_eq]), ← h.axes_eq,
    ← h.within_eq]
  rfl

/-- The coordinates of a counter setting below the extents. -/
theorem Built.digits_value (h : plan.Built groups) {counters : Nat → Nat}
    (hfits : Fits groups.flatten
      ((List.range plan.extents.length).map counters)) :
    digits (groups.map List.prod) (value groups.flatten
        ((List.range plan.extents.length).map counters)) =
      (List.range groups.length).map (plan.coordSum counters) := by
  rw [digits_axes hfits 0]
  refine List.map_congr_left fun axis _ => ?_
  rw [h.coordSum_eq, Nat.zero_add]

theorem Built.axis_lt (h : plan.Built groups) {position : Nat}
    (hposition : position < plan.extents.length) :
    plan.axis position < groups.length := by
  have hlabels : ∀ start, ∀ label ∈ axesOf start groups,
      label < start + groups.length := by
    clear h hposition
    induction groups with
    | nil => simp [axesOf]
    | cons group groups ih =>
        intro start label hlabel
        rw [List.length_cons]
        rcases List.mem_append.mp hlabel with hlabel | hlabel
        · rw [List.eq_of_mem_replicate hlabel]
          omega
        · have hlater := ih (start + 1) label hlabel
          omega
  have hlength : position < plan.axes.length := by
    rw [h.axes_eq, length_axesOf, ← h.extents_eq]
    exact hposition
  have hmem : plan.axis position ∈ axesOf 0 groups := by
    rw [LayoutPlan.axis, List.getD_eq_getElem _ _ hlength, ← h.axes_eq]
    exact List.getElem_mem hlength
  have hlt := hlabels 0 _ hmem
  omega

/-- The source index of a counter setting, as one weighted sum. -/
theorem Built.value_coords (h : plan.Built groups) (counters : Nat → Nat) :
    value plan.shape
        ((List.range groups.length).map (plan.coordSum counters)) =
      ∑ position ∈ Finset.range plan.extents.length,
        counters position * plan.srcStride.getD position 0 := by
  have hrank : groups.length = plan.shape.length := by
    rw [h.fits.length_eq, List.length_map]
  rw [hrank, value_map_range]
  have hsum : ((List.range plan.shape.length).map fun axis =>
      plan.coordSum counters axis * (weights plan.shape).getD axis 0).sum =
        ∑ axis ∈ Finset.range plan.shape.length,
          plan.coordSum counters axis * (weights plan.shape).getD axis 0 := rfl
  rw [hsum]
  simp only [coordSum, Finset.sum_mul]
  rw [Finset.sum_comm]
  refine Finset.sum_congr rfl fun position hposition => ?_
  rw [Finset.mem_range] at hposition
  have haxis := h.axis_lt hposition
  rw [Finset.sum_eq_single (plan.axis position)]
  · rw [if_pos rfl, h.srcStride_eq position (by rwa [← h.extents_eq]),
      Nat.mul_assoc]
  · intro axis _ hne
    rw [if_neg (Ne.symm hne), Nat.zero_mul]
  · intro hnot
    rw [Finset.mem_range] at hnot
    omega

theorem Built.extent_pos (h : plan.Built groups) {position : Nat}
    (hposition : position < plan.extents.length) : 0 < plan.extent position := by
  rw [LayoutPlan.extent, List.getD_eq_getElem _ _ hposition]
  apply h.extents_pos
  rw [← h.extents_eq]
  exact List.getElem_mem hposition

theorem Built.sum_order (h : plan.Built groups) (f : Nat → Nat) :
    ∑ position ∈ Finset.range plan.extents.length, f position =
      (plan.permutation.map f).sum := by
  rw [(h.order.map f).sum_eq, h.length_eq]
  rfl

theorem locate_eq {coord : Nat → Nat} {start offset : Nat} {dims : List Nat}
    (hpositive : ∀ dim ∈ dims, 0 < dim)
    (hroom : offset + dims.prod ≤ 2 ^ 64) :
    locate coord start offset (dims.zip (weights dims)) =
      if (List.zip ((List.range dims.length).map fun axis =>
          coord (start + axis)) dims).all (fun pair => pair.1 < pair.2) then
        some (offset + value dims ((List.range dims.length).map fun axis =>
          coord (start + axis)))
      else none := by
  induction dims generalizing start offset with
  | nil => simp [locate, weights]
  | cons dim dims ih =>
      rw [List.prod_cons] at hroom
      rw [weights, List.zip_cons_cons, locate, List.length_cons,
        List.range_succ_eq_map, List.map_cons, List.map_map,
        List.zip_cons_cons, List.all_cons, value_cons]
      have htail : (fun axis => coord (start + axis)) ∘ Nat.succ =
          fun axis => coord (start + 1 + axis) := by
        funext axis
        exact congrArg coord (by simp only [Nat.succ_eq_add_one]; omega)
      rw [htail]
      by_cases hbelow : coord start < dim
      · have hproduct : coord start * dims.prod + dims.prod ≤
            dim * dims.prod := by
          calc coord start * dims.prod + dims.prod
              = (coord start + 1) * dims.prod := by ring
            _ ≤ dim * dims.prod := Nat.mul_le_mul_right _ hbelow
        rw [if_neg (not_le.mpr hbelow)]
        have hrest : ∀ dim ∈ dims, 0 < dim := fun dim hdim =>
          hpositive dim (List.mem_cons_of_mem _ hdim)
        have hprod : 0 < dims.prod := List.prod_pos hrest
        rw [Nat.mod_eq_of_lt (by omega), ih hrest (by omega)]
        simp only [hbelow, decide_true, Bool.true_and, Nat.add_zero,
          Nat.add_assoc]
      · rw [if_pos (not_lt.mp hbelow)]
        simp [hbelow]

end Digits

/-! The folded run. -/

section Runs

variable {plan : LayoutPlan} {groups : List (List Nat)}

/-- The positions a fold consumes, innermost first: none on a padded axis, and
each strides over exactly the extents inside it. -/
theorem foldRun_spec {run : Nat} {positions : List Nat}
    (hpositive : ∀ position ∈ positions, 0 < plan.extent position)
    (hsmall : run * (positions.map plan.extent).prod < 2 ^ 64) :
    ∃ inner rest, positions = inner ++ rest ∧
      plan.foldRun run positions =
        (run * (inner.map plan.extent).prod, rest) ∧
      (∀ position ∈ inner,
        plan.paddedAxis.getD (plan.axis position) false = false) ∧
      inner.reverse.map (fun position => plan.srcStride.getD position 0) =
        (weights (inner.reverse.map plan.extent)).map (run * ·) := by
  induction positions generalizing run with
  | nil => exact ⟨[], [], rfl, by simp [foldRun], by simp, rfl⟩
  | cons position positions ih =>
      unfold foldRun
      by_cases hstop : plan.paddedAxis.getD (plan.axis position) false = true ∨
          plan.srcStride.getD position 0 ≠ run
      · rw [if_pos hstop]
        exact ⟨[], position :: positions, rfl, by simp, by simp, rfl⟩
      · rw [if_neg hstop]
        rw [not_or, not_not, Bool.not_eq_true] at hstop
        rw [List.map_cons, List.prod_cons, ← Nat.mul_assoc] at hsmall
        have hrest : ∀ other ∈ positions, 0 < plan.extent other :=
          fun other hother => hpositive other (List.mem_cons_of_mem _ hother)
        have hprod : 0 < (positions.map plan.extent).prod := by
          apply List.prod_pos
          intro extent hextent
          obtain ⟨other, hother, rfl⟩ := List.mem_map.mp hextent
          exact hrest other hother
        have hmod : run * plan.extent position % 2 ^ 64 =
            run * plan.extent position :=
          Nat.mod_eq_of_lt (lt_of_le_of_lt
            (Nat.le_mul_of_pos_right _ hprod) hsmall)
        rw [hmod]
        obtain ⟨inner, rest, rfl, hfold, hpadded, hstride⟩ := ih hrest hsmall
        refine ⟨position :: inner, rest, rfl, ?_, ?_, ?_⟩
        · rw [hfold, List.map_cons, List.prod_cons, Nat.mul_assoc]
        · intro other hother
          rcases List.mem_cons.mp hother with rfl | hother
          · exact hstop.1
          · exact hpadded other hother
        · rw [List.reverse_cons, List.map_append, List.map_append, hstride,
            weights_append, List.map_append, List.map_map]
          have hlast : plan.srcStride.getD position 0 = run := hstop.2
          congr 1
          · refine List.map_congr_left fun weight _ => ?_
            simp only [List.map_cons, List.map_nil, List.prod_singleton,
              Function.comp_apply]
            ring
          · simp only [List.map_cons, List.map_nil, weights, List.prod_nil,
              Nat.mul_one, hlast]

/-- How a plan's storage positions split into odometer and run. -/
structure Folds (plan : LayoutPlan) (outer inner : List Nat) : Prop where
  order_eq : plan.permutation = outer ++ inner
  fold_eq : plan.foldRun 1 plan.permutation.reverse =
    ((inner.map plan.extent).prod, outer.reverse)
  unpadded : ∀ position ∈ inner,
    plan.paddedAxis.getD (plan.axis position) false = false
  strides : inner.map (fun position => plan.srcStride.getD position 0) =
    weights (inner.map plan.extent)

theorem Built.prod_order (h : plan.Built groups) :
    (plan.permutation.map plan.extent).prod = groups.flatten.prod := by
  rw [← h.extents_eq]
  exact prod_reorder h.order h.length_eq

theorem Built.lt_of_mem (h : plan.Built groups) {position : Nat}
    (hmem : position ∈ plan.permutation) : position < plan.extents.length := by
  rw [← h.length_eq]
  exact h.order.lt hmem

theorem Built.folds (h : plan.Built groups) :
    ∃ outer inner, plan.Folds outer inner := by
  have hpositive : ∀ position ∈ plan.permutation.reverse,
      0 < plan.extent position := fun position hposition =>
    h.extent_pos (h.lt_of_mem (List.mem_reverse.mp hposition))
  have hsmall : 1 * (plan.permutation.reverse.map plan.extent).prod <
      2 ^ 64 := by
    rw [Nat.one_mul, List.map_reverse, List.prod_reverse, h.prod_order]
    exact h.small
  obtain ⟨inner, rest, hsplit, hfold, hpadded, hstride⟩ :=
    foldRun_spec hpositive hsmall
  refine ⟨rest.reverse, inner.reverse, ?_, ?_, ?_, ?_⟩
  · rw [← List.reverse_append, ← hsplit, List.reverse_reverse]
  · rw [hfold, Nat.one_mul, List.map_reverse, List.prod_reverse,
      List.reverse_reverse]
  · exact fun position hposition =>
      hpadded position (List.mem_reverse.mp hposition)
  · rw [hstride]
    simp

/-! One destination element. -/

/-- The declared digits of a destination element. -/
def counts (plan : LayoutPlan) (element : Nat) : Nat → Nat :=
  place plan.permutation
    (digits (plan.permutation.map plan.extent) element)

theorem Built.fits_counts (h : plan.Built groups) {element : Nat}
    (helement : element < groups.flatten.prod) :
    Fits groups.flatten
      ((List.range plan.extents.length).map (plan.counts element)) := by
  have hfits : Fits (reorder plan.permutation plan.extents)
      (digits (plan.permutation.map plan.extent) element) := by
    rw [← h.prod_order] at helement
    exact fits_digits helement
  have hrestored := fits_restore h.order h.length_eq hfits
  rw [h.extents_eq, restore, h.length_eq, h.extents_eq] at hrestored
  rw [h.extents_eq]
  exact hrestored

/-- Every axis of the source lies below its extent. -/
def Inside (plan : LayoutPlan) (counters : Nat → Nat) : Prop :=
  ∀ axis < plan.shape.length,
    plan.coordSum counters axis < plan.shape.getD axis 0

theorem all_zip_iff {dims : List Nat} {f : Nat → Nat} :
    (List.zip ((List.range dims.length).map f) dims).all
        (fun pair => pair.1 < pair.2) = true ↔
      ∀ axis < dims.length, f axis < dims.getD axis 0 := by
  rw [List.all_eq_true]
  constructor
  · intro hall axis haxis
    have hmem : (f axis, dims[axis]) ∈
        List.zip ((List.range dims.length).map f) dims := by
      rw [List.mem_iff_getElem]
      exact ⟨axis, by simpa, by simp⟩
    rw [List.getD_eq_getElem _ _ haxis]
    exact of_decide_eq_true (hall _ hmem)
  · intro hall pair hpair
    obtain ⟨axis, haxis, rfl⟩ := List.mem_iff_getElem.mp hpair
    have hlt : axis < dims.length := by simpa using haxis
    have hbelow := hall axis hlt
    rw [List.getD_eq_getElem _ _ hlt] at hbelow
    simpa using hbelow

theorem Built.rank_eq (h : plan.Built groups) :
    groups.length = plan.shape.length := by
  rw [h.fits.length_eq, List.length_map]

open scoped Classical in
theorem Built.naive_eq (h : plan.Built groups) {element : Nat}
    (helement : element < groups.flatten.prod) :
    naiveSource plan.shape groups plan.permutation element =
      if plan.Inside (plan.counts element) then
        some (∑ position ∈ Finset.range plan.extents.length,
          plan.counts element position * plan.srcStride.getD position 0)
      else none := by
  have hgather : gather plan.permutation groups.flatten element =
      value groups.flatten
        ((List.range plan.extents.length).map (plan.counts element)) := by
    rw [gather, restore, h.length_eq, ← h.extents_eq]
    rfl
  have hcoords := h.digits_value (h.fits_counts helement)
  rw [naiveSource, hgather, hcoords, h.value_coords, h.rank_eq]
  exact if_congr all_zip_iff rfl rfl

theorem Built.coordSum_lt (h : plan.Built groups) {element axis : Nat}
    (helement : element < groups.flatten.prod) (haxis : axis < groups.length) :
    plan.coordSum (plan.counts element) axis <
      (groups.map List.prod).getD axis 0 := by
  have hvalue := value_lt (h.fits_counts helement)
  rw [List.prod_flatten] at hvalue
  have hfits := fits_digits hvalue
  rw [h.digits_value (h.fits_counts helement)] at hfits
  have hlength : groups.length = (groups.map List.prod).length :=
    (List.length_map _).symm
  rw [hlength] at haxis hfits
  exact fits_map_range.mp hfits axis haxis

theorem Built.coordSum_small (h : plan.Built groups) {element axis : Nat}
    (helement : element < groups.flatten.prod) (haxis : axis < groups.length) :
    plan.coordSum (plan.counts element) axis < 2 ^ 64 := by
  have hpositive : ∀ size ∈ groups.map List.prod, 1 ≤ size := by
    intro size hsize
    obtain ⟨group, hgroup, rfl⟩ := List.mem_map.mp hsize
    exact List.prod_pos fun extent hextent =>
      h.extents_pos extent (List.mem_flatten.mpr ⟨group, hgroup, hextent⟩)
  have haxis' : axis < (groups.map List.prod).length := by
    rwa [List.length_map]
  calc plan.coordSum (plan.counts element) axis
      < (groups.map List.prod).getD axis 0 := h.coordSum_lt helement haxis
    _ ≤ (groups.map List.prod).prod := by
        rw [List.getD_eq_getElem _ _ haxis']
        exact List.single_le_prod hpositive _ (List.getElem_mem haxis')
    _ = groups.flatten.prod := List.prod_flatten.symm
    _ < 2 ^ 64 := h.small

theorem Built.shape_prod_le (h : plan.Built groups) :
    plan.shape.prod ≤ groups.flatten.prod := by
  rw [List.prod_flatten]
  exact List.Forall₂.prod_le_prod' h.fits

theorem Built.locate_eq (h : plan.Built groups) {o : Odometer} {element : Nat}
    (helement : element < groups.flatten.prod) (hshows : plan.Shows o)
    (hcounts : ∀ position < plan.extents.length,
      o.counters position = plan.counts element position) :
    locate o.coord 0 0 (plan.shape.zip plan.logicalStride) =
      naiveSource plan.shape groups plan.permutation element := by
  classical
  have hsums : plan.coordSum o.counters = plan.coordSum (plan.counts element) :=
    funext fun axis => Finset.sum_congr rfl fun position hposition => by
      rw [hcounts position (Finset.mem_range.mp hposition)]
  have hmod : ∀ axis < plan.shape.length,
      o.coord axis = plan.coordSum (plan.counts element) axis := by
    intro axis haxis
    rw [hshows axis, hsums]
    exact Nat.mod_eq_of_lt (h.coordSum_small helement (by rwa [h.rank_eq]))
  have hcoords : (List.range plan.shape.length).map (fun axis =>
      o.coord (0 + axis)) =
        (List.range plan.shape.length).map
          (plan.coordSum (plan.counts element)) :=
    List.map_congr_left fun axis haxis => by
      rw [Nat.zero_add, hmod axis (List.mem_range.mp haxis)]
  have hroom : 0 + plan.shape.prod ≤ 2 ^ 64 := by
    have hle := h.shape_prod_le
    have hsmall := h.small
    omega
  rw [h.strides, LayoutPlan.locate_eq h.shape_pos hroom, hcoords,
    h.naive_eq helement, Nat.zero_add, ← h.value_coords, h.rank_eq]
  exact if_congr all_zip_iff rfl rfl

end Runs

end LayoutPlan

end TensorFS
