import TensorFS.Layout.Planned

namespace TensorFS

open Data Radix

namespace LayoutPlan

variable {plan : LayoutPlan} {groups : List (List Nat)} {element : Nat}

/-! Moving bytes and moving them back. -/

/-- The bytes a destination element is given. -/
def filled (source : Bytes) (element : Nat) : Option Nat → Bytes
  | some index => cell element source index
  | none => List.replicate element 0

theorem Built.naive_lt (h : plan.Built groups) {index source : Nat}
    (hsource : naiveSource plan.shape groups plan.permutation index =
      some source) : source < plan.shape.prod :=
  naiveSource_lt h.fits hsource

theorem Folds.run_inside {outer inner : List Nat}
    (hfolds : plan.Folds outer inner) (h : plan.Built groups)
    {step source : Nat} (hstep : step < (outer.map plan.extent).prod)
    (hsource : naiveSource plan.shape groups plan.permutation
      (step * (inner.map plan.extent).prod) = some source) :
    source + (inner.map plan.extent).prod ≤ plan.shape.prod := by
  have hrun := hfolds.run_pos h
  have hlast := hfolds.naive_add h hstep
    (Nat.sub_lt hrun Nat.one_pos)
  rw [hsource, Option.map_some] at hlast
  have hlt := h.naive_lt hlast
  omega

theorem Folds.dest_inside {outer inner : List Nat}
    (hfolds : plan.Folds outer inner) (h : plan.Built groups) {step : Nat}
    (hstep : step < (outer.map plan.extent).prod) :
    step * (inner.map plan.extent).prod + (inner.map plan.extent).prod ≤
      groups.flatten.prod := by
  rw [hfolds.prod_eq h]
  calc step * (inner.map plan.extent).prod + (inner.map plan.extent).prod
      = (step + 1) * (inner.map plan.extent).prod := by ring
    _ ≤ _ := Nat.mul_le_mul_right _ hstep

/-- A slice of the counted cells, and where it is put. -/
theorem slice_cells {buffer : Bytes} {first count total : Nat}
    (hlength : buffer.length = total * element)
    (hinside : first + count ≤ total) (hfits : total * element < 2 ^ 63) :
    slice buffer (first * element % 2 ^ 64) (count * element % 2 ^ 64) =
        .ok ((buffer.drop (first * element)).take (count * element)) ∧
      ((buffer.drop (first * element)).take (count * element)).length =
        count * element := by
  have hend : (first + count) * element ≤ total * element :=
    Nat.mul_le_mul_right _ hinside
  rw [Nat.add_mul] at hend
  rw [Nat.mod_eq_of_lt (by omega), Nat.mod_eq_of_lt (by omega), slice,
    if_pos (by omega), List.length_take, List.length_drop]
  exact ⟨rfl, by omega⟩

theorem overwrite_cells {buffer bytes : Bytes} {first count total : Nat}
    (hlength : buffer.length = total * element)
    (hbytes : bytes.length = count * element)
    (hinside : first + count ≤ total) (hfits : total * element < 2 ^ 63) :
    overwrite buffer (first * element % 2 ^ 64) bytes =
        .ok (patch buffer (first * element) bytes) ∧
      first * element + bytes.length ≤ buffer.length := by
  have hend : (first + count) * element ≤ total * element :=
    Nat.mul_le_mul_right _ hinside
  rw [Nat.add_mul] at hend
  rw [Nat.mod_eq_of_lt (by omega), overwrite, if_pos (by omega)]
  exact ⟨rfl, by omega⟩

/-- The visit a step makes. -/
def runAt (plan : LayoutPlan) (groups : List (List Nat)) (inner : List Nat)
    (step : Nat) : LayoutRun :=
  ⟨step * (inner.map plan.extent).prod,
    naiveSource plan.shape groups plan.permutation
      (step * (inner.map plan.extent).prod), (inner.map plan.extent).prod⟩

theorem Folds.applyRun_spec {outer inner : List Nat}
    (hfolds : plan.Folds outer inner) (h : plan.Built groups)
    {source buffer : Bytes} {step : Nat}
    (hstep : step < (outer.map plan.extent).prod)
    (hsource : source.length = plan.shape.prod * element)
    (hbuffer : buffer.length = groups.flatten.prod * element)
    (hfits : groups.flatten.prod * element < 2 ^ 63) :
    ∃ bytes, bytes.length = (inner.map plan.extent).prod * element ∧
      applyRun source element buffer (runAt plan groups inner step) =
        .ok (patch buffer
          (step * (inner.map plan.extent).prod * element) bytes) ∧
      ∀ offset < (inner.map plan.extent).prod,
        cell element bytes offset =
          filled source element (naiveSource plan.shape groups
            plan.permutation
            (step * (inner.map plan.extent).prod + offset)) := by
  have hdest := hfolds.dest_inside h hstep
  have hsmaller : plan.shape.prod * element ≤
      groups.flatten.prod * element :=
    Nat.mul_le_mul_right _ h.shape_prod_le
  unfold runAt
  cases hnaive : naiveSource plan.shape groups plan.permutation
      (step * (inner.map plan.extent).prod) with
  | none =>
      have hlength : (List.replicate ((inner.map plan.extent).prod * element)
          (0 : UInt8)).length = (inner.map plan.extent).prod * element :=
        List.length_replicate
      have hend : (inner.map plan.extent).prod * element ≤
          groups.flatten.prod * element :=
        Nat.mul_le_mul_right _ (by omega)
      refine ⟨_, hlength, ?_, fun offset hoffset => ?_⟩
      · simp only [applyRun]
        rw [Nat.mod_eq_of_lt (by omega :
          (inner.map plan.extent).prod * element < 2 ^ 64)]
        exact (overwrite_cells hbuffer hlength hdest hfits).1
      · rw [hfolds.naive_add h hstep hoffset, hnaive,
          cell_replicate _ hoffset]
        rfl
  | some index =>
      have hinside := hfolds.run_inside h hstep hnaive
      obtain ⟨hslice, hlength⟩ :=
        slice_cells hsource hinside (by omega)
      refine ⟨_, hlength, ?_, fun offset hoffset => ?_⟩
      · simp only [applyRun, hslice, except_ok_bind]
        exact (overwrite_cells hbuffer hlength hdest hfits).1
      · rw [hfolds.naive_add h hstep hoffset, hnaive, cell_slice hoffset]
        rfl

/-- Applying a plan fills every destination element from its source element,
or with zeros. -/
theorem Built.apply_spec (h : plan.Built groups)
    (helements : plan.sourceElements = plan.shape.prod)
    {source destination : Bytes}
    (hsource : source.length = plan.shape.prod * element)
    (hdestination : destination.length = groups.flatten.prod * element)
    (hfits : groups.flatten.prod * element < 2 ^ 63) :
    ∃ moved, plan.apply source destination element = .ok moved ∧
      moved.length = groups.flatten.prod * element ∧
      ∀ index < groups.flatten.prod, cell element moved index =
        filled source element
          (naiveSource plan.shape groups plan.permutation index) := by
  obtain ⟨outer, inner, hfolds⟩ := h.folds
  have hsmaller : plan.shape.prod * element ≤
      groups.flatten.prod * element :=
    Nat.mul_le_mul_right _ h.shape_prod_le
  have hsized : plan.sized source.length destination.length element =
      .ok () := by
    rw [sized, helements, h.dest, hsource, hdestination,
      Nat.mod_eq_of_lt (by omega), Nat.mod_eq_of_lt (by omega), ensure_of rfl,
      except_ok_bind, ensure_of rfl]
  obtain ⟨moved, hmoved, hlength, hcells⟩ := foldlM_steps
    (applyRun source element) (runAt plan groups inner)
    (fun step buffer => buffer.length = groups.flatten.prod * element ∧
      ∀ index < step * (inner.map plan.extent).prod,
        cell element buffer index = filled source element
          (naiveSource plan.shape groups plan.permutation index))
    (fun step _ hstep buffer hinv => by
      rw [Nat.zero_add] at hstep
      obtain ⟨hbuffer, hdone⟩ := hinv
      obtain ⟨bytes, hbytes, hrun, hnew⟩ :=
        hfolds.applyRun_spec h hstep hsource hbuffer hfits
      have hinside := (overwrite_cells hbuffer hbytes
        (hfolds.dest_inside h hstep) hfits).2
      refine ⟨_, hrun, by rw [length_patch hinside, hbuffer],
        fun index hindex => ?_⟩
      by_cases hold : index < step * (inner.map plan.extent).prod
      · rw [cell_patch_outside hinside hbytes (.inl hold), hdone index hold]
      · rw [Nat.add_mul, Nat.one_mul] at hindex
        obtain ⟨offset, rfl⟩ := Nat.exists_eq_add_of_le (not_lt.mp hold)
        rw [cell_patch_inside hinside hbytes (by omega) hindex,
          Nat.add_sub_cancel_left]
        exact hnew offset (by omega))
    (⟨hdestination, fun index hindex => by omega⟩ :
      destination.length = groups.flatten.prod * element ∧ _)
  refine ⟨moved, ?_, hlength, ?_⟩
  · rw [apply, hsized, h.forEachRun_eq hfolds, List.range_eq_range']
    exact hmoved
  · intro index hindex
    apply hcells
    rw [Nat.zero_add, ← hfolds.prod_eq h]
    exact hindex

theorem Folds.inverseRun_spec {outer inner : List Nat}
    (hfolds : plan.Folds outer inner) (h : plan.Built groups)
    {destination buffer : Bytes} {step : Nat}
    (hstep : step < (outer.map plan.extent).prod)
    (hdestination : destination.length = groups.flatten.prod * element)
    (hbuffer : buffer.length = plan.shape.prod * element)
    (hfits : groups.flatten.prod * element < 2 ^ 63)
    (hdone : ∀ index < step * (inner.map plan.extent).prod, ∀ origin,
      naiveSource plan.shape groups plan.permutation index = some origin →
        cell element buffer origin = cell element destination index) :
    ∃ next, inverseRun destination element buffer
        (runAt plan groups inner step) = .ok next ∧
      next.length = plan.shape.prod * element ∧
      ∀ index < (step + 1) * (inner.map plan.extent).prod, ∀ origin,
        naiveSource plan.shape groups plan.permutation index = some origin →
          cell element next origin = cell element destination index := by
  have hdest := hfolds.dest_inside h hstep
  have hsmaller : plan.shape.prod * element ≤
      groups.flatten.prod * element :=
    Nat.mul_le_mul_right _ h.shape_prod_le
  unfold runAt
  cases hnaive : naiveSource plan.shape groups plan.permutation
      (step * (inner.map plan.extent).prod) with
  | none =>
      refine ⟨buffer, rfl, hbuffer, fun index hindex origin horigin => ?_⟩
      by_cases hold : index < step * (inner.map plan.extent).prod
      · exact hdone index hold origin horigin
      · rw [Nat.add_mul, Nat.one_mul] at hindex
        obtain ⟨offset, rfl⟩ := Nat.exists_eq_add_of_le (not_lt.mp hold)
        rw [hfolds.naive_add h hstep (by omega), hnaive] at horigin
        cases horigin
  | some start =>
      have hinside := hfolds.run_inside h hstep hnaive
      obtain ⟨hslice, hlength⟩ := slice_cells hdestination hdest hfits
      obtain ⟨hover, hroom⟩ :=
        overwrite_cells hbuffer hlength hinside (by omega)
      refine ⟨_, ?_, by rw [length_patch hroom, hbuffer],
        fun index hindex origin horigin => ?_⟩
      · simp only [inverseRun, hslice, except_ok_bind, hover]
      · by_cases hold : index < step * (inner.map plan.extent).prod
        · have houtside : origin < start ∨
              start + (inner.map plan.extent).prod ≤ origin := by
            by_contra hin
            rw [not_or, not_lt, not_le] at hin
            obtain ⟨offset, rfl⟩ := Nat.exists_eq_add_of_le hin.1
            have hsame := hfolds.naive_add h hstep
              (by omega : offset < (inner.map plan.extent).prod)
            rw [hnaive, Option.map_some] at hsame
            have hequal := naiveSource_inj h.order h.order_length h.fits
              (by omega) (hfolds.element_lt h hstep (by omega)) horigin hsame
            omega
          rw [cell_patch_outside hroom hlength houtside]
          exact hdone index hold origin horigin
        · rw [Nat.add_mul, Nat.one_mul] at hindex
          obtain ⟨offset, rfl⟩ := Nat.exists_eq_add_of_le (not_lt.mp hold)
          rw [hfolds.naive_add h hstep (by omega), hnaive, Option.map_some,
            Option.some.injEq] at horigin
          subst horigin
          rw [cell_patch_inside hroom hlength (by omega) (by omega),
            Nat.add_sub_cancel_left, cell_slice (by omega)]

/-- Applying a plan backwards returns every source element from its one
destination element. -/
theorem Built.inverse_spec (h : plan.Built groups)
    (helements : plan.sourceElements = plan.shape.prod)
    {destination back : Bytes}
    (hdestination : destination.length = groups.flatten.prod * element)
    (hback : back.length = plan.shape.prod * element)
    (hfits : groups.flatten.prod * element < 2 ^ 63) :
    ∃ source, plan.applyInverse destination back element = .ok source ∧
      source.length = plan.shape.prod * element ∧
      ∀ index < groups.flatten.prod, ∀ origin,
        naiveSource plan.shape groups plan.permutation index = some origin →
          cell element source origin = cell element destination index := by
  obtain ⟨outer, inner, hfolds⟩ := h.folds
  have hsmaller : plan.shape.prod * element ≤
      groups.flatten.prod * element :=
    Nat.mul_le_mul_right _ h.shape_prod_le
  have hsized : plan.sized back.length destination.length element =
      .ok () := by
    rw [sized, helements, h.dest, hback, hdestination,
      Nat.mod_eq_of_lt (by omega), Nat.mod_eq_of_lt (by omega), ensure_of rfl,
      except_ok_bind, ensure_of rfl]
  obtain ⟨source, hsource, hlength, hcells⟩ := foldlM_steps
    (inverseRun destination element) (runAt plan groups inner)
    (fun step buffer => buffer.length = plan.shape.prod * element ∧
      ∀ index < step * (inner.map plan.extent).prod, ∀ origin,
        naiveSource plan.shape groups plan.permutation index = some origin →
          cell element buffer origin = cell element destination index)
    (fun step _ hstep buffer hinv => by
      rw [Nat.zero_add] at hstep
      obtain ⟨hbuffer, hdone⟩ := hinv
      exact hfolds.inverseRun_spec h hstep hdestination hbuffer hfits hdone)
    (⟨hback, fun index hindex => by omega⟩ :
      back.length = plan.shape.prod * element ∧ _)
  refine ⟨source, ?_, hlength, ?_⟩
  · rw [applyInverse, hsized, h.forEachRun_eq hfolds, List.range_eq_range']
    exact hsource
  · intro index hindex
    apply hcells
    rw [Nat.zero_add, ← hfolds.prod_eq h]
    exact hindex

/-- For every element size and every input of the right length the inverse
returns the input, whatever the buffers held before. -/
def RoundTrips (plan : LayoutPlan) (sourceElements destElements : Nat) :
    Prop :=
  ∀ (element : Nat) (source destination back : Bytes),
    source.length = sourceElements * element →
    destination.length = destElements * element →
    destination.length < 2 ^ 63 →
    back.length = source.length →
      ∃ moved, plan.apply source destination element = .ok moved ∧
        plan.applyInverse moved back element = .ok source

theorem Built.roundTrips (h : plan.Built groups)
    (helements : plan.sourceElements = plan.shape.prod) :
    plan.RoundTrips plan.shape.prod groups.flatten.prod := by
  intro element source destination back hsource hdestination hfits hback
  rw [hdestination] at hfits
  obtain ⟨moved, hmoved, hlength, hfilled⟩ :=
    h.apply_spec helements hsource hdestination hfits
  obtain ⟨returned, hreturned, hreturnedLength, hcells⟩ :=
    h.inverse_spec helements hlength (hback.trans hsource) hfits
  refine ⟨moved, hmoved, ?_⟩
  rw [hreturned, Except.ok.injEq]
  refine eq_of_cells hreturnedLength hsource fun index hindex => ?_
  obtain ⟨dest, hdest, hnaive⟩ :=
    naiveSource_surj h.order h.order_length h.fits hindex
  rw [hcells dest hdest index hnaive, hfilled dest hdest, hnaive]
  rfl

/-! The probe never refuses. -/

theorem applyRun_length {source buffer next : Bytes} {run : LayoutRun}
    (h : applyRun source element buffer run = .ok next) :
    next.length = buffer.length := by
  have hover : ∀ {start bytes}, overwrite buffer start bytes = .ok next →
      next.length = buffer.length := by
    intro start bytes hok
    unfold overwrite at hok
    split at hok
    · rename_i hroom
      cases hok
      exact length_patch hroom
    · cases hok
  unfold applyRun at h
  split at h
  · rw [except_bind_eq_ok] at h
    obtain ⟨bytes, _, h⟩ := h
    exact hover h
  · exact hover h

theorem overwrite_error {buffer bytes : Bytes} {start : Nat}
    {e : Failure LayoutError} (h : overwrite buffer start bytes = .error e) :
    e = .panicked := by
  unfold overwrite at h
  split at h
  · cases h
  · cases h
    rfl

theorem slice_error {buffer : Bytes} {start span : Nat}
    {e : Failure LayoutError} (h : slice buffer start span = .error e) :
    e = .panicked := by
  unfold slice at h
  split at h
  · cases h
  · cases h
    rfl

theorem applyRun_error {source buffer : Bytes} {run : LayoutRun}
    {e : Failure LayoutError}
    (h : applyRun source element buffer run = .error e) : e = .panicked := by
  simp only [applyRun] at h
  split at h
  · rename_i index _
    cases hslice : slice source (index * element % 2 ^ 64)
        (run.length * element % 2 ^ 64) with
    | error refusal =>
        rw [hslice, except_error_bind, Except.error.injEq] at h
        exact h ▸ slice_error hslice
    | ok bytes =>
        rw [hslice, except_ok_bind] at h
        exact overwrite_error h
  · exact overwrite_error h

/-- A run that ends outside the buffer panics whatever it copies. -/
theorem applyRun_outside {source buffer : Bytes} {run : LayoutRun}
    (houtside : buffer.length <
      run.dest * element % 2 ^ 64 + run.length * element % 2 ^ 64) :
    applyRun source element buffer run = .error .panicked := by
  cases h : applyRun source element buffer run with
  | error e => rw [applyRun_error h]
  | ok next =>
      exfalso
      unfold applyRun at h
      split at h
      · rename_i index hindex
        rw [except_bind_eq_ok] at h
        obtain ⟨bytes, hslice, h⟩ := h
        unfold slice at hslice
        split at hslice
        · rename_i hroom
          cases hslice
          unfold overwrite at h
          rw [if_neg] at h
          · cases h
          · rw [List.length_take, List.length_drop]
            omega
        · cases hslice
      · unfold overwrite at h
        rw [if_neg] at h
        · cases h
        · rw [List.length_replicate]
          omega

theorem foldlM_panics {source buffer : Bytes} {runs : List LayoutRun}
    {run : LayoutRun} (hrun : run ∈ runs)
    (houtside : buffer.length <
      run.dest * element % 2 ^ 64 + run.length * element % 2 ^ 64) :
    runs.foldlM (applyRun source element) buffer = .error .panicked := by
  induction runs generalizing buffer with
  | nil => cases hrun
  | cons first runs ih =>
      rw [List.foldlM_cons]
      cases hfirst : applyRun source element buffer first with
      | error e => rw [applyRun_error hfirst]; rfl
      | ok next =>
          rcases List.mem_cons.mp hrun with rfl | hrun
          · rw [applyRun_outside houtside] at hfirst
            cases hfirst
          · exact ih hrun (by rwa [applyRun_length hfirst])

theorem Built.shape_prod_pos (h : plan.Built groups) : 0 < plan.shape.prod :=
  List.prod_pos h.shape_pos

/-- A destination whose byte length wraps is written outside its buffer. -/
theorem Built.apply_panics (h : plan.Built groups)
    (helements : plan.sourceElements = plan.shape.prod)
    {source destination : Bytes}
    (hsource : source.length = plan.shape.prod * element)
    (hfits : plan.shape.prod * element < 2 ^ 63)
    (hdestination : destination.length =
      groups.flatten.prod * element % 2 ^ 64)
    (hsmall : destination.length < 2 ^ 63)
    (hwraps : 2 ^ 64 ≤ groups.flatten.prod * element) :
    plan.apply source destination element = .error .panicked := by
  obtain ⟨outer, inner, hfolds⟩ := h.folds
  have hrun := hfolds.run_pos h
  have helement : 0 < element := Nat.pos_of_ne_zero fun hzero => by
    rw [hzero, Nat.mul_zero] at hwraps
    omega
  have hsized : plan.sized source.length destination.length element =
      .ok () := by
    rw [sized, helements, h.dest, hsource, hdestination,
      Nat.mod_eq_of_lt (by omega : plan.shape.prod * element < 2 ^ 64),
      ensure_of rfl, except_ok_bind, ensure_of rfl]
  obtain ⟨origin, horigin, hnaive⟩ :=
    naiveSource_surj h.order h.order_length h.fits h.shape_prod_pos
  have hstep : ∀ index < groups.flatten.prod,
      index / (inner.map plan.extent).prod <
        (outer.map plan.extent).prod := by
    intro index hindex
    rw [hfolds.prod_eq h, Nat.mul_comm] at hindex
    exact Nat.div_lt_of_lt_mul hindex
  have hrunle : (inner.map plan.extent).prod ≤ plan.shape.prod := by
    have hadd := hfolds.naive_add h (hstep origin horigin)
      (Nat.mod_lt origin hrun)
    rw [Nat.div_add_mod', hnaive, eq_comm, Option.map_eq_some_iff] at hadd
    obtain ⟨start, hstart, hsum⟩ := hadd
    have hinside := hfolds.run_inside h (hstep origin horigin) hstart
    omega
  have hrunbytes : (inner.map plan.extent).prod * element ≤
      plan.shape.prod * element := Nat.mul_le_mul_right _ hrunle
  have hlast : destination.length / element < groups.flatten.prod := by
    refine Nat.div_lt_of_lt_mul ?_
    rw [Nat.mul_comm]
    omega
  have hat := hstep _ hlast
  have hbelow : destination.length / element /
      (inner.map plan.extent).prod * (inner.map plan.extent).prod * element ≤
        destination.length :=
    (Nat.mul_le_mul_right _ (Nat.div_mul_le_self _ _)).trans
      (Nat.div_mul_le_self _ _)
  have habove : destination.length <
      destination.length / element / (inner.map plan.extent).prod *
        (inner.map plan.extent).prod * element +
          (inner.map plan.extent).prod * element := by
    have hquotient := Nat.lt_div_mul_add (a := destination.length) helement
    have hsteps := Nat.mul_le_mul_right element (Nat.succ_le_of_lt
      (Nat.lt_div_mul_add (a := destination.length / element) hrun))
    rw [Nat.succ_mul, Nat.add_mul _ (inner.map plan.extent).prod] at hsteps
    omega
  have hpanics := @foldlM_panics element source destination
    ((List.range (outer.map plan.extent).prod).map
      (runAt plan groups inner))
    (runAt plan groups inner
      (destination.length / element / (inner.map plan.extent).prod))
    (List.mem_map_of_mem (List.mem_range.mpr hat)) (by
      simp only [runAt]
      rw [Nat.mod_eq_of_lt (by omega), Nat.mod_eq_of_lt (by omega)]
      exact habove)
  rw [apply, hsized, h.forEachRun_eq hfolds]
  exact hpanics

theorem Built.filterMap_perm (h : plan.Built groups) :
    ((List.range groups.flatten.prod).filterMap
      (naiveSource plan.shape groups plan.permutation)).Perm
        (List.range plan.shape.prod) := by
  have hnodup : ((List.range groups.flatten.prod).filterMap
      (naiveSource plan.shape groups plan.permutation)).Nodup := by
    rw [List.nodup_iff_pairwise_ne, List.pairwise_filterMap]
    refine List.nodup_range.imp_of_mem fun {left right} hleft hright hne => ?_
    rintro source hsource other hother rfl
    exact hne (naiveSource_inj h.order h.order_length h.fits
      (List.mem_range.mp hleft) (List.mem_range.mp hright) hsource hother)
  rw [List.perm_ext_iff_of_nodup hnodup List.nodup_range]
  intro source
  rw [List.mem_filterMap, List.mem_range]
  constructor
  · rintro ⟨index, _, hsource⟩
    exact h.naive_lt hsource
  · intro hlt
    obtain ⟨index, hindex, hsource⟩ :=
      naiveSource_surj h.order h.order_length h.fits hlt
    exact ⟨index, List.mem_range.mpr hindex, hsource⟩

theorem Built.mapped_eq (h : plan.Built groups) :
    (plan.forEach.filter fun visit => visit.2.isSome).length =
      plan.shape.prod := by
  have hlength := h.filterMap_perm.length_eq
  rw [List.length_range, List.length_filterMap_eq_countP] at hlength
  rw [h.forEach_eq, ← List.countP_eq_length_filter, List.countP_map]
  exact hlength

/-- A plan that reports no padding has none. -/
theorem Built.unpadded (h : plan.Built groups)
    (hpadded : plan.padded = plan.paddedAxis.any id)
    (hnone : plan.padded = false) :
    (plan.forEach.filter fun visit => visit.2.isNone) = [] := by
  rw [hnone] at hpadded
  have hflags : ∀ axis < groups.length,
      ¬ plan.shape.getD axis 0 < (groups.map List.prod).getD axis 0 := by
    intro axis haxis hlt
    have hflag := (h.padded_eq axis haxis).mpr hlt
    have hmem : true ∈ plan.paddedAxis := by
      rw [List.getD_eq_getElem?_getD] at hflag
      cases hget : plan.paddedAxis[axis]? with
      | none => simp [hget] at hflag
      | some flag =>
          rw [hget, Option.getD_some] at hflag
          exact hflag ▸ List.mem_of_getElem? hget
    have hany : plan.paddedAxis.any id = true :=
      List.any_eq_true.mpr ⟨true, hmem, rfl⟩
    rw [← hpadded] at hany
    cases hany
  classical
  rw [List.filter_eq_nil_iff, h.forEach_eq]
  intro visit hvisit
  obtain ⟨index, hindex, rfl⟩ := List.mem_map.mp hvisit
  have hinside : plan.Inside (plan.counts index) := by
    intro axis haxis
    rw [← h.rank_eq] at haxis
    exact lt_of_lt_of_le (h.coordSum_lt (List.mem_range.mp hindex) haxis)
      (not_lt.mp (hflags axis haxis))
  rw [h.naive_eq (List.mem_range.mp hindex), if_pos hinside]
  simp

theorem checkPadding_ok {record : LayoutMorphism} {shape : List UInt64}
    {moved : Bytes} {total : Nat}
    (hlength : moved.length = total * LayoutMorphism.probeElement)
    (hfits : total * LayoutMorphism.probeElement < 2 ^ 63)
    {slots : List Nat} (hslots : ∀ slot ∈ slots, slot < total ∧
      cell LayoutMorphism.probeElement moved slot =
        List.replicate LayoutMorphism.probeElement 0) :
    record.checkPadding shape moved slots = .ok () := by
  induction slots with
  | nil => rfl
  | cons slot slots ih =>
      obtain ⟨hlt, hcell⟩ := hslots slot List.mem_cons_self
      have hslice : slice moved (slot * LayoutMorphism.probeElement % 2 ^ 64)
          LayoutMorphism.probeElement =
            .ok (List.replicate LayoutMorphism.probeElement 0) := by
        rw [← hcell]
        unfold LayoutMorphism.probeElement at hlength hfits ⊢
        rw [Nat.mod_eq_of_lt (by omega), slice, if_pos (by omega)]
        rfl
      rw [LayoutMorphism.checkPadding, hslice, except_ok_bind,
        ensure_of rfl]
      exact ih fun other hother => hslots other (List.mem_cons_of_mem _ hother)

end LayoutPlan

namespace LayoutMorphism

variable {record : LayoutMorphism} {shape : List UInt64} {plan : LayoutPlan}
  {groups : List (List Nat)}

theorem length_tags (elements : Nat) :
    ((List.range elements).flatMap tag).length = elements * probeElement := by
  have htag : ∀ index ∈ List.range elements, (tag index).length = 4 :=
    fun index _ => by simp [tag]
  rw [List.length_flatMap, List.map_congr_left htag, List.map_const',
    List.sum_replicate, List.length_range]
  rfl

theorem fillSource_ok {elements : Nat}
    (hfits : elements * probeElement < 2 ^ 63) :
    ∃ source, fillSource elements (elements * probeElement % 2 ^ 64) =
        .ok source ∧ source.length = elements * probeElement := by
  rw [Nat.mod_eq_of_lt (by omega), fillSource, allocate, if_pos hfits,
    except_ok_bind, if_pos le_rfl, Nat.sub_self]
  refine ⟨_, rfl, ?_⟩
  rw [List.length_append, length_tags]
  rfl

theorem fillSource_panics {elements : Nat}
    (hlarge : 2 ^ 63 ≤ elements * probeElement) :
    fillSource elements (elements * probeElement % 2 ^ 64) =
      .error .panicked := by
  rw [fillSource, allocate]
  split
  · rw [except_ok_bind, if_neg (by omega)]
  · rfl

theorem allocate_of {length : Nat} (h : length < 2 ^ 63) :
    allocate length = .ok () := if_pos h

theorem refusing_ensure_true {refusal : LayoutError} :
    refusing (ensure True refusal) = .ok () := rfl

theorem probe_ok (h : plan.Built groups)
    (helements : plan.sourceElements = plan.shape.prod)
    (hpadded : plan.padded = plan.paddedAxis.any id)
    (hfits : groups.flatten.prod * probeElement < 2 ^ 63) :
    record.probe shape plan =
      .ok ⟨shape, plan.destElements, plan.padded⟩ := by
  have hsmaller : plan.shape.prod * probeElement ≤
      groups.flatten.prod * probeElement :=
    Nat.mul_le_mul_right _ h.shape_prod_le
  obtain ⟨source, hfill, hsource⟩ :=
    @fillSource_ok plan.shape.prod (by omega)
  have hdestBytes : groups.flatten.prod * probeElement % 2 ^ 64 =
      groups.flatten.prod * probeElement := Nat.mod_eq_of_lt (by omega)
  have hsourceBytes : plan.shape.prod * probeElement % 2 ^ 64 =
      plan.shape.prod * probeElement := Nat.mod_eq_of_lt (by omega)
  obtain ⟨moved, hmoved, hlength, hcells⟩ := h.apply_spec helements hsource
    (List.length_replicate (a := poison)) hfits
  obtain ⟨again, hagain, hback⟩ := h.roundTrips helements probeElement source
    (List.replicate (groups.flatten.prod * probeElement) poison)
    (List.replicate (plan.shape.prod * probeElement) poison) hsource
    List.length_replicate (by rwa [List.length_replicate])
    (by rw [List.length_replicate, hsource])
  rw [hmoved, Except.ok.injEq] at hagain
  subst hagain
  have hpadding : record.checkPadding shape moved
      ((plan.forEach.filter fun visit => visit.2.isNone).map Prod.fst) =
        .ok () := by
    refine LayoutPlan.checkPadding_ok hlength hfits fun slot hslot => ?_
    obtain ⟨visit, hvisit, rfl⟩ := List.mem_map.mp hslot
    obtain ⟨hmem, hnone⟩ := List.mem_filter.mp hvisit
    rw [h.forEach_eq] at hmem
    obtain ⟨index, hindex, rfl⟩ := List.mem_map.mp hmem
    have hnone : naiveSource plan.shape groups plan.permutation index =
        none := Option.isNone_iff_eq_none.mp hnone
    refine ⟨List.mem_range.mp hindex, ?_⟩
    rw [hcells index (List.mem_range.mp hindex), hnone]
    rfl
  have hreported : ¬ (plan.padded = false ∧
      ((plan.forEach.filter fun visit => visit.2.isNone).map Prod.fst) ≠ []) := by
    rintro ⟨hnone, hne⟩
    exact hne (by rw [h.unpadded hpadded hnone]; rfl)
  rw [hsourceBytes] at hfill
  simp only [probe, helements, h.dest, hfill, hdestBytes, hsourceBytes,
    except_ok_bind, allocate_of hfits, hmoved, h.mapped_eq,
    refusing_ensure_true, hpadding, hreported, not_false_eq_true, hback]

theorem probe_not_refused (h : plan.Built groups)
    (helements : plan.sourceElements = plan.shape.prod)
    (hpadded : plan.padded = plan.paddedAxis.any id)
    (refusal : LayoutError) :
    record.probe shape plan ≠ .error (.refused refusal) := by
  intro hrefused
  by_cases hsource : plan.shape.prod * probeElement < 2 ^ 63
  · by_cases hdest : groups.flatten.prod * probeElement < 2 ^ 63
    · rw [probe_ok h helements hpadded hdest] at hrefused
      cases hrefused
    · obtain ⟨source, hfill, hlength⟩ := fillSource_ok hsource
      simp only [probe, helements, h.dest, hfill, except_ok_bind] at hrefused
      by_cases hwrapped :
          groups.flatten.prod * probeElement % 2 ^ 64 < 2 ^ 63
      · have hpanics := h.apply_panics helements hlength hsource
          (List.length_replicate (a := poison))
          (by rwa [List.length_replicate]) (by omega)
        simp only [hpanics, allocate, hwrapped, if_true, except_ok_bind,
          except_error_bind] at hrefused
        cases hrefused
      · simp only [allocate, hwrapped, if_false, except_error_bind] at hrefused
        cases hrefused
  · simp only [probe, helements, fillSource_panics (not_lt.mp hsource),
      except_error_bind] at hrefused
    cases hrefused

/-! The plan as a bijection with padding. -/

/-- What a record's plan should mean at a shape with these sub-axes. -/
structure PlanFaithful (record : LayoutMorphism) (shape : List UInt64)
    (factors : List (Nat × Nat)) (plan : LayoutPlan) : Prop where
  visits : plan.forEach.map Prod.fst =
    List.range (factors.map Prod.snd).prod
  reads : ∀ visit ∈ plan.forEach, visit.2 =
    naiveSource (shape.map UInt64.toNat) ((blocks factors).map Prod.snd)
      (record.storageOrder factors.length) visit.1
  once : ∀ source < (shape.map UInt64.toNat).prod,
    (plan.forEach.map Prod.snd).count (some source) = 1
  roundTrips : plan.RoundTrips (shape.map UInt64.toNat).prod
    (factors.map Prod.snd).prod
  ratifies : ∀ refusal,
    record.probe shape plan ≠ .error (.refused refusal)

theorem length_forEach_le (plan : LayoutPlan) :
    plan.forEach.length ≤ plan.destElements := by
  have hwalk : ∀ outer run left step o,
      ((plan.walkFrom outer run left step o).flatMap fun visit =>
        (List.range visit.length).map fun offset =>
          (visit.dest + offset, visit.source.map (· + offset))).length =
        left * run := by
    intro outer run left
    induction left with
    | zero => simp [LayoutPlan.walkFrom]
    | succ left ih =>
        intro step o
        rw [LayoutPlan.walkFrom, List.flatMap_cons, List.length_append, ih,
          List.length_map, List.length_range, Nat.succ_mul, Nat.add_comm]
  rw [LayoutPlan.forEach, LayoutPlan.forEachRun, hwalk]
  calc plan.destElements / max _ 1 * _
      ≤ plan.destElements / max _ 1 * max _ 1 :=
        Nat.mul_le_mul_left _ (le_max_left _ _)
    _ ≤ plan.destElements := Nat.div_mul_le_self _ _

/-- A checked record's plan is faithful exactly where its sub-axes multiply to
less than `2 ^ 64`. -/
theorem planFaithful_iff {factors : List (Nat × Nat)}
    (hcheck : record.check = .ok ()) (hplan : record.plan shape = .ok plan)
    (hfactors : record.factors shape = .ok factors) :
    record.PlanFaithful shape factors plan ↔
      (factors.map Prod.snd).prod < 2 ^ 64 := by
  obtain ⟨found, measured, hfound, _, _, _, hfields⟩ := plan_ok hplan
  rw [hfactors, Except.ok.injEq] at hfound
  subst hfound
  constructor
  · intro hfaithful
    have hlength := length_forEach_le plan
    rw [← List.length_map Prod.fst, hfaithful.visits, List.length_range,
      hfields] at hlength
    exact lt_of_le_of_lt hlength (Nat.mod_lt _ (by norm_num))
  · intro hsmall
    obtain ⟨groups, hgroups, hbuilt, helements, hpadded⟩ :=
      plan_built hcheck hplan hfactors hsmall
    have hshape : plan.shape = shape.map UInt64.toNat := by rw [hfields]
    have horder : plan.permutation = record.storageOrder factors.length := by
      rw [hfields]
    have hextents : (factors.map Prod.snd).prod = groups.flatten.prod := by
      rw [hgroups.labelled_eq, labelled_snd]
    have hblocks : (blocks factors).map Prod.snd = groups := by
      rw [hgroups.labelled_eq, blocks_labelled hgroups.nonempty, labels_snd]
    constructor
    · rw [hextents, hbuilt.forEach_eq, List.map_map]
      exact List.map_id' _
    · intro visit hvisit
      rw [hblocks, ← horder, ← hshape]
      rw [hbuilt.forEach_eq] at hvisit
      obtain ⟨index, _, rfl⟩ := List.mem_map.mp hvisit
      rfl
    · intro source hsource
      rw [← hshape] at hsource
      rw [hbuilt.forEach_eq, List.map_map]
      exact count_naiveSource hbuilt.order hbuilt.order_length hbuilt.fits
        hsource
    · rw [hextents, ← hshape]
      exact hbuilt.roundTrips helements
    · exact probe_not_refused hbuilt helements hpadded

/-! Ratifying a record at its own probe shapes. -/

theorem mapM_error {α β ε : Type} {f : α → Except ε β} {xs : List α}
    {refusal : ε} (h : xs.mapM f = .error refusal) :
    ∃ x ∈ xs, f x = .error refusal := by
  induction xs with
  | nil => cases h
  | cons x xs ih =>
      rw [List.mapM_cons] at h
      cases hx : f x with
      | error other =>
          rw [hx] at h
          cases h
          exact ⟨x, List.mem_cons_self, hx⟩
      | ok y =>
          rw [hx, except_ok_bind] at h
          cases hrest : xs.mapM f with
          | error other =>
              rw [hrest] at h
              cases h
              obtain ⟨found, hmem, hfound⟩ := ih hrest
              exact ⟨found, List.mem_cons_of_mem x hmem, hfound⟩
          | ok ys =>
              rw [hrest] at h
              cases h

theorem probeAt_eq_none : record.probeAt shape = .ok none ↔
    ∀ plan, record.plan shape ≠ .ok plan := by
  rw [probeAt]
  cases record.plan shape with
  | error refusal => simp
  | ok plan =>
      simp only [ne_eq, Except.ok.injEq, forall_eq', iff_false]
      cases record.probe shape plan with
      | error failure => exact fun h => by cases h
      | ok probe => exact fun h => by cases h

/-- No refusal names a shape the record plans without wrapping. -/
theorem probeAt_not_refused (hcheck : record.check = .ok ())
    (hsmall : ∀ factors, record.factors shape = .ok factors →
      (factors.map Prod.snd).prod < 2 ^ 64) (refusal : LayoutError) :
    record.probeAt shape ≠ .error (.refused refusal) := by
  intro hrefused
  rw [probeAt] at hrefused
  cases hplan : record.plan shape with
  | error _ =>
      rw [hplan] at hrefused
      cases hrefused
  | ok plan =>
      obtain ⟨factors, _, hfactors, _⟩ := plan_ok hplan
      have hratifies := ((planFaithful_iff hcheck hplan hfactors).mpr
        (hsmall factors hfactors)).ratifies
      simp only [hplan] at hrefused
      cases hprobe : record.probe shape plan with
      | error failure =>
          rw [hprobe] at hrefused
          cases hrefused
          exact hratifies refusal hprobe
      | ok probe =>
          rw [hprobe] at hrefused
          cases hrefused

theorem no_probes_iff {shapes : List (List UInt64)}
    {found : List (Option LayoutProbe)}
    (h : shapes.mapM record.probeAt = .ok found) :
    found.filterMap id = [] ↔
      ∀ shape ∈ shapes, ∀ plan, record.plan shape ≠ .ok plan := by
  replace h := mapM_except_eq_ok h
  induction h with
  | nil => simp
  | @cons shape probe shapes found hprobe _ ih =>
      rw [List.forall_mem_cons, ← probeAt_eq_none, hprobe]
      cases probe with
      | none => simpa using ih
      | some probe => simp

/-- A checked record is refused for one reason alone, that it plans none of its
probe shapes, as long as none of them wraps. -/
theorem ratify_refused_iff (hcheck : record.check = .ok ())
    (hsmall : ∀ shape ∈ record.probeShapes, ∀ factors,
      record.factors shape = .ok factors →
        (factors.map Prod.snd).prod < 2 ^ 64) {refusal : LayoutError} :
    record.ratify = .error (.refused refusal) ↔
      refusal = .record record.handle .noProbe ∧
        ∀ shape ∈ record.probeShapes, ∀ plan,
          record.plan shape ≠ .ok plan := by
  rw [ratify, hcheck]
  change (record.probeShapes.mapM record.probeAt >>= _) = _ ↔ _
  cases hfound : record.probeShapes.mapM record.probeAt with
  | error failure =>
      obtain ⟨shape, hmem, hfailed⟩ := mapM_error hfound
      constructor
      · intro h
        cases h
        exact absurd hfailed
          (probeAt_not_refused hcheck (hsmall shape hmem) refusal)
      · rintro ⟨-, hnone⟩
        rw [probeAt_eq_none.mpr (hnone shape hmem)] at hfailed
        cases hfailed
  | ok found =>
      rw [except_ok_bind, ← no_probes_iff hfound]
      by_cases hnone : found.filterMap id = []
      · rw [hnone]
        constructor
        · intro h
          cases h
          exact ⟨rfl, rfl⟩
        · rintro ⟨rfl, -⟩
          rfl
      · change (refusing (ensure (found.filterMap id ≠ []) _) >>= _) = _ ↔ _
        rw [ensure_of hnone]
        constructor
        · intro h
          cases h
        · intro h
          exact absurd h.2 hnone

/-! A record whose factors wrap, and one whose factors do not. -/

def wrappingRecord : LayoutMorphism where
  format := layoutMorphismFormat
  name := "test.wrapping".toList
  version := 1
  rank := 1
  subAxes := [⟨0, "2".toList⟩, ⟨0, "9223372036854775809".toList⟩]
  permutation := [1, 0]
  provenance := ["test".toList]

/-- The second source element is never visited, and padding takes its place. -/
theorem plan_loses_element :
    wrappingRecord.check = .ok () ∧
      ∃ plan, wrappingRecord.plan [2] = .ok plan ∧
        plan.sourceElements = 2 ∧
        plan.forEach = [(0, some 0), (1, none)] :=
  ⟨by decide, _, rfl, by decide, by decide⟩

def transposedRecord : LayoutMorphism where
  format := layoutMorphismFormat
  name := "torch.transposed".toList
  version := 1
  rank := 2
  subAxes := [⟨0, "d0".toList⟩, ⟨1, "d1".toList⟩]
  permutation := [1, 0]
  provenance := ["test".toList]

def transposedPlan : LayoutPlan where
  handle := "torch.transposed@1".toList
  shape := [2, 3]
  axes := [0, 1]
  extents := [2, 3]
  within := [1, 1]
  permutation := [1, 0]
  logicalStride := [3, 1]
  srcStride := [3, 1]
  paddedAxis := [false, false]
  sourceElements := 6
  destElements := 6
  padded := false

theorem planFaithful_iff_transposed :
    transposedRecord.PlanFaithful [2, 3] [(0, 2), (1, 3)] transposedPlan ↔
      2 * (3 * 1) < 2 ^ 64 :=
  planFaithful_iff (by decide) (by decide) (by decide)

end LayoutMorphism

end TensorFS
