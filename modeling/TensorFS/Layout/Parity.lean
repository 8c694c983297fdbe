import TensorFS.Layout.Go
import TensorFS.Layout.Planned

namespace TensorFS

open Data

/-! One record, two planners. -/

def Go.subAxesOf (subAxes : List TensorFS.SubAxis) : List SubAxis :=
  subAxes.map fun sub => ⟨sub.axis, sub.extent⟩

/-- The two readings of one document. -/
structure SameRecord (record : LayoutMorphism) (other : Go.LayoutMorphism) :
    Prop where
  name_eq : other.handle.name = record.name
  version_eq : other.handle.version = record.version
  rank_eq : other.rank = record.rank
  subAxes_eq : other.subAxes = Go.subAxesOf record.subAxes
  perm_eq : other.perm = record.permutation.map Int.ofNat

/-! Closing the axes of a factored shape. -/

/-- Whether the factors of one axis pass its dimension, when they reach it. -/
def closeOne (dims : List Nat) (axis product : Nat) : Option Bool :=
  if axis < dims.length ∧ dims.getD axis 0 ≤ product then
    some (decide (dims.getD axis 0 < product))
  else none

def closeAll (dims : List Nat) : Nat → List (List Nat) → Option Bool
  | _, [] => some false
  | axis, group :: groups =>
      (closeOne dims axis (group.prod % 2 ^ 64)).bind fun first =>
        (closeAll dims (axis + 1) groups).map fun rest => first || rest

theorem suffixProducts_snd (extents : List Nat) :
    (LayoutMorphism.suffixProducts extents).2 = extents.prod % 2 ^ 64 := by
  induction extents with
  | nil => rfl
  | cons extent extents ih =>
      rw [LayoutMorphism.suffixProducts, ih, List.prod_cons, Nat.mod_mul_mod,
        Nat.mul_comm]

theorem any_set_true {flags : List Bool} {index : Nat}
    (h : index < flags.length) : (flags.set index true).any id = true := by
  rw [List.any_eq_true]
  exact ⟨true, List.mem_set h true, rfl⟩

/-- One side measures the groups after all factors are known. -/
theorem measure_closes (handle : Text) (want : Nat) (dims : List Nat)
    (axis : Nat) (groups : List (List Nat)) (padded : List Bool)
    (hlength : padded.length = dims.length) :
    (LayoutMorphism.measure handle want dims padded
        (LayoutMorphism.labels axis groups)).toOption.map
      (fun result => result.2.any id) =
      (closeAll dims axis groups).map fun past => padded.any id || past := by
  induction groups generalizing axis padded with
  | nil => simp [LayoutMorphism.labels, LayoutMorphism.measure, closeAll]
  | cons group groups ih =>
      simp only [LayoutMorphism.labels, LayoutMorphism.measure, closeAll,
        closeOne, suffixProducts_snd, toOption_bind, toOption_ensure]
      by_cases hboth : axis < dims.length ∧
          dims.getD axis 0 ≤ group.prod % 2 ^ 64
      · obtain ⟨hinside, hle⟩ := hboth
        have hset : (if dims.getD axis 0 < group.prod % 2 ^ 64 then
            padded.set axis true else padded).length = dims.length := by
          split
          · rw [List.length_set, hlength]
          · exact hlength
        have htail := ih (axis + 1) _ hset
        have hany : (if dims.getD axis 0 < group.prod % 2 ^ 64 then
            padded.set axis true else padded).any id =
              (padded.any id || decide (dims.getD axis 0 <
                group.prod % 2 ^ 64)) := by
          split
          · rename_i hlt
            rw [any_set_true (by omega), decide_eq_true hlt, Bool.or_true]
          · rename_i hlt
            rw [decide_eq_false hlt, Bool.or_false]
        rw [hany] at htail
        simp only [if_pos hinside, if_pos hle,
          if_pos (show _ ∧ _ from ⟨hinside, hle⟩), Option.bind_some,
          Option.map_map, Function.comp_def, toOption_ok]
        simp only [← Bool.or_assoc, ← htail]
        generalize LayoutMorphism.measure handle want dims _ _ = measured
        cases measured <;> rfl
      · rw [if_neg hboth]
        by_cases hinside : axis < dims.length
        · have hle : ¬ dims.getD axis 0 ≤ group.prod % 2 ^ 64 :=
            fun hle => hboth ⟨hinside, hle⟩
          rw [if_pos hinside, if_neg hle]
          rfl
        · rw [if_neg hinside]
          rfl

/-! What a plan says of its destination. -/

def LayoutPlan.destination (plan : LayoutPlan) :
    List Nat × List Nat × Nat × Bool :=
  (plan.extents, plan.storageExtents, plan.destElements, plan.padded)

def Go.LayoutPlan.destination (plan : Go.LayoutPlan) :
    List Nat × List Nat × Nat × Bool :=
  (plan.extents, plan.storage, plan.elements, plan.padded)

theorem plan_destination {record : LayoutMorphism} {shape : List UInt64}
    {factors : List (Nat × Nat)} {groups : List (List Nat)}
    (hrank : ¬ (record.rank ≠ 0 ∧ shape.length ≠ record.rank))
    (hne : shape ≠ []) (hzero : 0 ∉ shape)
    (hfactors : record.factors shape = .ok factors)
    (hgroups : record.Factored shape factors groups) :
    (record.plan shape).toOption.map LayoutPlan.destination =
      (closeAll (shape.map UInt64.toNat) 0 groups).map fun past =>
        (groups.flatten,
          (record.storageOrder factors.length).map
            fun position => groups.flatten.getD position 0,
          groups.flatten.prod % 2 ^ 64, past) := by
  have hshape : ¬ (shape = [] ∨ 0 ∈ shape) := not_or.mpr ⟨hne, hzero⟩
  have hextents : factors.map Prod.snd = groups.flatten := by
    rw [hgroups.labelled_eq, labelled_snd]
  have hblocks : LayoutMorphism.blocks factors =
      LayoutMorphism.labels 0 groups := by
    rw [hgroups.labelled_eq,
      LayoutMorphism.blocks_labelled hgroups.nonempty]
  have hmeasure := measure_closes record.handle record.rank
    (shape.map UInt64.toNat) 0 groups
    (List.replicate (shape.map UInt64.toNat).length false) (by simp)
  have hflags : (List.replicate (shape.map UInt64.toNat).length false).any
      id = false := by simp
  rw [hflags] at hmeasure
  simp only [Bool.false_or, Option.map_id'] at hmeasure
  rw [← hmeasure]
  simp only [LayoutMorphism.plan, ensure_of hrank, ensure_of hshape,
    hfactors, hblocks, except_ok_bind, hextents]
  generalize LayoutMorphism.measure record.handle record.rank _ _ _ = measured
  cases measured with
  | error refusal => rfl
  | ok found => rfl

namespace Go.LayoutMorphism

/-- A sub-axis with its parsed extent, and the factor it comes to. -/
def Reads (shape : List UInt64) (item : SubAxis × ShapeExpr)
    (factor : Nat × Nat) : Prop :=
  item.1.axis = factor.1 ∧ item.2.eval shape = .ok factor.2 ∧ factor.2 ≠ 0

theorem planSubAxes_cons {handle : Handle} {shape : List UInt64}
    {item : SubAxis × ShapeExpr} {factor : Nat × Nat}
    (h : Reads shape item factor) (rest : List (SubAxis × ShapeExpr))
    {state : PlanState} (haxis : state.axis = factor.1) :
    planSubAxes handle shape (item :: rest) state =
      planSubAxes handle shape rest { state with
        product := state.product * factor.2 % 2 ^ 64
        extents := state.extents ++ [factor.2]
        elements := state.elements * factor.2 % 2 ^ 64 } := by
  obtain ⟨sub, expression⟩ := item
  obtain ⟨hsub, heval, hpositive⟩ := h
  have hsame : sub.axis = state.axis := hsub.trans haxis.symm
  simp only [planSubAxes, openAxis, hsame, ne_eq, not_true_eq_false, if_false,
    except_ok_bind, heval, ensure_of hpositive]

theorem planSubAxes_group {handle : Handle} {shape : List UInt64}
    {items rest : List (SubAxis × ShapeExpr)} {axis : Nat} {group : List Nat}
    (h : List.Forall₂ (Reads shape) items
      (group.map fun extent => (axis, extent)))
    {state : PlanState} (haxis : state.axis = axis)
    (hproduct : state.product < 2 ^ 64)
    (helements : state.elements < 2 ^ 64) :
    planSubAxes handle shape (items ++ rest) state =
      planSubAxes handle shape rest { state with
        product := state.product * group.prod % 2 ^ 64
        extents := state.extents ++ group
        elements := state.elements * group.prod % 2 ^ 64 } := by
  induction group generalizing items state with
  | nil =>
      cases h
      simp only [List.nil_append, List.prod_nil, Nat.mul_one,
        List.append_nil, Nat.mod_eq_of_lt hproduct,
        Nat.mod_eq_of_lt helements]
  | cons extent group ih =>
      cases h with
      | cons hitem hitems =>
          rw [List.cons_append, planSubAxes_cons hitem _ haxis]
          refine (@ih _ hitems { state with
            product := state.product * extent % 2 ^ 64
            extents := state.extents ++ [extent]
            elements := state.elements * extent % 2 ^ 64 } haxis
            (Nat.mod_lt _ (Nat.two_pow_pos 64))
            (Nat.mod_lt _ (Nat.two_pow_pos 64))).trans ?_
          simp only [List.append_assoc, List.singleton_append, List.prod_cons,
            Nat.mod_mul_mod, Nat.mul_assoc]

/-- A factor of another axis closes the open one. -/
theorem planSubAxes_opens {handle : Handle} {shape : List UInt64}
    {item : SubAxis × ShapeExpr} (rest : List (SubAxis × ShapeExpr))
    {state : PlanState} (haxis : item.1.axis ≠ state.axis) :
    planSubAxes handle shape (item :: rest) state =
      close handle shape state >>= fun state =>
        planSubAxes handle shape (item :: rest)
          { state with axis := item.1.axis, product := 1 } := by
  obtain ⟨sub, expression⟩ := item
  simp only [planSubAxes, openAxis, if_pos haxis]
  cases close handle shape state with
  | error refusal => rfl
  | ok state => simp

theorem close_eq (handle : Handle) (shape : List UInt64) (state : PlanState)
    {axis : Nat} (haxis : state.axis = axis) :
    (close handle shape state).toOption =
      (closeOne (shape.map UInt64.toNat) axis state.product).map fun past =>
        { state with padded := state.padded || past } := by
  have hsign : (0 : Int) ≤ axis := Int.natCast_nonneg axis
  simp only [close, closeAxis, haxis, closeOne, toOption_bind,
    toOption_ensure, Int.toNat_natCast, List.length_map, toOption_ok,
    if_pos hsign, Option.bind_some, Nat.cast_lt]
  by_cases hinside : axis < shape.length
  · by_cases hle : (shape.map UInt64.toNat).getD axis 0 ≤ state.product
    · simp only [if_pos hinside, if_pos hle,
        if_pos (show _ ∧ _ from ⟨hinside, hle⟩)]
      rfl
    · simp only [if_pos hinside, if_neg hle,
        if_neg (show ¬ (_ ∧ _) from fun h => hle (And.right h))]
      rfl
  · simp only [if_neg hinside,
      if_neg (show ¬ (_ ∧ _) from fun h => hinside (And.left h))]
    rfl

/-- The other side closes each axis when the next begins. -/
theorem planSubAxes_closes {handle : Handle} {shape : List UInt64}
    {items : List (SubAxis × ShapeExpr)} {axis : Nat}
    {groups : List (List Nat)} (hne : ∀ group ∈ groups, group ≠ [])
    (h : List.Forall₂ (Reads shape) items (labelled (axis + 1) groups))
    {state : PlanState} (haxis : state.axis = axis)
    (helements : state.elements < 2 ^ 64) :
    (planSubAxes handle shape items state >>= close handle shape).toOption.map
      (fun state => (state.extents, state.elements, state.padded)) =
      (closeOne (shape.map UInt64.toNat) axis state.product).bind fun first =>
        (closeAll (shape.map UInt64.toNat) (axis + 1) groups).map fun past =>
          (state.extents ++ groups.flatten,
            state.elements * groups.flatten.prod % 2 ^ 64,
            state.padded || first || past) := by
  induction groups generalizing items axis state with
  | nil =>
      cases h
      simp only [planSubAxes, except_ok_bind, close_eq handle shape state haxis,
        closeAll, List.flatten_nil, List.append_nil, List.prod_nil,
        Nat.mul_one, Nat.mod_eq_of_lt helements, Option.map_some,
        Option.map_map, Function.comp_def, Bool.or_false]
      cases closeOne (shape.map UInt64.toNat) axis state.product <;> rfl
  | cons group groups ih =>
      rw [labelled] at h
      have hfront := List.forall₂_take_append _ _ _ h
      have hback := List.forall₂_drop_append _ _ _ h
      rw [← List.take_append_drop
        (group.map fun extent => (axis + 1, extent)).length items] at h ⊢
      generalize items.take _ = front at hfront h ⊢
      generalize items.drop _ = back at hback h ⊢
      obtain ⟨extent, extents, rfl⟩ :=
        List.exists_cons_of_ne_nil (hne group List.mem_cons_self)
      rw [List.map_cons] at hfront
      cases hfront with
      | @cons item _ others _ hitem hothers =>
          have hnext : item.1.axis = (axis + 1 : Nat) := hitem.1
          rw [List.cons_append, planSubAxes_opens _ (by omega)]
          have hclose := close_eq handle shape state haxis
          cases hone : closeOne (shape.map UInt64.toNat) axis state.product with
          | none =>
              rw [hone, Option.map_none] at hclose
              cases hstate : close handle shape state with
              | error refusal => rfl
              | ok closed => rw [hstate] at hclose; cases hclose
          | some past =>
              rw [hone, Option.map_some, toOption_eq_some] at hclose
              let opened : PlanState := { state with
                axis := item.1.axis
                product := 1
                padded := state.padded || past }
              have hwalk := @planSubAxes_group handle shape (item :: others)
                back (axis + 1) (extent :: extents) (.cons hitem hothers)
                opened hnext (Nat.one_lt_two_pow (by decide)) helements
              have htail := @ih back (axis + 1)
                (fun other hother => hne other (List.mem_cons_of_mem _ hother))
                hback { opened with
                  product := 1 * (extent :: extents).prod % 2 ^ 64
                  extents := state.extents ++ extent :: extents
                  elements :=
                    state.elements * (extent :: extents).prod % 2 ^ 64 }
                hnext (Nat.mod_lt _ (Nat.two_pow_pos 64))
              rw [hclose, except_ok_bind, ← List.cons_append, hwalk, htail]
              simp only [closeAll, Nat.one_mul, Option.bind_some,
                Option.map_bind, Option.map_map, Function.comp_def,
                List.flatten_cons, List.append_assoc, List.prod_append,
                Nat.mod_mul_mod, Nat.mul_assoc, Bool.or_assoc, opened]

theorem planSubAxes_all {handle : Handle} {shape : List UInt64}
    {items : List (SubAxis × ShapeExpr)} {groups : List (List Nat)}
    (hitems : items ≠ []) (hne : ∀ group ∈ groups, group ≠ [])
    (h : List.Forall₂ (Reads shape) items (labelled 0 groups)) :
    (planSubAxes handle shape items ⟨0, 1, [], 1, false⟩ >>=
        close handle shape).toOption.map
      (fun state => (state.extents, state.elements, state.padded)) =
      (closeAll (shape.map UInt64.toNat) 0 groups).map fun past =>
        (groups.flatten, groups.flatten.prod % 2 ^ 64, past) := by
  cases groups with
  | nil =>
      cases h
      exact absurd rfl hitems
  | cons group groups =>
      rw [labelled] at h
      have hfront := List.forall₂_take_append _ _ _ h
      have hback := List.forall₂_drop_append _ _ _ h
      rw [← List.take_append_drop
        (group.map fun extent => (0, extent)).length items]
      generalize items.take _ = front at hfront ⊢
      generalize items.drop _ = back at hback ⊢
      have hwalk := @planSubAxes_group handle shape front back 0 group hfront
        ⟨0, 1, [], 1, false⟩ rfl (Nat.one_lt_two_pow (by decide))
        (Nat.one_lt_two_pow (by decide))
      have htail := @planSubAxes_closes handle shape back 0 groups
        (fun other hother => hne other (List.mem_cons_of_mem _ hother)) hback
        ⟨0, 1 * group.prod % 2 ^ 64, [] ++ group, 1 * group.prod % 2 ^ 64,
          false⟩ rfl (Nat.mod_lt _ (Nat.two_pow_pos 64))
      rw [hwalk, htail]
      simp only [closeAll, Nat.one_mul, Option.map_bind, Option.map_map,
        Function.comp_def, List.flatten_cons, List.nil_append,
        List.prod_append, Nat.mod_mul_mod, Bool.false_or]

/-- A finished walk has read every factor. -/
theorem planSubAxes_reads {handle : Handle} {shape : List UInt64}
    {items : List (SubAxis × ShapeExpr)} {state result : PlanState}
    (h : planSubAxes handle shape items state = .ok result) :
    ∀ item ∈ items, ∃ extent, item.2.eval shape = .ok extent ∧
      extent ≠ 0 := by
  induction items generalizing state with
  | nil => simp
  | cons item items ih =>
      obtain ⟨sub, expression⟩ := item
      simp only [planSubAxes, except_bind_eq_ok] at h
      obtain ⟨opened, _, h⟩ := h
      split at h
      · cases h
      · rename_i extent heval
        simp only [except_bind_eq_ok, ensure_eq_ok] at h
        obtain ⟨_, hpositive, h⟩ := h
        intro other hother
        rcases List.mem_cons.mp hother with rfl | hother
        · exact ⟨extent, heval, hpositive⟩
        · exact ih h other hother

theorem storageOf_eq (handle : Handle) {extents : List Nat}
    {positions : List Nat}
    (h : ∀ position ∈ positions, position < extents.length) :
    storageOf handle extents (positions.map Int.ofNat) =
      .ok (positions.map fun position => extents.getD position 0) := by
  induction positions with
  | nil => rfl
  | cons position positions ih =>
      have hbound : 0 ≤ Int.ofNat position ∧
          Int.ofNat position < extents.length :=
        ⟨Int.natCast_nonneg position,
          Int.ofNat_lt.mpr (h position List.mem_cons_self)⟩
      rw [List.map_cons, storageOf, ensure_of hbound, except_ok_bind,
        ih fun other hother => h other (List.mem_cons_of_mem _ hother)]
      rfl

theorem validateAxes_ok {handle : Handle} {axis : Int} {covered : Nat}
    {subAxes : List SubAxis} {result : Nat × List ShapeExpr}
    (h : validateAxes handle axis covered subAxes = .ok result) :
    List.Forall₂ (fun sub expression =>
      parseShapeExpr sub.extent = .ok expression) subAxes result.2 := by
  induction subAxes generalizing axis covered result with
  | nil =>
      cases h
      exact .nil
  | cons sub subAxes ih =>
      simp only [validateAxes, except_bind_eq_ok] at h
      obtain ⟨_, _, h⟩ := h
      split at h
      · cases h
      · rename_i expression hparse
        simp only [except_bind_eq_ok] at h
        obtain ⟨found, hfound, h⟩ := h
        cases h
        exact .cons hparse (ih hfound)

theorem validate_ok {record validated : LayoutMorphism}
    (h : record.validate = .ok validated) (hne : record.subAxes ≠ []) :
    validated = { record with extents := validated.extents } ∧
      List.Forall₂ (fun sub expression =>
        parseShapeExpr sub.extent = .ok expression) record.subAxes
        validated.extents := by
  have hlength : ¬ record.subAxes.length = 0 := by simpa using hne
  simp only [validate, if_neg hlength, except_bind_eq_ok] at h
  obtain ⟨_, _, _, _, found, hfound, _, _, _, _, _, _, h⟩ := h
  cases h
  exact ⟨rfl, validateAxes_ok hfound⟩

theorem validate_identity {record validated : LayoutMorphism}
    (h : record.validate = .ok validated) (hnil : record.subAxes = []) :
    validated = record := by
  have hlength : record.subAxes.length = 0 := by simp [hnil]
  simp only [validate, if_pos hlength, except_bind_eq_ok] at h
  obtain ⟨_, _, _, _, h⟩ := h
  cases h
  rfl

end Go.LayoutMorphism

/-! The identity. -/

theorem closeAll_singles (front dims : List Nat)
    (hsmall : ∀ dim ∈ dims, dim < 2 ^ 64) :
    closeAll (front ++ dims) front.length (dims.map fun dim => [dim]) =
      some false := by
  induction dims generalizing front with
  | nil => rfl
  | cons dim dims ih =>
      have htail := ih (front ++ [dim]) fun other hother =>
        hsmall other (List.mem_cons_of_mem _ hother)
      rw [List.append_assoc, List.singleton_append, List.length_append,
        List.length_singleton] at htail
      have hdim : (front ++ dim :: dims).getD front.length 0 = dim := by
        simp
      rw [List.map_cons, closeAll, List.prod_singleton,
        Nat.mod_eq_of_lt (hsmall dim List.mem_cons_self), closeOne, hdim,
        if_pos ⟨by simp, Nat.le_refl dim⟩, Option.bind_some, htail]
      simp

theorem foldl_product (dims : List Nat) {start : Nat}
    (hstart : start < 2 ^ 64) :
    dims.foldl (fun product dim => product * dim % 2 ^ 64) start =
      start * dims.prod % 2 ^ 64 := by
  induction dims generalizing start with
  | nil => rw [List.foldl_nil, List.prod_nil, Nat.mul_one,
      Nat.mod_eq_of_lt hstart]
  | cons dim dims ih =>
      rw [List.foldl_cons, ih (Nat.mod_lt _ (Nat.two_pow_pos 64)),
        List.prod_cons, Nat.mod_mul_mod, Nat.mul_assoc]

theorem map_getD_range (extents : List Nat) :
    (List.range extents.length).map (fun position => extents.getD position 0) =
      extents := by
  refine List.ext_getElem (by simp) fun index hleft hright => ?_
  rw [List.getElem_map, List.getElem_range, List.getD_eq_getElem _ _ hright]

theorem identity_destination {record : LayoutMorphism} {shape : List UInt64}
    (hcheck : record.check = .ok ()) (hidentity : record.subAxes = [])
    (hne : shape ≠ []) (hzero : 0 ∉ shape) :
    (record.plan shape).toOption.map LayoutPlan.destination =
      some (shape.map UInt64.toNat, shape.map UInt64.toNat,
        (shape.map UInt64.toNat).prod % 2 ^ 64, false) := by
  have hflag : record.isIdentity = true := by
    simp [LayoutMorphism.isIdentity, hidentity]
  have hrank : ¬ (record.rank ≠ 0 ∧ shape.length ≠ record.rank) := by
    simp only [LayoutMorphism.check, except_bind_eq_ok, ensure_eq_ok, hflag,
      if_true] at hcheck
    obtain ⟨_, _, _, _, _, _, hrank⟩ := hcheck
    exact fun h => h.1 hrank
  have hfactors : record.factors shape =
      .ok (shape.zipIdx.map fun item => (item.2, item.1.toNat)) := by
    rw [LayoutMorphism.factors, if_pos hflag]
  obtain ⟨groups, hgroups⟩ := LayoutMorphism.factored hcheck hrank hzero
    hfactors
  have hsingles : groups = (shape.map UInt64.toNat).map fun dim => [dim] := by
    have hblocks :=
      @LayoutMorphism.blocks_labelled 0 groups hgroups.nonempty
    rw [← hgroups.labelled_eq, LayoutMorphism.labelled_identity shape 0,
      LayoutMorphism.blocks_labelled (by simp)] at hblocks
    have hgroup := congrArg (List.map Prod.snd) hblocks
    rw [LayoutMorphism.labels_snd, LayoutMorphism.labels_snd] at hgroup
    rw [← hgroup, List.map_map]
    rfl
  have hflatten : groups.flatten = shape.map UInt64.toNat := by
    rw [hsingles, ← List.flatMap_def, List.flatMap_singleton']
  have hlength : (shape.zipIdx.map fun item =>
      (item.2, item.1.toNat)).length = (shape.map UInt64.toNat).length := by
    simp
  have hsmall : ∀ dim ∈ shape.map UInt64.toNat, dim < 2 ^ 64 := by
    intro dim hdim
    obtain ⟨value, _, rfl⟩ := List.mem_map.mp hdim
    exact value.toNat_lt
  have hclose := closeAll_singles [] (shape.map UInt64.toNat) hsmall
  rw [List.nil_append, List.length_nil, ← hsingles] at hclose
  rw [plan_destination hrank hne hzero hfactors hgroups, hclose, hflatten,
    LayoutMorphism.storageOrder, if_pos hflag, hlength, map_getD_range]
  rfl

theorem Go.LayoutMorphism.identity_destination {record : Go.LayoutMorphism}
    {shape : List UInt64} (hidentity : record.subAxes = [])
    (hrank : record.rank = 0) :
    (record.plan shape).toOption.map Go.LayoutPlan.destination =
      some (shape.map UInt64.toNat, shape.map UInt64.toNat,
        (shape.map UInt64.toNat).prod % 2 ^ 64, false) := by
  have hany : ¬ (record.rank ≠ 0 ∧ (shape.length : Int) ≠ record.rank) :=
    fun h => h.1 hrank
  simp only [Go.LayoutMorphism.plan, hidentity, ensure_of hany,
    except_ok_bind, toOption_ok, Option.map_some, Go.LayoutPlan.destination,
    foldl_product _ (Nat.one_lt_two_pow (by decide)), Nat.one_mul]

/-! Both. -/

/-- The extents both sides read alike. -/
def FormulasAgree (subAxes : List SubAxis) (shape : List UInt64) : Prop :=
  ∀ sub ∈ subAxes, (Formula.eval sub.extent shape).toOption =
    (Go.parseShapeExpr sub.extent >>= fun expression =>
      expression.eval shape).toOption

theorem reads_of_factors {record : LayoutMorphism} {shape : List UInt64}
    {subAxes : List SubAxis} (hformulas : FormulasAgree subAxes shape)
    {factors : List (Nat × Nat)}
    (hfactors : List.Forall₂ (fun sub factor =>
      record.subAxisFactor shape sub = .ok factor) subAxes factors)
    {expressions : List Go.ShapeExpr}
    (hparsed : List.Forall₂ (fun sub expression =>
      Go.parseShapeExpr sub.extent = .ok expression)
      (Go.subAxesOf subAxes) expressions) :
    List.Forall₂ (Go.LayoutMorphism.Reads shape)
      ((Go.subAxesOf subAxes).zip expressions) factors := by
  induction hfactors generalizing expressions with
  | nil => exact .nil
  | @cons sub factor subAxes factors hfactor _ ih =>
      cases hparsed with
      | @cons _ expression _ expressions hparse hrest =>
          refine .cons ?_ (ih (fun other hother =>
            hformulas other (List.mem_cons_of_mem _ hother)) hrest)
          obtain ⟨haxis, hpositive⟩ := LayoutMorphism.subAxisFactor_ok hfactor
          have hsame := hformulas sub List.mem_cons_self
          rw [hparse, except_ok_bind] at hsame
          refine ⟨congrArg Nat.cast haxis.symm, ?_, hpositive⟩
          unfold LayoutMorphism.subAxisFactor at hfactor
          split at hfactor
          · cases hfactor
          · rename_i extent heval
            simp only [except_bind_eq_ok, ensure_eq_ok] at hfactor
            obtain ⟨_, _, hfactor⟩ := hfactor
            cases hfactor
            rw [heval, toOption_ok] at hsame
            exact toOption_eq_some.mp hsame.symm

theorem factors_of_reads {record : LayoutMorphism} {shape : List UInt64}
    {subAxes : List SubAxis} (hformulas : FormulasAgree subAxes shape)
    {expressions : List Go.ShapeExpr}
    (hparsed : List.Forall₂ (fun sub expression =>
      Go.parseShapeExpr sub.extent = .ok expression)
      (Go.subAxesOf subAxes) expressions)
    (hreads : ∀ item ∈ (Go.subAxesOf subAxes).zip expressions,
      ∃ extent, item.2.eval shape = .ok extent ∧ extent ≠ 0) :
    ∃ factors, subAxes.mapM (record.subAxisFactor shape) = .ok factors := by
  induction subAxes generalizing expressions with
  | nil => exact ⟨[], rfl⟩
  | cons sub subAxes ih =>
      cases hparsed with
      | @cons _ expression _ expressions hparse hrest =>
          obtain ⟨factors, hfactors⟩ := ih (fun other hother =>
            hformulas other (List.mem_cons_of_mem _ hother)) hrest
            fun item hitem => hreads item (List.mem_cons_of_mem _ hitem)
          obtain ⟨extent, heval, hpositive⟩ := hreads _ List.mem_cons_self
          have hsame := hformulas sub List.mem_cons_self
          rw [hparse, except_ok_bind, heval, toOption_ok,
            toOption_eq_some] at hsame
          have hfactor : record.subAxisFactor shape sub =
              .ok (sub.axis, extent) := by
            rw [LayoutMorphism.subAxisFactor, hsame]
            simp only [ensure_of hpositive, except_ok_bind]
          refine ⟨(sub.axis, extent) :: factors, ?_⟩
          rw [List.mapM_cons, hfactor, except_ok_bind, hfactors]
          rfl

theorem positions_lt {record : LayoutMorphism} (hcheck : record.check = .ok ())
    (hne : record.subAxes ≠ []) :
    ∀ position ∈ record.permutation, position < record.subAxes.length := by
  have hflag : ¬ record.isIdentity = true := by
    simpa [LayoutMorphism.isIdentity] using hne
  simp only [LayoutMorphism.check, except_bind_eq_ok, ensure_eq_ok,
    if_neg hflag] at hcheck
  obtain ⟨_, _, _, _, _, _, _, hlength, _, _, _, _, hpositions⟩ := hcheck
  rw [← hlength]
  exact fun position hposition =>
    ((LayoutMorphism.checkPositions_spec hpositions).1 position hposition).1

theorem checkAxes_head {record : LayoutMorphism} (hcheck : record.check = .ok ())
    {first : SubAxis} {rest : List SubAxis}
    (hsub : record.subAxes = first :: rest) : first.axis = 0 := by
  have hflag : ¬ record.isIdentity = true := by
    simp [LayoutMorphism.isIdentity, hsub]
  simp only [LayoutMorphism.check, except_bind_eq_ok, ensure_eq_ok,
    if_neg hflag, hsub, LayoutMorphism.checkAxes] at hcheck
  obtain ⟨_, _, _, _, _, _, _, _, _, ⟨_, hzero, _⟩, _⟩ := hcheck
  exact hzero

open Go.LayoutMorphism in
/-- The other side's plan of a record that factors its shape. -/
theorem plan_other {record : LayoutMorphism} {validated : Go.LayoutMorphism}
    {shape : List UInt64} (hcheck : record.check = .ok ())
    (hne : record.subAxes ≠ [])
    (hsub : validated.subAxes = Go.subAxesOf record.subAxes)
    (hrank : validated.rank = record.rank) :
    (validated.plan shape).toOption =
      if record.rank ≠ 0 ∧ shape.length ≠ record.rank then none
      else (planSubAxes validated.handle shape
          ((Go.subAxesOf record.subAxes).zip validated.extents)
          ⟨0, 1, [], 1, false⟩ >>= close validated.handle shape).toOption.bind
            fun state =>
              (validated.stored (shape.map UInt64.toNat) state).toOption := by
  obtain ⟨first, rest, hcons⟩ := List.exists_cons_of_ne_nil hne
  have hzero := checkAxes_head hcheck hcons
  have hother : validated.subAxes =
      ⟨first.axis, first.extent⟩ :: Go.subAxesOf rest := by
    rw [hsub, hcons]
    rfl
  have hguard : (validated.rank ≠ 0 ∧ (shape.length : Int) ≠ validated.rank) ↔
      (record.rank ≠ 0 ∧ shape.length ≠ record.rank) := by
    rw [hrank]
    omega
  rw [← hsub]
  simp only [Go.LayoutMorphism.plan, toOption_bind, toOption_ensure, hguard,
    hother, hzero, Nat.cast_zero]
  by_cases hbad : record.rank ≠ 0 ∧ shape.length ≠ record.rank
  · simp [hbad]
  · simp only [hbad, not_false_eq_true, if_true, if_false, Option.bind_some,
      Option.bind_assoc]

open Go.LayoutMorphism in
theorem destinations_agree {record : LayoutMorphism}
    {other validated : Go.LayoutMorphism} {shape : List UInt64}
    (hsame : SameRecord record other) (hcheck : record.check = .ok ())
    (hvalid : other.validate = .ok validated) (hne : shape ≠ [])
    (hzero : 0 ∉ shape) (hformulas : FormulasAgree record.subAxes shape) :
    (record.plan shape).toOption.map LayoutPlan.destination =
      (validated.plan shape).toOption.map Go.LayoutPlan.destination := by
  by_cases hidentity : record.subAxes = []
  · have hother : other.subAxes = [] := by
      rw [hsame.subAxes_eq, hidentity]
      rfl
    have hself := validate_identity hvalid hother
    subst hself
    have hrank : validated.rank = 0 := by
      have hlength : validated.subAxes.length = 0 := by simp [hother]
      simp only [validate, if_pos hlength,
        except_bind_eq_ok, ensure_eq_ok] at hvalid
      obtain ⟨_, _, _, hrank, _⟩ := hvalid
      exact hrank
    rw [TensorFS.identity_destination hcheck hidentity hne hzero,
      Go.LayoutMorphism.identity_destination hother hrank]
  have hother : other.subAxes ≠ [] := by
    rw [hsame.subAxes_eq]
    simpa [Go.subAxesOf] using hidentity
  obtain ⟨hself, hparsed⟩ := validate_ok hvalid hother
  have hsub : validated.subAxes = Go.subAxesOf record.subAxes := by
    rw [hself]
    exact hsame.subAxes_eq
  have hperm : validated.perm = record.permutation.map Int.ofNat := by
    rw [hself]
    exact hsame.perm_eq
  have hranks : validated.rank = record.rank := by
    rw [hself]
    exact hsame.rank_eq
  rw [hsame.subAxes_eq] at hparsed
  rw [plan_other hcheck hidentity hsub hranks]
  by_cases hrank : record.rank ≠ 0 ∧ shape.length ≠ record.rank
  · rw [if_pos hrank, LayoutMorphism.plan, ensure_of_not (by simpa using hrank)]
    rfl
  rw [if_neg hrank]
  have hflag : ¬ record.isIdentity = true := by
    simpa [LayoutMorphism.isIdentity] using hidentity
  have hfactorsOf : record.factors shape =
      record.subAxes.mapM (record.subAxisFactor shape) := by
    rw [LayoutMorphism.factors, if_neg hflag]
  cases hfactors : record.factors shape with
  | error refusal =>
      have hshape : ¬ (shape = [] ∨ 0 ∈ shape) := not_or.mpr ⟨hne, hzero⟩
      rw [LayoutMorphism.plan, ensure_of hrank, ensure_of hshape, hfactors]
      cases hwalk : planSubAxes validated.handle shape
          ((Go.subAxesOf record.subAxes).zip validated.extents)
          ⟨0, 1, [], 1, false⟩ with
      | error refusal => rfl
      | ok state =>
          obtain ⟨factors, hall⟩ := @factors_of_reads record _ _ hformulas _
            hparsed (planSubAxes_reads hwalk)
          rw [← hfactorsOf, hfactors] at hall
          cases hall
  | ok factors =>
      obtain ⟨groups, hgroups⟩ := LayoutMorphism.factored hcheck hrank hzero
        hfactors
      rw [plan_destination hrank hne hzero hfactors hgroups]
      rw [hfactorsOf] at hfactors
      have hpairs := mapM_except_eq_ok hfactors
      have hreads := reads_of_factors hformulas hpairs hparsed
      rw [hgroups.labelled_eq] at hreads
      have hitems : (Go.subAxesOf record.subAxes).zip validated.extents ≠
          [] := by
        intro hnil
        rw [hnil, List.forall₂_nil_left_iff, ← hgroups.labelled_eq] at hreads
        rw [hreads, List.forall₂_nil_right_iff] at hpairs
        exact hidentity hpairs
      have hwalk := @planSubAxes_all validated.handle _ _ _ hitems
        hgroups.nonempty hreads
      have hextents : factors.length = groups.flatten.length := by
        rw [← labelled_snd 0 groups, ← hgroups.labelled_eq, List.length_map]
      cases hstate : planSubAxes validated.handle shape
          ((Go.subAxesOf record.subAxes).zip validated.extents)
          ⟨0, 1, [], 1, false⟩ >>= close validated.handle shape with
      | error refusal =>
          rw [hstate, toOption_error, Option.map_none, eq_comm,
            Option.map_eq_none_iff] at hwalk
          rw [hwalk]
          rfl
      | ok state =>
          rw [hstate, toOption_ok, Option.map_some, eq_comm,
            Option.map_eq_some_iff] at hwalk
          obtain ⟨past, hpast, hview⟩ := hwalk
          simp only [Prod.mk.injEq] at hview
          obtain ⟨hflatten, helements, hpadded⟩ := hview
          have hbound : ∀ position ∈ record.permutation,
              position < state.extents.length := by
            rw [← hflatten, ← hextents, ← hpairs.length_eq]
            exact positions_lt hcheck hidentity
          simp only [hpast, Option.map_some, toOption_ok, Option.bind_some,
            stored, hperm, storageOf_eq _ hbound, except_ok_bind,
            Go.LayoutPlan.destination, LayoutMorphism.storageOrder,
            if_neg hflag, ← helements, hflatten, hpadded]

/-- A record both sides take is planned alike for every shape that has
dimensions, none of them zero, and whose formulas both sides read alike: the
same shapes are accepted, with the same extents in both orders, element count
and padding. -/
theorem plans_agree {record : LayoutMorphism}
    {other validated : Go.LayoutMorphism} {shape : List UInt64}
    (hsame : SameRecord record other) (hcheck : record.check = .ok ())
    (hvalid : other.validate = .ok validated) (hne : shape ≠ [])
    (hzero : 0 ∉ shape) (hformulas : FormulasAgree record.subAxes shape) :
    ((∃ plan, record.plan shape = .ok plan) ↔
      ∃ plan, validated.plan shape = .ok plan) ∧
    ∀ plan found, record.plan shape = .ok plan →
      validated.plan shape = .ok found →
      plan.extents = found.extents ∧ plan.storageExtents = found.storage ∧
        plan.destElements = found.elements ∧ plan.padded = found.padded := by
  have hagree := destinations_agree hsame hcheck hvalid hne hzero hformulas
  constructor
  · constructor
    · rintro ⟨plan, hplan⟩
      rw [hplan, toOption_ok, Option.map_some, eq_comm,
        Option.map_eq_some_iff] at hagree
      obtain ⟨found, hfound, _⟩ := hagree
      exact ⟨found, toOption_eq_some.mp hfound⟩
    · rintro ⟨found, hfound⟩
      rw [hfound, toOption_ok, Option.map_some, Option.map_eq_some_iff] at hagree
      obtain ⟨plan, hplan, _⟩ := hagree
      exact ⟨plan, toOption_eq_some.mp hplan⟩
  · intro plan found hplan hfound
    rw [hplan, hfound, toOption_ok, toOption_ok, Option.map_some,
      Option.map_some, Option.some.injEq, LayoutPlan.destination,
      Go.LayoutPlan.destination] at hagree
    simpa only [Prod.mk.injEq] using hagree

/-! A catalogued record: 128 by 4 tiles, both axes rounded up. -/

namespace BlockScale

def subAxes : List SubAxis :=
  [⟨0, "ceil(d0/128)".toList⟩, ⟨0, "4".toList⟩, ⟨0, "32".toList⟩,
    ⟨1, "ceil(d1/4)".toList⟩, ⟨1, "4".toList⟩]

def record : LayoutMorphism where
  format := layoutMorphismFormat
  name := "cublas.blockscale-128x4".toList
  version := 1
  rank := 2
  subAxes := subAxes
  permutation := [0, 3, 2, 1, 4]
  provenance := ["to_blocked_scales".toList]

def other : Go.LayoutMorphism where
  handle := ⟨"cublas.blockscale-128x4".toList, 1⟩
  layoutClass := "endpoint-declared".toList
  rank := 2
  subAxes := Go.subAxesOf subAxes
  extents := []
  perm := [0, 3, 2, 1, 4]
  candidate := false

def ceiling (axis block : Nat) (text : String) : List Go.ShapeTerm :=
  [.ceiling false text.toList [.axis false axis, .literal true block]]

def validated : Go.LayoutMorphism :=
  { other with extents :=
      [⟨"ceil(d0/128)".toList, ceiling 0 128 "d0/128"⟩,
        ⟨"4".toList, [.literal false 4]⟩, ⟨"32".toList, [.literal false 32]⟩,
        ⟨"ceil(d1/4)".toList, ceiling 1 4 "d1/4"⟩,
        ⟨"4".toList, [.literal false 4]⟩] }

end BlockScale

theorem plans_agree_blockScale :
    ((∃ plan, BlockScale.record.plan [130, 6] = .ok plan) ↔
      ∃ plan, BlockScale.validated.plan [130, 6] = .ok plan) ∧
    ∀ plan found, BlockScale.record.plan [130, 6] = .ok plan →
      BlockScale.validated.plan [130, 6] = .ok found →
      plan.extents = found.extents ∧ plan.storageExtents = found.storage ∧
        plan.destElements = found.elements ∧ plan.padded = found.padded :=
  @plans_agree BlockScale.record BlockScale.other BlockScale.validated
    [130, 6] ⟨rfl, rfl, rfl, rfl, rfl⟩ (by decide +kernel) (by rfl) (by decide) (by decide)
    (by unfold FormulasAgree; decide +kernel)

/-! The identity. -/

namespace Contiguous

def record : LayoutMorphism where
  format := layoutMorphismFormat
  name := "torch.contiguous".toList
  version := 1
  rank := 0
  subAxes := []
  permutation := []
  provenance := ["row-major".toList]

def other : Go.LayoutMorphism where
  handle := Go.defaultLayout
  layoutClass := "inductor".toList
  rank := 0
  subAxes := []
  extents := []
  perm := []
  candidate := false

end Contiguous

/-- The identity arranges a tensor of no axes on one side alone. -/
theorem identity_of_scalar :
    SameRecord Contiguous.record Contiguous.other ∧
      Contiguous.record.check = .ok () ∧
      Contiguous.other.validate = .ok Contiguous.other ∧
      FormulasAgree Contiguous.record.subAxes [] ∧
      Contiguous.record.plan [] =
        .error (.record "torch.contiguous@1".toList (.unusableShape [])) ∧
      Contiguous.other.plan [] = .ok ⟨[], [], [], 1, false⟩ :=
  ⟨⟨rfl, rfl, rfl, rfl, rfl⟩, by decide +kernel, by rfl,
    by simp [FormulasAgree, Contiguous.record], by rfl, by rfl⟩

end TensorFS
