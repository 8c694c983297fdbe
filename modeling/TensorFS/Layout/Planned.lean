import TensorFS.Layout.Faithful

namespace TensorFS

open Data Radix

/-! What an accepted plan holds. -/

/-- Sub-axes labelled with consecutive axes. -/
def labelled : Nat → List (List Nat) → List (Nat × Nat)
  | _, [] => []
  | axis, group :: groups =>
      group.map (fun extent => (axis, extent)) ++ labelled (axis + 1) groups

theorem labelled_fst (axis : Nat) (groups : List (List Nat)) :
    (labelled axis groups).map Prod.fst = axesOf axis groups := by
  induction groups generalizing axis with
  | nil => rfl
  | cons group groups ih =>
      rw [labelled, List.map_append, ih, List.map_map, axesOf]
      congr 1
      exact List.map_const'

theorem labelled_snd (axis : Nat) (groups : List (List Nat)) :
    (labelled axis groups).map Prod.snd = groups.flatten := by
  induction groups generalizing axis with
  | nil => rfl
  | cons group groups ih =>
      rw [labelled, List.map_append, ih, List.map_map, List.flatten_cons]
      congr 1
      exact List.map_id' group

namespace LayoutMorphism

/-- The groups with their axes. -/
def labels : Nat → List (List Nat) → List (Nat × List Nat)
  | _, [] => []
  | axis, group :: groups => (axis, group) :: labels (axis + 1) groups

theorem labels_snd (axis : Nat) (groups : List (List Nat)) :
    (labels axis groups).map Prod.snd = groups := by
  induction groups generalizing axis with
  | nil => rfl
  | cons group groups ih => rw [labels, List.map_cons, ih]

theorem blocks_group {axis : Nat} {group : List Nat}
    {rest : List (Nat × Nat)} (hne : group ≠ [])
    (hhead : ∀ block ∈ (blocks rest).head?, block.1 ≠ axis) :
    blocks (group.map (fun extent => (axis, extent)) ++ rest) =
      (axis, group) :: blocks rest := by
  induction group with
  | nil => exact absurd rfl hne
  | cons extent group ih =>
      rw [List.map_cons, List.cons_append, blocks]
      cases group with
      | nil =>
          rw [List.map_nil, List.nil_append]
          cases hblocks : blocks rest with
          | nil => rfl
          | cons block others =>
              have hother := hhead block (by simp [hblocks])
              exact if_neg hother
      | cons next group =>
          rw [ih (by simp)]
          exact if_pos rfl

theorem blocks_labelled {axis : Nat} {groups : List (List Nat)}
    (hne : ∀ group ∈ groups, group ≠ []) :
    blocks (labelled axis groups) = labels axis groups := by
  induction groups generalizing axis with
  | nil => rfl
  | cons group groups ih =>
      have htail := @ih (axis + 1) fun other hother =>
        hne other (List.mem_cons_of_mem _ hother)
      rw [labelled, blocks_group (hne group List.mem_cons_self), htail, labels]
      rw [htail]
      cases groups with
      | nil => simp [labels]
      | cons other groups => simp [labels]

/-! The grouping `check` establishes. -/

theorem checkAxes_some {handle : Text} {axis covered total : Nat}
    {subAxes : List SubAxis} {factors : List (Nat × Nat)}
    (hlabels : factors.map Prod.fst = subAxes.map SubAxis.axis)
    (h : checkAxes handle (some axis) covered subAxes = .ok total) :
    ∃ (tail : List Nat) (groups : List (List Nat)),
      factors = tail.map (fun extent => (axis, extent)) ++
        labelled (axis + 1) groups ∧
      total = covered + groups.length ∧ ∀ group ∈ groups, group ≠ [] := by
  induction subAxes generalizing axis covered factors with
  | nil =>
      rw [List.map_nil, List.map_eq_nil_iff] at hlabels
      cases h
      exact ⟨[], [], by rw [hlabels]; rfl, rfl, by simp⟩
  | cons sub subAxes ih =>
      cases factors with
      | nil => simp at hlabels
      | cons factor factors =>
          obtain ⟨label, extent⟩ := factor
          simp only [List.map_cons, List.cons.injEq] at hlabels
          obtain ⟨rfl, hlabels⟩ := hlabels
          unfold checkAxes at h
          split at h
          · rename_i hnext
            obtain ⟨tail, groups, rfl, rfl, hne⟩ := ih hlabels h
            refine ⟨[], (extent :: tail) :: groups, ?_, ?_, ?_⟩
            · rw [hnext]
              rfl
            · rw [List.length_cons]
              omega
            · intro group hgroup
              rcases List.mem_cons.mp hgroup with rfl | hgroup
              · simp
              · exact hne group hgroup
          · simp only [except_bind_eq_ok, ensure_eq_ok] at h
            obtain ⟨_, hsame, h⟩ := h
            obtain ⟨tail, groups, rfl, rfl, hne⟩ := ih hlabels h
            refine ⟨extent :: tail, groups, ?_, rfl, hne⟩
            rw [hsame]
            rfl

theorem checkAxes_groups {handle : Text} {total : Nat}
    {subAxes : List SubAxis} {factors : List (Nat × Nat)}
    (hlabels : factors.map Prod.fst = subAxes.map SubAxis.axis)
    (hne : subAxes ≠ [])
    (h : checkAxes handle none 0 subAxes = .ok total) :
    ∃ groups, factors = labelled 0 groups ∧ total = groups.length ∧
      ∀ group ∈ groups, group ≠ [] := by
  cases subAxes with
  | nil => exact absurd rfl hne
  | cons sub subAxes =>
      cases factors with
      | nil => simp at hlabels
      | cons factor factors =>
          obtain ⟨label, extent⟩ := factor
          simp only [List.map_cons, List.cons.injEq] at hlabels
          obtain ⟨rfl, hlabels⟩ := hlabels
          simp only [checkAxes, except_bind_eq_ok, ensure_eq_ok] at h
          obtain ⟨_, hzero, h⟩ := h
          rw [hzero] at h
          obtain ⟨tail, groups, rfl, rfl, hgroups⟩ :=
            checkAxes_some hlabels h
          refine ⟨(extent :: tail) :: groups, ?_, ?_, ?_⟩
          · rw [hzero]
            rfl
          · rw [List.length_cons]
            omega
          · intro group hgroup
            rcases List.mem_cons.mp hgroup with rfl | hgroup
            · simp
            · exact hgroups group hgroup

theorem checkPositions_spec {handle : Text} {count : Nat}
    {seen positions : List Nat}
    (h : checkPositions handle count seen positions = .ok ()) :
    (∀ position ∈ positions, position < count ∧ position ∉ seen) ∧
      positions.Nodup := by
  induction positions generalizing seen with
  | nil => simp
  | cons position positions ih =>
      simp only [checkPositions, except_bind_eq_ok, ensure_eq_ok] at h
      obtain ⟨_, hlt, _, hfresh, h⟩ := h
      obtain ⟨hrest, hnodup⟩ := ih h
      refine ⟨?_, List.nodup_cons.mpr ⟨fun hmem => ?_, hnodup⟩⟩
      · intro other hother
        rcases List.mem_cons.mp hother with rfl | hother
        · exact ⟨hlt, hfresh⟩
        · exact ⟨(hrest other hother).1, fun hseen =>
            (hrest other hother).2 (List.mem_cons_of_mem _ hseen)⟩
      · exact (hrest position hmem).2 List.mem_cons_self

theorem isOrder_of_checkPositions {handle : Text} {positions : List Nat}
    (h : checkPositions handle positions.length [] positions = .ok ()) :
    IsOrder positions := by
  obtain ⟨hlt, hnodup⟩ := checkPositions_spec h
  have hsubset : positions ⊆ List.range positions.length :=
    fun position hposition => List.mem_range.mpr (hlt position hposition).1
  exact (List.subperm_of_subset hnodup hsubset).perm_of_length_le (by simp)

theorem subAxisFactor_ok {record : LayoutMorphism} {shape : List UInt64}
    {sub : SubAxis} {factor : Nat × Nat}
    (h : record.subAxisFactor shape sub = .ok factor) :
    factor.1 = sub.axis ∧ factor.2 ≠ 0 := by
  unfold subAxisFactor at h
  split at h
  · cases h
  · simp only [except_bind_eq_ok, ensure_eq_ok] at h
    obtain ⟨_, hpos, h⟩ := h
    cases h
    exact ⟨rfl, hpos⟩

theorem factors_labels {record : LayoutMorphism} {shape : List UInt64}
    {subAxes : List SubAxis} {factors : List (Nat × Nat)}
    (h : List.Forall₂ (fun sub factor =>
      record.subAxisFactor shape sub = .ok factor) subAxes factors) :
    factors.map Prod.fst = subAxes.map SubAxis.axis := by
  induction h with
  | nil => rfl
  | cons hpair _ ih =>
      rw [List.map_cons, List.map_cons, ih, (subAxisFactor_ok hpair).1]

/-- The storage order of a record with this many sub-axes. -/
def storageOrder (record : LayoutMorphism) (count : Nat) : List Nat :=
  if record.isIdentity = true then List.range count else record.permutation

/-- What `check` and the formulas establish about a record at a shape. -/
structure Factored (record : LayoutMorphism) (shape : List UInt64)
    (factors : List (Nat × Nat)) (groups : List (List Nat)) : Prop where
  labelled_eq : factors = labelled 0 groups
  nonempty : ∀ group ∈ groups, group ≠ []
  positive : ∀ extent ∈ groups.flatten, 0 < extent
  rank_eq : groups.length = shape.length
  order : IsOrder (record.storageOrder factors.length)
  order_length : (record.storageOrder factors.length).length = factors.length

theorem labelled_identity (shape : List UInt64) (axis : Nat) :
    (shape.zipIdx axis).map (fun item => (item.2, item.1.toNat)) =
      labelled axis (shape.map fun dim => [dim.toNat]) := by
  induction shape generalizing axis with
  | nil => rfl
  | cons dim shape ih =>
      rw [List.zipIdx_cons, List.map_cons, ih]
      rfl

theorem factored {record : LayoutMorphism} {shape : List UInt64}
    {factors : List (Nat × Nat)} (hcheck : record.check = .ok ())
    (hrank : ¬ (record.rank ≠ 0 ∧ shape.length ≠ record.rank))
    (hshape : 0 ∉ shape) (hfactors : record.factors shape = .ok factors) :
    ∃ groups, record.Factored shape factors groups := by
  simp only [check, except_bind_eq_ok, ensure_eq_ok] at hcheck
  obtain ⟨_, _, _, _, hcheck⟩ := hcheck
  unfold LayoutMorphism.factors at hfactors
  by_cases hidentity : record.isIdentity = true
  · rw [if_pos hidentity] at hfactors
    cases hfactors
    have hlength : (shape.zipIdx.map fun item =>
        (item.2, item.1.toNat)).length = shape.length := by simp
    refine ⟨shape.map fun dim => [dim.toNat], labelled_identity shape 0, ?_,
      ?_, by simp, ?_, ?_⟩
    · intro group hgroup
      obtain ⟨dim, _, rfl⟩ := List.mem_map.mp hgroup
      simp
    · intro extent hextent
      rw [List.mem_flatten] at hextent
      obtain ⟨group, hgroup, hextent⟩ := hextent
      obtain ⟨dim, hdim, rfl⟩ := List.mem_map.mp hgroup
      rw [List.mem_singleton] at hextent
      rw [hextent, Nat.pos_iff_ne_zero]
      intro hzero
      exact hshape ((UInt64.toNat_inj.mp hzero : dim = 0) ▸ hdim)
    · rw [storageOrder, if_pos hidentity, IsOrder, List.length_range]
    · rw [storageOrder, if_pos hidentity, List.length_range]
  · rw [if_neg hidentity] at hfactors hcheck
    simp only [except_bind_eq_ok, ensure_eq_ok] at hcheck
    obtain ⟨_, hnonzero, _, hcount, covered, hcovered, _, rfl, hpositions⟩ :=
      hcheck
    have hpairs := mapM_except_eq_ok hfactors
    have hlabels := factors_labels hpairs
    have hne : record.subAxes ≠ [] := fun hnil =>
      hidentity (by simp [isIdentity, hnil])
    obtain ⟨groups, hgroups, hrankgroups, hnonempty⟩ :=
      checkAxes_groups hlabels hne hcovered
    have hlength : record.permutation.length = factors.length := by
      rw [hcount, hpairs.length_eq]
    refine ⟨groups, hgroups, hnonempty, ?_, ?_, ?_, ?_⟩
    · intro extent hextent
      rw [← labelled_snd 0, ← hgroups] at hextent
      obtain ⟨factor, hfactor, rfl⟩ := List.mem_map.mp hextent
      obtain ⟨index, hindex, rfl⟩ := List.mem_iff_getElem.mp hfactor
      have hat := (List.forall₂_iff_get.mp hpairs).2 index
        (by rw [hpairs.length_eq]; exact hindex) hindex
      exact Nat.pos_of_ne_zero (subAxisFactor_ok hat).2
    · by_contra hne'
      exact hrank ⟨hnonzero, fun heq => hne' (by rw [← hrankgroups, heq])⟩
    · rw [storageOrder, if_neg hidentity]
      exact isOrder_of_checkPositions hpositions
    · rw [storageOrder, if_neg hidentity, hlength]

/-! Machine products that do not wrap. -/

theorem suffixProducts_eq {extents : List Nat}
    (hpositive : ∀ extent ∈ extents, 0 < extent)
    (hsmall : extents.prod < 2 ^ 64) :
    suffixProducts extents = (weights extents, extents.prod) := by
  induction extents with
  | nil => rfl
  | cons extent extents ih =>
      have hrest : ∀ other ∈ extents, 0 < other := fun other hother =>
        hpositive other (List.mem_cons_of_mem _ hother)
      rw [List.prod_cons] at hsmall
      have hle : extents.prod ≤ extent * extents.prod :=
        Nat.le_mul_of_pos_left _ (hpositive extent List.mem_cons_self)
      rw [suffixProducts, ih hrest (lt_of_le_of_lt hle hsmall), weights,
        List.prod_cons, Nat.mul_comm extents.prod, Nat.mod_eq_of_lt hsmall]

theorem saturatingProduct_eq {dims : List Nat}
    (hpositive : ∀ dim ∈ dims, 0 < dim) (hsmall : dims.prod < 2 ^ 64) :
    saturatingProduct dims = dims.prod := by
  have hfold : ∀ start, 0 < start → start * dims.prod < 2 ^ 64 →
      dims.foldl (fun product dim => min (product * dim) (2 ^ 64 - 1)) start =
        start * dims.prod := by
    clear hsmall
    induction dims with
    | nil => simp
    | cons dim dims ih =>
        intro start hstart hsmall
        have hrest : ∀ other ∈ dims, 0 < other := fun other hother =>
          hpositive other (List.mem_cons_of_mem _ hother)
        have hdim := hpositive dim List.mem_cons_self
        rw [List.prod_cons, ← Nat.mul_assoc] at hsmall ⊢
        have hle : start * dim ≤ start * dim * dims.prod :=
          Nat.le_mul_of_pos_right _ (List.prod_pos hrest)
        rw [List.foldl_cons, Nat.min_eq_left (by omega)]
        exact ih hrest _ (Nat.mul_pos hstart hdim) hsmall
  rw [saturatingProduct, hfold 1 Nat.one_pos (by rwa [Nat.one_mul]),
    Nat.one_mul]

theorem measure_spec {handle : Text} {want axis : Nat} {dims : List Nat}
    {padded : List Bool} {groups : List (List Nat)}
    {result : List Nat × List Bool} (hlength : padded.length = dims.length)
    (h : measure handle want dims padded (labels axis groups) = .ok result) :
    result.1 = groups.flatMap (fun group => (suffixProducts group).1) ∧
      (∀ index < groups.length, axis + index < dims.length ∧
        dims.getD (axis + index) 0 ≤
          (suffixProducts (groups.getD index [])).2) ∧
      ∀ other, result.2.getD other false = true ↔
        padded.getD other false = true ∨
          ∃ index < groups.length, other = axis + index ∧
            dims.getD other 0 < (suffixProducts (groups.getD index [])).2 := by
  induction groups generalizing axis padded result with
  | nil =>
      cases h
      simp
  | cons group groups ih =>
      simp only [labels, measure, except_bind_eq_ok, ensure_eq_ok] at h
      obtain ⟨_, hinside, _, hle, found, hfound, h⟩ := h
      cases h
      have hset : (if dims.getD axis 0 < (suffixProducts group).2 then
          padded.set axis true else padded).length = dims.length := by
        split
        · rw [List.length_set, hlength]
        · exact hlength
      obtain ⟨hwithin, hfits, hflags⟩ := ih hset hfound
      refine ⟨by rw [hwithin, List.flatMap_cons], ?_, ?_⟩
      · intro index hindex
        cases index with
        | zero => exact ⟨hinside, hle⟩
        | succ index =>
            have hat := hfits index (by simpa using hindex)
            rw [show axis + (index + 1) = axis + 1 + index by omega]
            exact hat
      · intro other
        rw [hflags other]
        have hhead : (if dims.getD axis 0 < (suffixProducts group).2 then
            padded.set axis true else padded).getD other false = true ↔
              padded.getD other false = true ∨
                (other = axis ∧
                  dims.getD other 0 < (suffixProducts group).2) := by
          by_cases hover : dims.getD axis 0 < (suffixProducts group).2
          · rw [if_pos hover, List.getD_eq_getElem?_getD, List.getElem?_set]
            by_cases heq : axis = other
            · subst heq
              rw [if_pos rfl, if_pos (by omega)]
              exact iff_of_true rfl (.inr ⟨rfl, hover⟩)
            · rw [if_neg heq, ← List.getD_eq_getElem?_getD]
              simp [Ne.symm heq]
          · rw [if_neg hover]
            constructor
            · exact .inl
            · rintro (hold | ⟨rfl, hlt⟩)
              · exact hold
              · exact absurd hlt hover
        rw [hhead, or_assoc]
        refine or_congr_right ?_
        constructor
        · rintro (⟨rfl, hlt⟩ | ⟨index, hindex, rfl, hlt⟩)
          · exact ⟨0, by simp, rfl, hlt⟩
          · exact ⟨index + 1, by simpa using hindex, by omega, hlt⟩
        · rintro ⟨index, hindex, rfl, hlt⟩
          cases index with
          | zero => exact .inl ⟨rfl, hlt⟩
          | succ index =>
              exact .inr ⟨index, by simpa using hindex, by omega, hlt⟩

theorem weights_le {group : List Nat}
    (hpositive : ∀ extent ∈ group, 0 < extent) (position : Nat) :
    (weights group).getD position 0 ≤ group.prod := by
  induction group generalizing position with
  | nil => simp [weights]
  | cons extent group ih =>
      have hextent := hpositive extent List.mem_cons_self
      have hle : group.prod ≤ extent * group.prod :=
        Nat.le_mul_of_pos_left _ hextent
      rw [weights, List.prod_cons]
      cases position with
      | zero => exact hle
      | succ position =>
          exact (ih (fun other hother =>
            hpositive other (List.mem_cons_of_mem _ hother)) position).trans hle

/-- A stride stays within the destination. -/
theorem stride_le {dims : List Nat} {groups : List (List Nat)}
    (hpositive : ∀ extent ∈ groups.flatten, 0 < extent)
    (hfits : List.Forall₂ (· ≤ ·) dims (groups.map List.prod))
    {start position : Nat} (hposition : position < groups.flatten.length) :
    (groups.flatMap weights).getD position 0 *
        (weights dims).getD ((axesOf start groups).getD position 0 - start) 0 ≤
      groups.flatten.prod := by
  induction groups generalizing dims start position with
  | nil => simp at hposition
  | cons group groups ih =>
      cases hfits with
      | @cons dim _ dims _ hle hrest =>
          have hgroup : ∀ extent ∈ group, 0 < extent := fun extent hextent =>
            hpositive extent (List.mem_append_left _ hextent)
          have hothers : ∀ extent ∈ groups.flatten, 0 < extent :=
            fun extent hextent =>
              hpositive extent (List.mem_append_right _ hextent)
          have hprod : dims.prod ≤ groups.flatten.prod := by
            rw [List.prod_flatten]
            exact List.Forall₂.prod_le_prod' hrest
          rw [List.flatMap_cons, axesOf, List.flatten_cons, List.prod_append]
          by_cases hfront : position < group.length
          · rw [List.getD_append _ _ _ _ (by simpa),
              List.getD_append _ _ _ _ (by simpa), List.getD_replicate _ hfront,
              Nat.sub_self, weights, List.getD_cons_zero]
            exact Nat.mul_le_mul (weights_le hgroup position) hprod
          · have hback : position - group.length < groups.flatten.length := by
              rw [List.flatten_cons, List.length_append] at hposition
              omega
            have hlabel : start + 1 ≤ (axesOf (start + 1) groups).getD
                (position - group.length) 0 := by
              rw [List.getD_eq_getElem _ _ (by rwa [length_axesOf])]
              exact le_of_mem_axesOf (List.getElem_mem _)
            have htail := @ih _ hothers hrest (start + 1) _ hback
            rw [List.getD_append_right _ _ _ _ (by simpa using hfront),
              List.getD_append_right _ _ _ _ (by simpa using hfront),
              length_weights, List.length_replicate, weights]
            generalize (axesOf (start + 1) groups).getD
              (position - group.length) 0 = label at hlabel htail ⊢
            obtain ⟨index, rfl⟩ : ∃ index, label = start + 1 + index :=
              ⟨label - (start + 1), by omega⟩
            rw [show start + 1 + index - start = index + 1 by omega,
              List.getD_cons_succ]
            rw [show start + 1 + index - (start + 1) = index by omega] at htail
            exact htail.trans
              (Nat.le_mul_of_pos_left _ (List.prod_pos hgroup))

/-- The steps of a successful plan. -/
theorem plan_ok {record : LayoutMorphism} {shape : List UInt64}
    {plan : LayoutPlan} (h : record.plan shape = .ok plan) :
    ∃ factors measured, record.factors shape = .ok factors ∧
      measure record.handle record.rank (shape.map UInt64.toNat)
        (List.replicate (shape.map UInt64.toNat).length false)
        (blocks factors) = .ok measured ∧
      ¬ (record.rank ≠ 0 ∧ shape.length ≠ record.rank) ∧ 0 ∉ shape ∧
      plan = {
        handle := record.handle
        shape := shape.map UInt64.toNat
        axes := factors.map Prod.fst
        extents := factors.map Prod.snd
        within := measured.1
        permutation := record.storageOrder factors.length
        logicalStride := (suffixProducts (shape.map UInt64.toNat)).1
        srcStride := List.zipWith (fun multiplier axis =>
          multiplier * (suffixProducts (shape.map UInt64.toNat)).1.getD axis 0 %
            2 ^ 64) measured.1 (factors.map Prod.fst)
        paddedAxis := measured.2
        sourceElements := saturatingProduct (shape.map UInt64.toNat)
        destElements := (factors.map Prod.snd).prod % 2 ^ 64
        padded := measured.2.any id } := by
  simp only [LayoutMorphism.plan, except_bind_eq_ok, ensure_eq_ok] at h
  obtain ⟨_, hrank, _, hshape, factors, hfactors, measured, hmeasure, h⟩ := h
  cases h
  exact ⟨factors, measured, hfactors, hmeasure, hrank,
    fun hmem => hshape (.inr hmem), rfl⟩

theorem getD_zipWith {xs ys : List Nat} {f : Nat → Nat → Nat} {index : Nat}
    (hxs : index < xs.length) (hys : index < ys.length) :
    (List.zipWith f xs ys).getD index 0 = f (xs.getD index 0) (ys.getD index 0)
    := by
  rw [List.getD_eq_getElem _ _ (by simp [hxs, hys]), List.getElem_zipWith,
    List.getD_eq_getElem _ _ hxs, List.getD_eq_getElem _ _ hys]

theorem flatMap_suffixProducts {groups : List (List Nat)}
    (hpositive : ∀ extent ∈ groups.flatten, 0 < extent)
    (hsmall : groups.flatten.prod < 2 ^ 64) :
    ∀ group ∈ groups, suffixProducts group = (weights group, group.prod) := by
  intro group hgroup
  have hsizes : ∀ size ∈ groups.map List.prod, 1 ≤ size := by
    intro size hsize
    obtain ⟨other, hother, rfl⟩ := List.mem_map.mp hsize
    exact List.prod_pos fun extent hextent =>
      hpositive extent (List.mem_flatten.mpr ⟨other, hother, hextent⟩)
  have hle : group.prod ≤ groups.flatten.prod := by
    rw [List.prod_flatten]
    exact List.single_le_prod hsizes _ (List.mem_map_of_mem hgroup)
  exact suffixProducts_eq (fun extent hextent =>
    hpositive extent (List.mem_flatten.mpr ⟨group, hgroup, hextent⟩))
    (lt_of_le_of_lt hle hsmall)

theorem plan_built {record : LayoutMorphism} {shape : List UInt64}
    {plan : LayoutPlan} {factors : List (Nat × Nat)}
    (hcheck : record.check = .ok ()) (hplan : record.plan shape = .ok plan)
    (hfactors : record.factors shape = .ok factors)
    (hsmall : (factors.map Prod.snd).prod < 2 ^ 64) :
    ∃ groups, record.Factored shape factors groups ∧ plan.Built groups ∧
      plan.sourceElements = plan.shape.prod ∧
      plan.padded = plan.paddedAxis.any id := by
  obtain ⟨found, measured, hfound, hmeasure, hrank, hshape, rfl⟩ :=
    plan_ok hplan
  rw [hfactors, Except.ok.injEq] at hfound
  subst hfound
  obtain ⟨groups, hgroups⟩ := factored hcheck hrank hshape hfactors
  refine ⟨groups, hgroups, ?_⟩
  have hextents : factors.map Prod.snd = groups.flatten := by
    rw [hgroups.labelled_eq, labelled_snd]
  have haxes : factors.map Prod.fst = axesOf 0 groups := by
    rw [hgroups.labelled_eq, labelled_fst]
  rw [hextents] at hsmall
  have hsuffix := flatMap_suffixProducts hgroups.positive hsmall
  have hblocks : blocks factors = labels 0 groups := by
    rw [hgroups.labelled_eq, blocks_labelled hgroups.nonempty]
  rw [hblocks] at hmeasure
  obtain ⟨hwithin, hle, hflags⟩ := measure_spec (by simp) hmeasure
  have hwithin : measured.1 = groups.flatMap weights := by
    rw [hwithin]
    exact List.flatMap_congr fun group hgroup => by rw [hsuffix group hgroup]
  have hsize : ∀ index < groups.length,
      (suffixProducts (groups.getD index [])).2 =
        (groups.map List.prod).getD index 0 := by
    intro index hindex
    rw [List.getD_eq_getElem _ _ hindex,
      List.getD_eq_getElem _ _ (by simpa using hindex), List.getElem_map,
      hsuffix _ (List.getElem_mem hindex)]
  have hdims : ∀ dim ∈ shape.map UInt64.toNat, 0 < dim := by
    intro dim hdim
    obtain ⟨value, hvalue, rfl⟩ := List.mem_map.mp hdim
    rw [Nat.pos_iff_ne_zero]
    intro hzero
    exact hshape ((UInt64.toNat_inj.mp hzero : value = 0) ▸ hvalue)
  have hlengths : (shape.map UInt64.toNat).length =
      (groups.map List.prod).length := by
    rw [List.length_map, List.length_map, hgroups.rank_eq]
  have hfits : List.Forall₂ (· ≤ ·) (shape.map UInt64.toNat)
      (groups.map List.prod) := by
    rw [List.forall₂_iff_get]
    refine ⟨hlengths, fun index hleft hright => ?_⟩
    have hindex : index < groups.length := by simpa using hright
    have hat := (hle index hindex).2
    rw [hsize index hindex, Nat.zero_add, List.getD_eq_getElem _ _ hleft,
      List.getD_eq_getElem _ _ hright] at hat
    exact hat
  have hprod : (shape.map UInt64.toNat).prod < 2 ^ 64 := by
    rw [List.prod_flatten] at hsmall
    exact lt_of_le_of_lt (List.Forall₂.prod_le_prod' hfits) hsmall
  have hstrides := suffixProducts_eq hdims hprod
  refine ⟨?_, saturatingProduct_eq hdims hprod, rfl⟩
  constructor
  · exact haxes
  · exact hextents
  · exact hwithin
  · exact hgroups.order
  · rw [hgroups.order_length, ← hextents, List.length_map]
  · exact hgroups.positive
  · exact hdims
  · exact hfits
  · rw [hstrides]
  · intro position hposition
    have hbound := @stride_le _ _ hgroups.positive hfits 0 _ hposition
    have hmultiplier : position < measured.1.length := by
      rwa [hwithin, length_flatMap_weights]
    have hlabel : position < (factors.map Prod.fst).length := by
      rwa [haxes, length_axesOf]
    rw [getD_zipWith hmultiplier hlabel, hstrides]
    refine Nat.mod_eq_of_lt (lt_of_le_of_lt ?_ hsmall)
    rw [hwithin, haxes]
    exact hbound
  · intro axis haxis
    rw [hflags axis]
    have hreplicate : ¬ (List.replicate (shape.map UInt64.toNat).length
        false).getD axis false = true := by
      simp
    constructor
    · rintro (hold | ⟨index, hindex, rfl, hlt⟩)
      · exact absurd hold hreplicate
      · rw [hsize index hindex] at hlt
        rw [Nat.zero_add] at hlt ⊢
        exact hlt
    · intro hlt
      refine .inr ⟨axis, haxis, (Nat.zero_add axis).symm, ?_⟩
      rw [hsize axis haxis]
      exact hlt
  · rw [hextents]
    exact Nat.mod_eq_of_lt hsmall
  · exact hsmall

end LayoutMorphism

end TensorFS
