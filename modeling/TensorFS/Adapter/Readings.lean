import TensorFS.Adapter.Available
import TensorFS.Contract.Matching
import TensorFS.Planner.Floor

namespace TensorFS

open Data

/-! Which declarations read which roles, and what a decision asks of them. -/

namespace Adapter

/-- The declaration reads these values out of the role, behind one of its
suffixes. -/
def Reads (entry : TensorPattern) (values : List Nat) (role : Text) : Prop :=
  ∃ suffix ∈ entrySuffixes entry, ∃ base, role = base ++ suffix ∧
    entry.role.captures base = some values

variable {available : OrdMap Text SourceRun} {entry : TensorPattern}
  {values : List Nat} {target : Contract}

theorem stripSuffix_eq_some {suffix text base : Text} :
    stripSuffix suffix text = some base ↔ text = base ++ suffix := by
  unfold stripSuffix
  rw [Option.map_eq_some_iff]
  constructor
  · intro h
    obtain ⟨rest, hrest, hbase⟩ := h
    have htext := congrArg List.reverse (Pattern.stripPrefix_eq_some.mp hrest)
    rw [List.reverse_reverse, List.reverse_append, List.reverse_reverse,
      hbase] at htext
    exact htext
  · intro htext
    refine ⟨base.reverse, Pattern.stripPrefix_eq_some.mpr ?_,
      List.reverse_reverse base⟩
    rw [htext, List.reverse_append]

theorem mem_entryCaptures : values ∈ entryCaptures available entry ↔
    ∃ pair ∈ available.entries, Reads entry values pair.1 := by
  have hset : ∀ (found : List (List Nat)) (set : OrdMap (List Nat) Unit),
      values ∈ (found.foldl (fun set values => set.insert values ())
        set).entries.map Prod.fst ↔
        values ∈ found ∨ values ∈ set.entries.map Prod.fst := by
    intro found
    induction found with
    | nil => simp
    | cons other found ih =>
        intro set
        rw [List.foldl_cons, ih, OrdMap.mem_keys_insert, List.mem_cons,
          or_left_comm, or_assoc]
  unfold entryCaptures
  simp only
  rw [hset]
  simp only [OrdMap.entries_empty, List.map_nil, List.not_mem_nil, or_false,
    List.mem_flatMap, List.mem_filterMap, Option.bind_eq_bind,
    Option.bind_eq_some_iff, stripSuffix_eq_some]
  rfl

theorem entryCaptures_nodup : (entryCaptures available entry).Nodup :=
  OrdMap.keys_nodup _

/-- The declarations that read some role, each at the values it reads. -/
def readings (available : OrdMap Text SourceRun) (target : Contract) :
    List (TensorPattern × List Nat) :=
  target.tensors.flatMap fun entry =>
    (entryCaptures available entry).map fun values => (entry, values)

theorem mem_readings : (entry, values) ∈ readings available target ↔
    entry ∈ target.tensors ∧
      ∃ pair ∈ available.entries, Reads entry values pair.1 := by
  simp [readings, mem_entryCaptures]

/-! The decision, as one list of tensors. -/

theorem forall₂_append_left {α β : Type} {related : α → β → Prop}
    {front back : List α} {ys : List β} :
    List.Forall₂ related (front ++ back) ys ↔
      ∃ first rest, ys = first ++ rest ∧ List.Forall₂ related front first ∧
        List.Forall₂ related back rest := by
  induction front generalizing ys with
  | nil =>
      constructor
      · intro h
        exact ⟨[], ys, rfl, .nil, h⟩
      · intro h
        obtain ⟨first, rest, hys, hfirst, hrest⟩ := h
        cases hfirst
        rwa [hys]
  | cons x front ih =>
      rw [List.cons_append, List.forall₂_cons_left_iff]
      constructor
      · intro h
        obtain ⟨y, ys', hy, htail, hys⟩ := h
        obtain ⟨first, rest, rfl, hfirst, hrest⟩ := ih.mp htail
        exact ⟨y :: first, rest, hys, .cons hy hfirst, hrest⟩
      · intro h
        obtain ⟨first, rest, hys, hfirst, hrest⟩ := h
        obtain ⟨y, first, hy, hfront, rfl⟩ :=
          List.forall₂_cons_left_iff.mp hfirst
        exact ⟨y, first ++ rest, hy, ih.mpr ⟨first, rest, rfl, hfront, hrest⟩,
          hys⟩

theorem forall₂_choose {α β : Type} {related : α → β → Prop} {xs : List α}
    (h : ∀ x ∈ xs, ∃ y, related x y) : ∃ ys, List.Forall₂ related xs ys := by
  induction xs with
  | nil => exact ⟨[], .nil⟩
  | cons x xs ih =>
      obtain ⟨⟨y, hy⟩, hothers⟩ := List.forall_mem_cons.mp h
      obtain ⟨ys, hys⟩ := ih hothers
      exact ⟨y :: ys, .cons hy hys⟩

theorem forall₂_comp {α β γ : Type} {first : α → β → Prop}
    {second : β → γ → Prop} {xs : List α} {ys : List β} {zs : List γ}
    (h : List.Forall₂ first xs ys) (h' : List.Forall₂ second ys zs) :
    List.Forall₂ (Relation.Comp first second) xs zs := by
  induction h generalizing zs with
  | nil =>
      cases h'
      exact .nil
  | cons hhead _ ih =>
      obtain ⟨z, rest, hz, hrest, rfl⟩ := List.forall₂_cons_left_iff.mp h'
      exact .cons ⟨_, hhead, hz⟩ (ih hrest)

/-- What is related to one item of a list without repetitions is one item. -/
theorem forall₂_injective {α β : Type} {related : α → β → Prop} {xs : List α}
    {ys : List β} (h : List.Forall₂ related xs ys) (hnodup : ys.Nodup)
    (hunique : Relator.RightUnique related) {x x' : α} {y : β}
    (hx : x ∈ xs) (hx' : x' ∈ xs) (hy : related x y) (hy' : related x' y) :
    x = x' := by
  induction h with
  | nil => cases hx
  | @cons head other xs ys hhead htail ih =>
      rw [List.nodup_cons] at hnodup
      -- the head's item comes only once
      have hapart : ∀ item ∈ xs, related item y → ¬ related head y := by
        intro item hitem hrelated hsame
        obtain ⟨found, hfound, hitem⟩ := mem_of_forall₂ htail.flip hitem
        rw [hunique hitem hrelated, hunique hsame hhead] at hfound
        exact hnodup.1 hfound
      rcases List.mem_cons.mp hx with hfront | hin
      · rcases List.mem_cons.mp hx' with hfront' | hin'
        · rw [hfront, hfront']
        · exact absurd (hfront ▸ hy) (hapart x' hin' hy')
      · rcases List.mem_cons.mp hx' with hfront' | hin'
        · exact absurd (hfront' ▸ hy') (hapart x hin hy)
        · exact ih hnodup.2 hin hin'

/-- Groups, one for each item, as one list for the pairs of an item and what
it is split into. -/
theorem forall₂_groups {α β γ : Type} {allowed : α → Prop}
    {related : α → β → γ → Prop} {split : α → List β} {items : List α}
    {ys : List γ} :
    (∃ groups, List.Forall₂ (fun item group => allowed item ∧
        List.Forall₂ (related item) (split item) group) items groups ∧
        groups.flatten = ys) ↔
      (∀ item ∈ items, allowed item) ∧
        List.Forall₂ (fun pair y => related pair.1 pair.2 y)
          (items.flatMap fun item => (split item).map (item, ·)) ys := by
  induction items generalizing ys with
  | nil =>
      constructor
      · intro h
        obtain ⟨groups, hgroups, hys⟩ := h
        cases hgroups
        cases hys
        exact ⟨nofun, .nil⟩
      · intro h
        obtain ⟨_, hys⟩ := h
        cases hys
        exact ⟨[], .nil, rfl⟩
  | cons item items ih =>
      rw [List.flatMap_cons, forall₂_append_left, List.forall_mem_cons]
      constructor
      · intro h
        obtain ⟨groups, hgroups, hys⟩ := h
        obtain ⟨group, rest, ⟨hallowed, hgroup⟩, hrest, rfl⟩ :=
          List.forall₂_cons_left_iff.mp hgroups
        obtain ⟨hothers, htail⟩ := ih.mp ⟨rest, hrest, rfl⟩
        exact ⟨⟨hallowed, hothers⟩, group, rest.flatten, hys.symm,
          List.forall₂_map_left_iff.mpr hgroup, htail⟩
      · intro h
        obtain ⟨⟨hallowed, hothers⟩, group, rest, hys, hgroup, htail⟩ := h
        obtain ⟨groups, hgroups, rfl⟩ := ih.mpr ⟨hothers, htail⟩
        have hown := (List.forall₂_map_left_iff
          (f := fun b => (item, b))).mp hgroup
        exact ⟨group :: groups, .cons ⟨hallowed, hown⟩ hgroups, hys.symm⟩

theorem entryTensors_eq_ok {tensors : List DerivedTensor} :
    entryTensors available entry = .ok tensors ↔
      ¬ (entryCaptures available entry = [] ∧ entry.required = true) ∧
        List.Forall₂ (fun values derived =>
            instanceTensor available entry values = .ok derived)
          (entryCaptures available entry) tensors := by
  simp only [entryTensors, except_bind_eq_ok, ensure_eq_ok, exists_unit,
    mapM_eq_ok_iff]

/-- A decision to view the bytes as they lie. -/
theorem adaptTo_eq_ok {tensors : List DerivedTensor} :
    adaptTo available target = .ok (.runPreserving ⟨tensors⟩) ↔
      (∀ entry ∈ target.tensors,
        ¬ (entryCaptures available entry = [] ∧ entry.required = true)) ∧
      List.Forall₂ (fun pair derived =>
          instanceTensor available pair.1 pair.2 = .ok derived)
        (readings available target) tensors ∧
      tensors ≠ [] ∧
      (∀ pair ∈ available.entries, pair.1 ∈ claimed tensors) ∧
      rearrangedNames tensors = [] := by
  have hgroups := @forall₂_groups _ _ _
    (fun entry => ¬ (entryCaptures available entry = [] ∧
      entry.required = true))
    (fun entry values derived =>
      instanceTensor available entry values = .ok derived)
    (entryCaptures available) target.tensors tensors
  have horphan : (available.entries.map Prod.fst).find?
      (· ∉ claimed tensors) = none ↔
      ∀ pair ∈ available.entries, pair.1 ∈ claimed tensors := by
    simp [List.find?_eq_none]
  have hfound : ∀ found, target.tensors.mapM (entryTensors available) =
      .ok found ↔ List.Forall₂ (fun entry group =>
        ¬ (entryCaptures available entry = [] ∧ entry.required = true) ∧
          List.Forall₂ (fun values derived =>
              instanceTensor available entry values = .ok derived)
            (entryCaptures available entry) group) target.tensors found := by
    intro found
    simp only [mapM_eq_ok_iff, entryTensors_eq_ok]
  rw [← and_assoc, readings, ← hgroups, ← horphan]
  simp only [adaptTo, except_bind_eq_ok, ensure_eq_ok, exists_unit, hfound]
  constructor
  · intro h
    obtain ⟨found, hgroup, hne, h⟩ := h
    split at h
    · cases h
    · rename_i hnone
      split at h
      · rename_i hnames
        cases h
        exact ⟨⟨found, hgroup, rfl⟩, hne, hnone, hnames⟩
      · cases h
  · intro h
    obtain ⟨⟨found, hgroup, hflat⟩, hne, hnone, hnames⟩ := h
    subst hflat
    refine ⟨found, hgroup, hne, ?_⟩
    rw [hnone]
    simp only
    rw [if_pos hnames]

end Adapter

end TensorFS
