import TensorFS.Engine.Catalog
import TensorFS.Engine.MatchSpec

namespace TensorFS.Go

open Data

/-! Stamping: the catalogued pair whose computed header a checkpoint has. -/

def Layout.declares (layout : Layout) (key : Text) : Bool :=
  layout.components.any fun component => (component.tensors.get? key).isSome

def LayoutComponent.required (component : LayoutComponent) : Nat :=
  component.tensors.entries.countP fun entry => !entry.2.optional

/-- How many entries are required, and how many optional. -/
def Layout.counts (layout : Layout) : Nat × Nat :=
  ((layout.components.map LayoutComponent.required).sum,
    (layout.components.map fun component =>
      component.tensors.entries.countP fun entry => entry.2.optional).sum)

/-- The smallest name so far; an empty one counts as none. -/
def probeOf : Text → List InventoryTensor → Text
  | probe, [] => probe
  | probe, tensor :: tensors =>
      probeOf (if probe = [] ∨ tensor.name < probe then tensor.name else probe)
        tensors

def candidateFrom : Nat → Text → List ArtifactFile → Nat × Text
  | total, probe, [] => (total, probe)
  | total, probe, file :: files =>
      candidateFrom (total + file.tensors.length) (probeOf probe file.tensors)
        files

/-- How many entries the headers carry, and one key of them. -/
def candidateShape (files : List ArtifactFile) : Nat × Text :=
  candidateFrom 0 [] files

namespace Catalog

variable (catalog : Catalog)

/-- Discards a pair without walking its tensors.  The rule is there when the
layout is. -/
def plausibleLayout (id : LayoutID) (total : Nat) (probe : Text) :
    Option Layout :=
  match catalog.layout id with
  | .error _ => none
  | .ok layout =>
      if (catalog.rules.get? id.quant).any QuantRule.transforms = true ∧
          layout.transformed = 0 then none
      else if total < layout.counts.1 ∨
          layout.counts.1 + layout.counts.2 < total then none
      else if probe ≠ [] ∧ layout.declares probe = false then none
      else some layout

def stampFrom (files : List ArtifactFile) (total : Nat) (probe : Text) :
    Option Refusal → List LayoutID → Except (Option Refusal) LayoutID
  | closest, [] => .error closest
  | closest, id :: rest =>
      match catalog.plausibleLayout id total probe with
      | none => stampFrom files total probe closest rest
      | some layout =>
          match matchLayout files layout with
          | .ok _ => .ok id
          | .error refusal =>
              stampFrom files total probe
                (if closest.all fun found => found.matched < refusal.matched
                  then some refusal else closest) rest

/-- The first pair whose layout the headers are, or the refusal that came
closest. -/
def stamp (files : List ArtifactFile) : Except Refusal LayoutID :=
  let shape := candidateShape files
  match catalog.stampFrom files shape.1 shape.2 none catalog.order with
  | .ok id => .ok id
  | .error (some refusal) => .error refusal
  | .error none =>
      .error { reason := .noStamp, note :=
        decimal shape.1 ++ " tensors across ".toList ++
          decimal files.length ++ (" member(s) reach no catalogued " ++
            "layout's entry count").toList }

/-- Every pair whose layout the headers are. -/
def stampAll (files : List ArtifactFile) : List LayoutID :=
  let shape := candidateShape files
  catalog.order.filter fun id =>
    match catalog.plausibleLayout id shape.1 shape.2 with
    | none => false
    | some layout => (matchLayout files layout).toOption.isSome

/-! The prefilter loses nothing. -/

/-- The headers are this pair's layout, and the pair's rule is plain or acted
on some tensor. -/
def identifies (files : List ArtifactFile) (id : LayoutID) : Bool :=
  match catalog.layout id with
  | .error _ => false
  | .ok layout =>
      !((catalog.rules.get? id.quant).any QuantRule.transforms &&
        layout.transformed = 0) &&
      (matchLayout files layout).toOption.isSome

end Catalog

theorem hasAssignment_of_match {layout : Layout} {files : List ArtifactFile}
    {found : Match} (h : matchLayout files layout = .ok found) :
    HasAssignment layout files :=
  (fits_greedy_iff.mp (matchLayout_ok_iff.mp ⟨found, h⟩)).fits

theorem nodup_carriedBy {pairs : Assigned} (h : NoneTwice pairs)
    (index : Nat) : (carriedBy pairs index).Nodup := by
  unfold NoneTwice at h
  induction pairs with
  | nil => exact List.nodup_nil
  | cons pair pairs ih =>
      obtain ⟨hpair, hrest⟩ := List.pairwise_cons.mp h
      rw [carriedBy, List.flatMap_cons]
      refine List.Nodup.append ?_ (ih hrest) ?_
      · split
        · exact pair.1.names_nodup
        · exact List.nodup_nil
      · split
        · rename_i heq
          intro key hkey hcarried
          obtain ⟨other, hother, hindex, hmem⟩ := mem_carriedBy.mp hcarried
          exact hpair other hother (heq.trans hindex.symm) hkey hmem
        · exact List.disjoint_nil_left _

/-- Every member's keys are counted at its own component. -/
theorem sum_carriedBy {pairs : Assigned} {count : Nat}
    (h : ∀ pair ∈ pairs, pair.2 < count) :
    ((List.range count).map fun index => (carriedBy pairs index).length).sum =
      (pairs.map fun pair => pair.1.tensors.length).sum := by
  induction pairs with
  | nil => simp [carriedBy]
  | cons pair pairs ih =>
      have hrest := ih fun other hother =>
        h other (List.mem_cons_of_mem _ hother)
      have hlt := h pair List.mem_cons_self
      have hsplit : ∀ index, (carriedBy (pair :: pairs) index).length =
          (if pair.2 = index then pair.1.tensors.length else 0) +
            (carriedBy pairs index).length := by
        intro index
        rw [carriedBy, List.flatMap_cons, List.length_append]
        split <;> simp [carriedBy, ArtifactFile.names]
      simp only [hsplit, List.sum_map_add, hrest, List.map_cons, List.sum_cons,
        Nat.add_right_cancel_iff]
      rw [← List.sum_toFinset _ List.nodup_range, List.toFinset_range,
        Finset.sum_ite_eq, if_pos (Finset.mem_range.mpr hlt)]

theorem sum_map_le_range {α : Type} {xs : List α} {f : α → Nat}
    {g : Nat → Nat} (h : ∀ index x, xs[index]? = some x → f x ≤ g index) :
    (xs.map f).sum ≤ ((List.range xs.length).map g).sum := by
  induction xs generalizing g with
  | nil => simp
  | cons x xs ih =>
      have hrest := @ih (fun index => g (index + 1))
        fun index y hy => h (index + 1) y hy
      rw [List.map_cons, List.sum_cons, List.length_cons,
        List.range_succ_eq_map, List.map_cons, List.sum_cons, List.map_map]
      exact Nat.add_le_add (h 0 x rfl) hrest

theorem range_le_sum_map {α : Type} {xs : List α} {f : α → Nat}
    {g : Nat → Nat} (h : ∀ index x, xs[index]? = some x → g index ≤ f x) :
    ((List.range xs.length).map g).sum ≤ (xs.map f).sum := by
  induction xs generalizing g with
  | nil => simp
  | cons x xs ih =>
      have hrest := @ih (fun index => g (index + 1))
        fun index y hy => h (index + 1) y hy
      rw [List.map_cons, List.sum_cons, List.length_cons,
        List.range_succ_eq_map, List.map_cons, List.sum_cons, List.map_map]
      exact Nat.add_le_add (h 0 x rfl) hrest

/-- A fitting assignment carries a component's required keys and only keys it
declares, each once. -/
theorem Fits.carried_between {layout : Layout} {pairs : Assigned}
    (hfits : Fits layout pairs) {index : Nat} {component : LayoutComponent}
    (hcomponent : layout.components[index]? = some component) :
    component.required ≤ (carriedBy pairs index).length ∧
      (carriedBy pairs index).length ≤ component.tensors.entries.length := by
  have hnodup := nodup_carriedBy hfits.noneTwice index
  constructor
  · have hkeys : ((component.tensors.entries.filter
        fun entry => !entry.2.optional).map Prod.fst).Nodup :=
      component.tensors.keys_nodup.sublist (List.filter_sublist.map Prod.fst)
    rw [LayoutComponent.required, List.countP_eq_length_filter,
      ← List.length_map Prod.fst]
    refine (List.subperm_of_subset hkeys fun key hkey => ?_).length_le
    obtain ⟨entry, hentry, rfl⟩ := List.mem_map.mp hkey
    obtain ⟨hmem, hoptional⟩ := List.mem_filter.mp hentry
    exact mem_carriedBy.mpr (hfits.carried index component hcomponent entry.1
      entry.2 (OrdMap.get?_eq_some.mpr hmem) (by simpa using hoptional))
  · rw [← List.length_map (f := Prod.fst)]
    refine (List.subperm_of_subset hnodup fun key hkey => ?_).length_le
    obtain ⟨pair, hpair, rfl, hmem⟩ := mem_carriedBy.mp hkey
    obtain ⟨found, hfound, hdeclares⟩ := hfits.declared pair hpair
    rw [hcomponent, Option.some.injEq] at hfound
    subst hfound
    obtain ⟨tensor, htensor, rfl⟩ := List.mem_map.mp hmem
    obtain ⟨entry, hentry, _⟩ := hdeclares tensor htensor
    exact List.mem_map_of_mem (OrdMap.get?_eq_some.mp hentry)

theorem Layout.counts_add (layout : Layout) :
    layout.counts.1 + layout.counts.2 =
      (layout.components.map fun component =>
        component.tensors.entries.length).sum := by
  rw [Layout.counts, ← List.sum_map_add]
  refine congrArg List.sum (List.map_congr_left fun component _ => ?_)
  rw [LayoutComponent.required, Nat.add_comm]
  simpa using (List.length_eq_countP_add_countP
    (fun entry : Text × LayoutTensor => entry.2.optional)).symm

/-- The members of a match carry every required entry and only declared ones,
each once. -/
theorem HasAssignment.total_between {layout : Layout}
    {files : List ArtifactFile} (h : HasAssignment layout files) :
    layout.counts.1 ≤ (files.map fun file => file.tensors.length).sum ∧
      (files.map fun file => file.tensors.length).sum ≤
        layout.counts.1 + layout.counts.2 := by
  obtain ⟨pairs, rfl, hfits⟩ := h
  have hindex : ∀ pair ∈ pairs, pair.2 < layout.components.length := by
    intro pair hpair
    obtain ⟨component, hcomponent, _⟩ := hfits.declared pair hpair
    exact (List.getElem?_eq_some_iff.mp hcomponent).1
  rw [List.map_map]
  change _ ≤ (pairs.map fun pair => pair.1.tensors.length).sum ∧
    (pairs.map fun pair => pair.1.tensors.length).sum ≤ _
  rw [← sum_carriedBy hindex, layout.counts_add]
  exact ⟨sum_map_le_range fun index component hcomponent =>
      (hfits.carried_between hcomponent).1,
    range_le_sum_map fun index component hcomponent =>
      (hfits.carried_between hcomponent).2⟩

theorem HasAssignment.declares {layout : Layout} {files : List ArtifactFile}
    (h : HasAssignment layout files) {file : ArtifactFile}
    (hfile : file ∈ files) {tensor : InventoryTensor}
    (htensor : tensor ∈ file.tensors) : layout.declares tensor.name = true := by
  obtain ⟨pairs, rfl, hfits⟩ := h
  obtain ⟨pair, hpair, rfl⟩ := List.mem_map.mp hfile
  obtain ⟨component, hcomponent, hdeclares⟩ := hfits.declared pair hpair
  obtain ⟨entry, hentry, _⟩ := hdeclares tensor htensor
  rw [Layout.declares, List.any_eq_true]
  exact ⟨component, List.mem_of_getElem? hcomponent, by rw [hentry]; rfl⟩

/-! What the prefilter looks at. -/

theorem probeOf_mem {tensors : List InventoryTensor} {probe : Text} :
    probeOf probe tensors = probe ∨
      ∃ tensor ∈ tensors, probeOf probe tensors = tensor.name := by
  induction tensors generalizing probe with
  | nil => exact .inl rfl
  | cons tensor tensors ih =>
      rw [probeOf]
      rcases @ih (if probe = [] ∨ tensor.name < probe then tensor.name
          else probe) with hsame | ⟨other, hother, hname⟩
      · rw [hsame]
        split
        · exact .inr ⟨tensor, List.mem_cons_self, rfl⟩
        · exact .inl rfl
      · exact .inr ⟨other, List.mem_cons_of_mem _ hother, hname⟩

theorem candidateFrom_total (total : Nat) (probe : Text)
    (files : List ArtifactFile) :
    (candidateFrom total probe files).1 =
      total + (files.map fun file => file.tensors.length).sum := by
  induction files generalizing total probe with
  | nil => rfl
  | cons file files ih =>
      rw [candidateFrom, ih, List.map_cons, List.sum_cons, Nat.add_assoc]

theorem candidateFrom_probe (total : Nat) (probe : Text)
    (files : List ArtifactFile) :
    (candidateFrom total probe files).2 = probe ∨
      ∃ file ∈ files, ∃ tensor ∈ file.tensors,
        (candidateFrom total probe files).2 = tensor.name := by
  induction files generalizing total probe with
  | nil => exact .inl rfl
  | cons file files ih =>
      rw [candidateFrom]
      rcases ih (total + file.tensors.length) (probeOf probe file.tensors) with
        hsame | ⟨other, hother, tensor, htensor, hname⟩
      · rw [hsame]
        rcases @probeOf_mem file.tensors probe with hprobe | ⟨tensor, htensor,
          hname⟩
        · exact .inl hprobe
        · exact .inr ⟨file, List.mem_cons_self, tensor, htensor, hname⟩
      · exact .inr ⟨other, List.mem_cons_of_mem _ hother, tensor, htensor,
          hname⟩

namespace Catalog

theorem plausibleLayout_eq_some {catalog : Catalog} {id : LayoutID}
    {layout : Layout} {files : List ArtifactFile} {found : Match}
    (hlayout : catalog.layout id = .ok layout)
    (hrule : ¬ ((catalog.rules.get? id.quant).any QuantRule.transforms = true ∧
      layout.transformed = 0))
    (hmatch : matchLayout files layout = .ok found) :
    catalog.plausibleLayout id (candidateShape files).1
      (candidateShape files).2 = some layout := by
  have hassignment := hasAssignment_of_match hmatch
  obtain ⟨hrequired, htotal⟩ := hassignment.total_between
  have hcount := candidateFrom_total 0 [] files
  rw [Nat.zero_add] at hcount
  have hreach : ¬ ((candidateShape files).1 < layout.counts.1 ∨
      layout.counts.1 + layout.counts.2 < (candidateShape files).1) := by
    rw [candidateShape, hcount]
    omega
  have hprobe : ¬ ((candidateShape files).2 ≠ [] ∧
      layout.declares (candidateShape files).2 = false) := by
    rintro ⟨hne, hundeclared⟩
    rcases candidateFrom_probe 0 [] files with hnone | ⟨file, hfile, tensor,
      htensor, hname⟩
    · exact hne hnone
    · rw [candidateShape, hname, hassignment.declares hfile htensor]
        at hundeclared
      cases hundeclared
  rw [plausibleLayout, hlayout]
  simp only [if_neg hrule, if_neg hreach, if_neg hprobe]

theorem plausibleLayout_rule {catalog : Catalog} {id : LayoutID} {total : Nat}
    {probe : Text} {layout : Layout}
    (h : catalog.plausibleLayout id total probe = some layout) :
    catalog.layout id = .ok layout ∧
      ¬ ((catalog.rules.get? id.quant).any QuantRule.transforms = true ∧
        layout.transformed = 0) := by
  unfold plausibleLayout at h
  split at h
  · cases h
  · rename_i found hfound
    split_ifs at h with hrule
    cases h
    exact ⟨hfound, hrule⟩

/-- The filtered test of one pair is the unfiltered one. -/
theorem test_eq_identifies (catalog : Catalog) (files : List ArtifactFile)
    (id : LayoutID) :
    ((catalog.plausibleLayout id (candidateShape files).1
      (candidateShape files).2).any fun layout =>
        (matchLayout files layout).toOption.isSome) =
      catalog.identifies files id := by
  rw [Bool.eq_iff_iff, Option.any_eq_true, identifies]
  cases hlayout : catalog.layout id with
  | error fault => simp [plausibleLayout, hlayout]
  | ok layout =>
      simp only [Bool.and_eq_true, Bool.not_eq_true', Bool.and_eq_false_iff,
        decide_eq_false_iff_not, Option.isSome_iff_exists, toOption_eq_some]
      constructor
      · rintro ⟨found, hfound, accepted, hmatch⟩
        obtain ⟨hsame, hrule⟩ := plausibleLayout_rule hfound
        rw [hlayout, Except.ok.injEq] at hsame
        subst hsame
        refine ⟨?_, accepted, hmatch⟩
        by_cases hplain : (catalog.rules.get? id.quant).any
            QuantRule.transforms = true
        · exact .inr fun hzero => hrule ⟨hplain, hzero⟩
        · exact .inl (by simpa using hplain)
      · rintro ⟨hrule, accepted, hmatch⟩
        refine ⟨layout, plausibleLayout_eq_some hlayout ?_ hmatch, accepted,
          hmatch⟩
        rintro ⟨htransforms, hzero⟩
        rcases hrule with hplain | hacted
        · rw [hplain] at htransforms
          cases htransforms
        · exact hacted hzero

theorem stampAll_eq (catalog : Catalog) (files : List ArtifactFile) :
    catalog.stampAll files =
      catalog.order.filter (catalog.identifies files) := by
  refine List.filter_congr fun id _ => ?_
  rw [← test_eq_identifies]
  cases catalog.plausibleLayout id (candidateShape files).1
    (candidateShape files).2 <;> rfl

theorem stampFrom_ok_iff {catalog : Catalog} {files : List ArtifactFile}
    {closest : Option Refusal} {ids : List LayoutID} {id : LayoutID} :
    catalog.stampFrom files (candidateShape files).1 (candidateShape files).2
        closest ids = .ok id ↔
      ids.find? (catalog.identifies files) = some id := by
  induction ids generalizing closest with
  | nil => simp [stampFrom]
  | cons head rest ih =>
      have htest := test_eq_identifies catalog files head
      unfold stampFrom
      cases hkept : catalog.plausibleLayout head (candidateShape files).1
          (candidateShape files).2 with
      | none =>
          rw [hkept, Option.any_none] at htest
          rw [List.find?_cons_of_neg (by rw [← htest]; simp)]
          exact ih
      | some layout =>
          rw [hkept, Option.any_some] at htest
          cases hmatch : matchLayout files layout with
          | error refusal =>
              rw [hmatch] at htest
              rw [List.find?_cons_of_neg (by rw [← htest]; simp)]
              simp only [hmatch]
              exact ih
          | ok found =>
              rw [hmatch] at htest
              rw [List.find?_cons_of_pos htest.symm]
              simp only [hmatch, Except.ok.injEq, Option.some.injEq]

/-- The answer is the first pair the headers are. -/
theorem stamp_ok_iff {catalog : Catalog} {files : List ArtifactFile}
    {id : LayoutID} :
    catalog.stamp files = .ok id ↔
      catalog.order.find? (catalog.identifies files) = some id := by
  rw [← @stampFrom_ok_iff catalog files none, stamp]
  cases catalog.stampFrom files (candidateShape files).1
      (candidateShape files).2 none catalog.order with
  | ok found => simp
  | error closest =>
      cases closest <;> constructor <;> intro h <;> cases h

end Catalog

/-- The prefilter discards no pair the headers match under a rule that is plain
or acted on a tensor, so the search finds what it would find without it. -/
theorem prefilter_sound (catalog : Catalog) (files : List ArtifactFile) :
    (∀ id layout found, id ∈ catalog.order →
      catalog.layout id = .ok layout →
      (∀ rule, catalog.rules.get? id.quant = some rule →
        rule.transforms = false ∨ 1 ≤ layout.transformed) →
      matchLayout files layout = .ok found →
      catalog.plausibleLayout id (candidateShape files).1
        (candidateShape files).2 = some layout) ∧
    (∀ id, catalog.stamp files = .ok id ↔
      catalog.order.find? (catalog.identifies files) = some id) ∧
    catalog.stampAll files =
      catalog.order.filter (catalog.identifies files) := by
  refine ⟨?_, fun id => Catalog.stamp_ok_iff,
    Catalog.stampAll_eq catalog files⟩
  intro id layout found _ hlayout hrule hmatch
  refine Catalog.plausibleLayout_eq_some hlayout ?_ hmatch
  rintro ⟨htransforms, hzero⟩
  obtain ⟨rule, hget, hrule'⟩ := (Option.any_eq_true _ _).mp htransforms
  rcases hrule rule hget with hplain | hacted
  · rw [hplain] at hrule'
    cases hrule'
  · omega

end TensorFS.Go
