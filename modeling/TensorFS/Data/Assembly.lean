import Mathlib

namespace TensorFS.Data

/-! A list cut into numbered blocks, and a store that puts the blocks together
by their numbers: one that comes later replaces one of the same number. -/

variable {α β : Type}

/-- Consecutive blocks of `xs` from `offset` on, of the given sizes. -/
def cut (xs : List α) : Nat → List (Nat × Nat) → List (Nat × List α)
  | _, [] => []
  | offset, (number, size) :: sizes =>
      (number, (xs.drop offset).take size) :: cut xs (offset + size) sizes

def lastOfEach : List (Nat × List α) → List (Nat × List α)
  | [] => []
  | block :: blocks =>
      if block.1 ∈ blocks.map Prod.fst then lastOfEach blocks
      else block :: lastOfEach blocks

def joined (blocks : List (Nat × List α)) : List α :=
  (blocks.map Prod.snd).flatten

def assemble (blocks : List (Nat × List α)) : List α :=
  joined ((lastOfEach blocks).mergeSort fun a b => decide (a.1 ≤ b.1))

/-- No block that has something in it is replaced, or put behind one that it
precedes. -/
def InSequence (blocks : List (Nat × List α)) : Prop :=
  blocks.Pairwise fun a b => a.2 ≠ [] → a.1 ≠ b.1 ∧ (b.2 ≠ [] → a.1 ≤ b.1)

def extent (sizes : List (Nat × Nat)) : Nat := (sizes.map Prod.snd).sum

theorem joined_cons (block : Nat × List α) (blocks : List (Nat × List α)) :
    joined (block :: blocks) = block.2 ++ joined blocks := rfl

theorem assemble_nil : assemble ([] : List (Nat × List α)) = [] := by
  simp [assemble, lastOfEach, joined]

theorem extent_cons (entry : Nat × Nat) (sizes : List (Nat × Nat)) :
    extent (entry :: sizes) = entry.2 + extent sizes := by
  simp [extent]

theorem joined_cut {xs : List α} {offset : Nat} {sizes : List (Nat × Nat)}
    (h : xs.length = offset + extent sizes) :
    joined (cut xs offset sizes) = xs.drop offset := by
  induction sizes generalizing offset with
  | nil =>
      have hlength : xs.length ≤ offset := by simp [h, extent]
      rw [List.drop_eq_nil_of_le hlength]
      rfl
  | cons entry sizes ih =>
      obtain ⟨number, size⟩ := entry
      rw [extent_cons] at h
      rw [cut, joined_cons, ih (by omega), ← List.drop_drop]
      exact List.take_append_drop size (xs.drop offset)

theorem cut_map (f : α → β) (xs : List α) (offset : Nat)
    (sizes : List (Nat × Nat)) :
    cut (xs.map f) offset sizes =
      (cut xs offset sizes).map fun block => (block.1, block.2.map f) := by
  induction sizes generalizing offset with
  | nil => rfl
  | cons entry sizes ih =>
      rw [cut, cut, ih, List.map_cons, List.map_take, List.map_drop]

theorem lastOfEach_map (f : α → β) (blocks : List (Nat × List α)) :
    lastOfEach (blocks.map fun block => (block.1, block.2.map f)) =
      (lastOfEach blocks).map fun block => (block.1, block.2.map f) := by
  induction blocks with
  | nil => rfl
  | cons block blocks ih =>
      simp only [lastOfEach, List.map_cons, List.map_map, Function.comp_def, ih]
      split
      · rfl
      · rfl

theorem assemble_map (f : α → β) (blocks : List (Nat × List α)) :
    assemble (blocks.map fun block => (block.1, block.2.map f)) =
      (assemble blocks).map f := by
  have hsort : ((lastOfEach blocks).map fun block =>
      (block.1, block.2.map f)).mergeSort (fun a b => decide (a.1 ≤ b.1)) =
        ((lastOfEach blocks).mergeSort fun a b => decide (a.1 ≤ b.1)).map
          fun block => (block.1, block.2.map f) := by
    symm
    apply List.map_mergeSort
    intro a _ b _
    rfl
  simp only [assemble, joined, lastOfEach_map, hsort, List.map_map,
    List.map_flatten, Function.comp_def]

/-! Which blocks are kept. -/

theorem lastOfEach_sublist (blocks : List (Nat × List α)) :
    (lastOfEach blocks).Sublist blocks := by
  induction blocks with
  | nil => exact .slnil
  | cons block blocks ih =>
      rw [lastOfEach]
      split
      · exact ih.cons block
      · exact ih.cons_cons block

theorem length_joined_le {blocks more : List (Nat × List α)}
    (h : blocks.Sublist more) : (joined blocks).length ≤ (joined more).length :=
  (h.map Prod.snd).flatten.length_le

/-- Nothing is lost exactly where each replaced block is empty. -/
theorem lastOfEach_keeps {blocks : List (Nat × List α)} :
    (joined (lastOfEach blocks)).length = (joined blocks).length ↔
      blocks.Pairwise fun a b => a.2 ≠ [] → a.1 ≠ b.1 := by
  induction blocks with
  | nil => simp [lastOfEach]
  | cons block blocks ih =>
      have hle := length_joined_le (lastOfEach_sublist blocks)
      rw [List.pairwise_cons, ← ih, lastOfEach]
      split
      · rename_i hmem
        obtain ⟨other, hother, hsame⟩ := List.mem_map.mp hmem
        rw [joined_cons, List.length_append]
        constructor
        · intro h
          have hnone : block.2.length = 0 := by omega
          exact ⟨fun _ _ hne => absurd (List.eq_nil_of_length_eq_zero hnone) hne,
            by omega⟩
        · intro h
          obtain ⟨hfree, hrest⟩ := h
          have hnone : block.2 = [] := by
            by_contra hne
            exact hfree other hother hne hsame.symm
          rw [hnone, hrest]
          simp
      · rename_i hmem
        rw [joined_cons, joined_cons, List.length_append, List.length_append,
          Nat.add_left_cancel_iff]
        constructor
        · intro h
          refine ⟨fun other hother _ hsame => ?_, h⟩
          exact hmem (List.mem_map.mpr ⟨other, hother, hsame.symm⟩)
        · exact fun h => h.2

/-- The blocks that have something in them. -/
def solid (blocks : List (Nat × List α)) : List (Nat × List α) :=
  blocks.filter fun block => decide (block.2 ≠ [])

theorem joined_solid (blocks : List (Nat × List α)) :
    joined (solid blocks) = joined blocks := by
  induction blocks with
  | nil => rfl
  | cons block blocks ih =>
      rw [solid, List.filter_cons, joined_cons, ← ih]
      split
      · rfl
      · rename_i hnone
        have hempty : block.2 = [] := by simpa using hnone
        rw [hempty]
        rfl

theorem solid_lastOfEach {blocks : List (Nat × List α)}
    (h : blocks.Pairwise fun a b => a.2 ≠ [] → a.1 ≠ b.1) :
    solid (lastOfEach blocks) = solid blocks := by
  induction blocks with
  | nil => rfl
  | cons block blocks ih =>
      obtain ⟨hfree, hrest⟩ := List.pairwise_cons.mp h
      have hsolid := ih hrest
      rw [lastOfEach]
      split
      · rename_i hmem
        obtain ⟨other, hother, hsame⟩ := List.mem_map.mp hmem
        have hempty : block.2 = [] := by
          by_contra hne
          exact hfree other hother hne hsame.symm
        rw [hsolid]
        simp [solid, hempty]
      · simp only [solid, List.filter_cons] at hsolid ⊢
        rw [hsolid]

theorem length_joined_perm {blocks more : List (Nat × List α)}
    (h : blocks.Perm more) : (joined blocks).length = (joined more).length :=
  (h.map Prod.snd).flatten.length_eq

/-! The blocks in the order of their numbers. -/

abbrev byNumber (a b : Nat × List α) : Bool := decide (a.1 ≤ b.1)

theorem byNumber_trans (a b c : Nat × List α) (hab : byNumber a b = true)
    (hbc : byNumber b c = true) : byNumber a c = true :=
  decide_eq_true
    ((of_decide_eq_true hab).trans (of_decide_eq_true hbc))

theorem byNumber_total (a b : Nat × List α) :
    (byNumber a b || byNumber b a) = true := by
  simp only [byNumber, Bool.or_eq_true, decide_eq_true_eq]
  exact Nat.le_total a.1 b.1

theorem assemble_of_inSequence {blocks : List (Nat × List α)}
    (h : InSequence blocks) : assemble blocks = joined blocks := by
  have hsolid : solid (lastOfEach blocks) = solid blocks :=
    solid_lastOfEach (h.imp fun hab hne => (hab hne).1)
  have hsorted : (solid (lastOfEach blocks)).Pairwise
      fun a b => byNumber a b = true := by
    have hsequence := h.sublist (lastOfEach_sublist blocks)
    refine List.pairwise_filter.mpr (hsequence.imp ?_)
    intro a b hab ha hb
    exact decide_eq_true ((hab (of_decide_eq_true ha)).2 (of_decide_eq_true hb))
  have hsub : (solid (lastOfEach blocks)).Sublist
      ((lastOfEach blocks).mergeSort byNumber) :=
    List.sublist_mergeSort byNumber_trans byNumber_total hsorted
      List.filter_sublist
  have hjoined := (hsub.map Prod.snd).flatten
  have hlength : (joined (solid (lastOfEach blocks))).length =
      (assemble blocks).length := by
    rw [joined_solid]
    exact (length_joined_perm (List.mergeSort_perm _ _)).symm
  calc assemble blocks
      = joined (solid (lastOfEach blocks)) :=
        (hjoined.eq_of_length hlength).symm
    _ = joined blocks := by rw [hsolid, joined_solid]

/-- In a list that rises, the elements of one block lie below those behind. -/
theorem pairwise_below [LinearOrder α] {blocks : List (Nat × List α)}
    (h : (joined blocks).Pairwise (· < ·)) :
    blocks.Pairwise fun a b => ∀ x ∈ a.2, ∀ y ∈ b.2, x < y :=
  List.pairwise_map.mp (List.pairwise_flatten.mp h).2

/-- One stands before the other, by its number and by its elements. -/
def Agree [LinearOrder α] (a b : Nat × List α) : Prop :=
  (a.1 ≤ b.1 ∧ ∀ x ∈ a.2, ∀ y ∈ b.2, x < y) ∨
    (b.1 ≤ a.1 ∧ ∀ x ∈ b.2, ∀ y ∈ a.2, x < y)

instance [LinearOrder α] : Std.Symm (@Agree α _) := ⟨fun _ _ => Or.symm⟩

/-- Where the elements tell the places apart, there is no other way. -/
theorem inSequence_of_assemble [LinearOrder α] {blocks : List (Nat × List α)}
    (hrising : (joined blocks).Pairwise (· < ·))
    (h : assemble blocks = joined blocks) : InSequence blocks := by
  have hlength : (joined (lastOfEach blocks)).length =
      (joined blocks).length := by
    rw [← h]
    exact (length_joined_perm (List.mergeSort_perm _ _)).symm
  have hkeeps := lastOfEach_keeps.mp hlength
  have hsorted : ((lastOfEach blocks).mergeSort byNumber).Pairwise
      fun a b => a.1 ≤ b.1 ∧ ∀ x ∈ a.2, ∀ y ∈ b.2, x < y := by
    have hassembled : (assemble blocks).Pairwise (· < ·) := by rwa [h]
    refine List.Pairwise.and ?_ (pairwise_below hassembled)
    exact (List.pairwise_mergeSort byNumber_trans byNumber_total _).imp
      of_decide_eq_true
  have heither : ((lastOfEach blocks).mergeSort byNumber).Pairwise Agree :=
    hsorted.imp .inl
  have hmem : ∀ block ∈ blocks, block.2 ≠ [] →
      block ∈ (lastOfEach blocks).mergeSort byNumber := by
    intro block hblock hne
    have hsolid : block ∈ solid blocks :=
      List.mem_filter.mpr ⟨hblock, decide_eq_true hne⟩
    rw [← solid_lastOfEach hkeeps] at hsolid
    exact (List.mergeSort_perm _ _).mem_iff.mpr (List.mem_of_mem_filter hsolid)
  have hpairs := hkeeps.and (pairwise_below hrising)
  refine hpairs.imp_of_mem ?_
  intro a b ha hb hpair hane
  obtain ⟨hnumbers, hbelow⟩ := hpair
  refine ⟨hnumbers hane, fun hbne => ?_⟩
  obtain ⟨x, hx⟩ := List.exists_mem_of_ne_nil _ hane
  obtain ⟨y, hy⟩ := List.exists_mem_of_ne_nil _ hbne
  have hxy : x < y := hbelow x hx y hy
  have hne : a ≠ b := by
    rintro rfl
    exact absurd (hbelow x hx x hx) (lt_irrefl x)
  rcases heither.forall (hmem a ha hane) (hmem b hb hbne) hne with hab | hba
  · exact hab.1
  · exact absurd (hba.2 y hy x hx) (lt_asymm hxy)

/-! Cuts of a list. -/

theorem cut_sizes {xs : List α} {offset : Nat} {sizes : List (Nat × Nat)}
    (h : xs.length = offset + extent sizes) :
    (cut xs offset sizes).map (fun block => (block.1, block.2.length)) =
      sizes := by
  induction sizes generalizing offset with
  | nil => rfl
  | cons entry sizes ih =>
      obtain ⟨number, size⟩ := entry
      rw [extent_cons] at h
      have hsize : ((xs.drop offset).take size).length = size := by
        rw [List.length_take, List.length_drop]
        omega
      rw [cut, List.map_cons, ih (by omega), hsize]

/-- The sizes of blocks that come out in the order they are listed in. -/
def Sequenced (sizes : List (Nat × Nat)) : Prop :=
  sizes.Pairwise fun a b => a.2 ≠ 0 → a.1 ≠ b.1 ∧ (b.2 ≠ 0 → a.1 ≤ b.1)

theorem inSequence_cut {xs : List α} {sizes : List (Nat × Nat)}
    (h : xs.length = extent sizes) :
    InSequence (cut xs 0 sizes) ↔ Sequenced sizes := by
  have hsizes := cut_sizes (h.trans (Nat.zero_add _).symm)
  have hpairs : Sequenced
      ((cut xs 0 sizes).map fun block => (block.1, block.2.length)) ↔
        InSequence (cut xs 0 sizes) := by
    unfold Sequenced InSequence
    rw [List.pairwise_map]
    simp only [ne_eq, List.length_eq_zero_iff]
  rw [← hpairs, hsizes]

theorem map_eq_of_indicators {n : Nat} {places : List Nat} {x y : α}
    (hxy : x ≠ y) (hlength : places.length = n)
    (h : ∀ i < n, places.map (fun j => if j = i then x else y) =
      (List.range n).map fun j => if j = i then x else y) :
    places = List.range n := by
  apply List.ext_getElem (by rw [hlength, List.length_range])
  intro k hk hkn
  rw [List.length_range] at hkn
  have hsame := congrArg (fun xs => xs[k]?) (h k hkn)
  simp only [List.getElem?_map, List.getElem?_eq_getElem hk,
    List.getElem?_range hkn, Option.map_some, if_true,
    Option.some.injEq] at hsame
  rw [List.getElem_range]
  by_contra hne
  rw [if_neg hne] at hsame
  exact hxy hsame.symm

/-- What a list cut into blocks of these sizes is put together to, whatever
the list. -/
theorem assemble_cut_iff [Nontrivial α] {sizes : List (Nat × Nat)} :
    (∀ xs : List α, xs.length = extent sizes →
      assemble (cut xs 0 sizes) = xs) ↔ Sequenced sizes := by
  have hjoined : ∀ {γ : Type} {xs : List γ}, xs.length = extent sizes →
      joined (cut xs 0 sizes) = xs := by
    intro γ xs hlength
    exact joined_cut (hlength.trans (Nat.zero_add _).symm)
  constructor
  · intro h
    have hrange : (List.range (extent sizes)).length = extent sizes :=
      List.length_range
    have hmap : ∀ f : Nat → α,
        (assemble (cut (List.range (extent sizes)) 0 sizes)).map f =
          (List.range (extent sizes)).map f := by
      intro f
      rw [← assemble_map, ← cut_map]
      exact h _ (by rw [List.length_map, hrange])
    obtain ⟨x, y, hxy⟩ := exists_pair_ne α
    have hplaces : assemble (cut (List.range (extent sizes)) 0 sizes) =
        List.range (extent sizes) := by
      apply map_eq_of_indicators hxy
      · have hlength := congrArg List.length (hmap fun _ => x)
        rwa [List.length_map, List.length_map, hrange] at hlength
      · exact fun i _ => hmap _
    rw [← inSequence_cut hrange]
    have hall := hjoined hrange
    apply inSequence_of_assemble
    · rw [hall]
      exact List.pairwise_lt_range
    · rw [hall, hplaces]
  · intro h xs hlength
    rw [assemble_of_inSequence ((inSequence_cut hlength).mpr h),
      hjoined hlength]

end TensorFS.Data
