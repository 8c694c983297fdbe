import Mathlib

namespace TensorFS.Data

/-! Walking a tree with a stack: a node is popped, what lies below it is noted,
and the inner ones of these are pushed. -/

variable {ν β : Type}

/-- `fuel` bounds the number of pops; `none` is a walk that goes on. -/
def stackWalk (below : ν → List β) (inner : β → Option ν) :
    Nat → List ν → Option (List β)
  | _, [] => some []
  | 0, _ :: _ => none
  | fuel + 1, node :: stack => do
      let rest ← stackWalk below inner fuel
        (((below node).filterMap inner).reverse ++ stack)
      some (below node ++ rest)

/-- The items of `all` hang below the nodes they open and below the root, one
level deeper each time. -/
structure Hangs (below : ν → List β) (inner : β → Option ν) (root : ν)
    (above : β → ν) (rank : β → Nat) (all : List β) : Prop where
  nodup : all.Nodup
  opened : ∀ left ∈ all, ∀ right ∈ all, ∀ node,
    inner left = some node → inner right = some node → left = right
  rootFree : ∀ item ∈ all, inner item ≠ some root
  below_nodup : ∀ node, (node = root ∨ ∃ item ∈ all, inner item = some node) →
    (below node).Nodup
  mem_below : ∀ node, (node = root ∨ ∃ item ∈ all, inner item = some node) →
    ∀ item, item ∈ below node ↔ item ∈ all ∧ above item = node
  hung : ∀ item ∈ all, above item = root ∨
    ∃ other ∈ all, inner other = some (above item) ∧ rank other < rank item

section

variable {below : ν → List β} {inner : β → Option ν} {root : ν}
  {above : β → ν} {rank : β → Nat} {all : List β}

/-- A walk under way: what was popped, what is on the stack and what was
noted. -/
structure Walking (inner : β → Option ν) (root : ν) (above : β → ν)
    (all : List β) (popped stack : List ν) (noted : List β) : Prop where
  nodup : noted.Nodup
  within : ∀ item ∈ noted, item ∈ all
  iff_popped : ∀ item ∈ all, item ∈ noted ↔ above item ∈ popped
  nodes : (popped ++ stack).Perm (root :: noted.filterMap inner)

theorem Walking.start :
    Walking inner root above all [] [root] [] where
  nodup := List.nodup_nil
  within _ h := absurd h List.not_mem_nil
  iff_popped _ _ := by simp
  nodes := .refl _

theorem Walking.nodes_nodup (h : Hangs below inner root above rank all)
    {popped stack : List ν} {noted : List β}
    (hwalk : Walking inner root above all popped stack noted) :
    (popped ++ stack).Nodup := by
  rw [hwalk.nodes.nodup_iff, List.nodup_cons]
  constructor
  · intro hroot
    obtain ⟨item, hitem, hinner⟩ := List.mem_filterMap.mp hroot
    exact h.rootFree item (hwalk.within item hitem) hinner
  · have hnoted := hwalk.nodup
    have hwithin := hwalk.within
    clear hwalk
    induction noted with
    | nil => exact List.nodup_nil
    | cons item noted ih =>
        obtain ⟨hfresh, hrest⟩ := List.nodup_cons.mp hnoted
        have htail := ih hrest fun other hother =>
          hwithin other (List.mem_cons_of_mem _ hother)
        cases hinner : inner item with
        | none => rwa [List.filterMap_cons_none hinner]
        | some node =>
            rw [List.filterMap_cons_some hinner, List.nodup_cons]
            refine ⟨fun hmem => ?_, htail⟩
            obtain ⟨other, hother, hopens⟩ := List.mem_filterMap.mp hmem
            have hsame := h.opened item (hwithin item List.mem_cons_self) other
              (hwithin other (List.mem_cons_of_mem _ hother)) node hinner hopens
            exact hfresh (hsame ▸ hother)

theorem Walking.node (hwalk : Walking inner root above all popped stack noted)
    {node : ν} (hnode : node ∈ popped ++ stack) :
    node = root ∨ ∃ item ∈ all, inner item = some node := by
  rcases List.mem_cons.mp (hwalk.nodes.mem_iff.mp hnode) with hroot | hmem
  · exact .inl hroot
  · obtain ⟨item, hitem, hinner⟩ := List.mem_filterMap.mp hmem
    exact .inr ⟨item, hwalk.within item hitem, hinner⟩

/-- One pop. -/
theorem Walking.pop (h : Hangs below inner root above rank all)
    {popped stack : List ν} {noted : List β} {node : ν}
    (hwalk : Walking inner root above all popped (node :: stack) noted) :
    Walking inner root above all (popped ++ [node])
      (((below node).filterMap inner).reverse ++ stack)
      (noted ++ below node) := by
  have hnode := hwalk.node
    (List.mem_append_right popped (List.mem_cons_self (a := node) (l := stack)))
  have hbelow := h.mem_below node hnode
  have hfresh : node ∉ popped := by
    have hnodup := hwalk.nodes_nodup h
    intro hmem
    exact (List.nodup_append.mp hnodup).2.2 node hmem node List.mem_cons_self rfl
  constructor
  · rw [List.nodup_append]
    refine ⟨hwalk.nodup, h.below_nodup node hnode, ?_⟩
    intro item hitem other hother heq
    subst heq
    obtain ⟨hall, habove⟩ := (hbelow item).mp hother
    apply hfresh
    rw [← habove]
    exact (hwalk.iff_popped item hall).mp hitem
  · intro item hitem
    rcases List.mem_append.mp hitem with hitem | hitem
    · exact hwalk.within item hitem
    · exact ((hbelow item).mp hitem).1
  · intro item hall
    rw [List.mem_append, List.mem_append, List.mem_singleton,
      hwalk.iff_popped item hall, hbelow item]
    simp [hall]
  · have hreverse := (List.reverse_perm ((below node).filterMap inner)).append
      (List.Perm.refl stack)
    rw [List.filterMap_append, List.append_assoc, List.singleton_append]
    calc popped ++ node :: (((below node).filterMap inner).reverse ++ stack)
      _ |>.Perm (popped ++ node :: ((below node).filterMap inner ++ stack)) :=
          (hreverse.cons node).append_left popped
      _ |>.Perm (popped ++ (node :: stack ++ (below node).filterMap inner)) :=
          ((List.perm_append_comm.cons node)).append_left popped
      _ |>.Perm (root :: noted.filterMap inner ++
            (below node).filterMap inner) := by
          rw [← List.append_assoc]
          exact hwalk.nodes.append_right _
      _ |>.Perm (root :: (noted.filterMap inner ++
            (below node).filterMap inner)) := .refl _

theorem Walking.finished (h : Hangs below inner root above rank all)
    {popped : List ν} {noted : List β}
    (hwalk : Walking inner root above all popped [] noted) :
    noted.Perm all := by
  have hroot : ∀ node, node ∈ popped ↔
      node = root ∨ node ∈ noted.filterMap inner := by
    intro node
    have hmem := hwalk.nodes.mem_iff (a := node)
    rwa [List.append_nil, List.mem_cons] at hmem
  have hcomplete : ∀ n, ∀ item ∈ all, rank item < n → item ∈ noted := by
    intro n
    induction n with
    | zero => exact fun item _ hlt => absurd hlt (Nat.not_lt_zero _)
    | succ n ih =>
        intro item hitem hlt
        rw [hwalk.iff_popped item hitem, hroot]
        rcases h.hung item hitem with habove | hother
        · exact .inl habove
        · obtain ⟨other, hother, hopens, hrank⟩ := hother
          exact .inr (List.mem_filterMap.mpr
            ⟨other, ih other hother (by omega), hopens⟩)
  rw [List.perm_ext_iff_of_nodup hwalk.nodup h.nodup]
  exact fun item => ⟨hwalk.within item, fun hitem =>
    hcomplete _ item hitem (Nat.lt_succ_self _)⟩

/-- A walk ends before it has popped one node for each item and the root. -/
theorem Walking.ends (h : Hangs below inner root above rank all)
    {fuel : Nat} {popped stack : List ν} {noted : List β}
    (hwalk : Walking inner root above all popped stack noted)
    (hfuel : all.length < fuel + popped.length) :
    ∃ rest, stackWalk below inner fuel stack = some rest ∧
      (noted ++ rest).Perm all := by
  induction fuel generalizing popped stack noted with
  | zero =>
      have hcount := hwalk.nodes.length_eq
      have hopened := List.length_filterMap_le inner noted
      have hnoted := (hwalk.nodup.subperm hwalk.within).length_le
      cases stack with
      | nil => exact ⟨[], rfl, by simpa using hwalk.finished h⟩
      | cons node stack =>
          simp only [List.length_append, List.length_cons] at hcount
          omega
  | succ fuel ih =>
      cases stack with
      | nil => exact ⟨[], rfl, by simpa using hwalk.finished h⟩
      | cons node stack =>
          obtain ⟨rest, hrest, hperm⟩ := ih (hwalk.pop h) (by
            rw [List.length_append, List.length_singleton]
            omega)
          refine ⟨below node ++ rest, ?_, by rwa [← List.append_assoc]⟩
          rw [stackWalk, hrest]
          rfl

/-- The walk from the root notes every item once. -/
theorem stackWalk_perm (h : Hangs below inner root above rank all)
    {fuel : Nat} (hfuel : all.length < fuel) :
    ∃ noted, stackWalk below inner fuel [root] = some noted ∧
      noted.Perm all :=
  Walking.start.ends h hfuel

end

end TensorFS.Data
