import TensorFS.Data.Hierarchy

namespace TensorFS.Data

/-! Breadth-first search of a graph whose edges leave each node in some order:
of the walks to the goal it takes the first among the shortest. -/

/-- A walk that has come to a node. -/
structure Reach (ν ε : Type) where
  node : ν
  path : List ε
  deriving DecidableEq

namespace Reach

variable {ν ε : Type} (out : ν → List ε) (dst : ε → ν)

/-! The walks, counted by their edges and in the order of these. -/

/-- One edge of the graph. -/
def Edge (node : ν) (edge : ε) (child : ν) : Prop :=
  edge ∈ out node ∧ dst edge = child

def extend (reach : Reach ν ε) : List (Reach ν ε) :=
  (out reach.node).map fun edge => ⟨dst edge, reach.path ++ [edge]⟩

def walks (start : ν) : Nat → List (Reach ν ε)
  | 0 => [⟨start, []⟩]
  | n + 1 => (walks start n).flatMap (extend out dst)

/-- The nodes that walks of fewer edges come to. -/
def before (start : ν) (n : Nat) : List ν :=
  (List.range n).flatMap fun m => (walks out dst start m).map Reach.node

/-- The nodes seen once some walks are kept. -/
def marked (seen : List ν) (kept : List (Reach ν ε)) : List ν :=
  (kept.map Reach.node).reverse ++ seen

section

variable {out dst} {start : ν}

theorem mem_walks {n : Nat} {reach : Reach ν ε} :
    reach ∈ walks out dst start n ↔
      reach.path.length = n ∧
        Leads (Edge out dst) start reach.path reach.node := by
  induction n generalizing reach with
  | zero =>
      rw [walks, List.mem_singleton, List.length_eq_zero_iff]
      constructor
      · rintro rfl
        exact ⟨rfl, rfl⟩
      · intro h
        obtain ⟨node, path⟩ := reach
        obtain ⟨hpath, hleads⟩ := h
        cases hpath
        cases hleads
        rfl
  | succ n ih =>
      rw [walks, List.mem_flatMap]
      constructor
      · intro h
        obtain ⟨before, hbefore, hextend⟩ := h
        obtain ⟨edge, hedge, rfl⟩ := List.mem_map.mp hextend
        obtain ⟨hlength, hleads⟩ := ih.mp hbefore
        exact ⟨by simp [hlength], leads_snoc.mpr ⟨_, hleads, hedge, rfl⟩⟩
      · intro h
        obtain ⟨node, path⟩ := reach
        obtain ⟨hlength, hleads⟩ := h
        induction path using List.reverseRecOn with
        | nil => cases hlength
        | append_singleton path edge _ =>
            obtain ⟨middle, hpath, hedge, hdst⟩ := leads_snoc.mp hleads
            refine ⟨⟨middle, path⟩, ih.mpr ⟨?_, hpath⟩, ?_⟩
            · simpa using hlength
            · cases hdst
              exact List.mem_map.mpr ⟨edge, hedge, rfl⟩

theorem mem_before {n : Nat} {node : ν} :
    node ∈ before out dst start n ↔
      ∃ m < n, node ∈ (walks out dst start m).map Reach.node := by
  simp only [before, List.mem_flatMap, List.mem_range]

theorem mem_before_succ {n : Nat} {node : ν} :
    node ∈ before out dst start (n + 1) ↔
      node ∈ (walks out dst start n).map Reach.node ∨
        node ∈ before out dst start n := by
  rw [before, List.range_succ, List.flatMap_append, List.mem_append,
    List.flatMap_singleton, or_comm]
  rfl

/-- An edge leads one level further at most. -/
theorem mem_before_of_edge {n : Nat} {node : ν} {edge : ε}
    (hnode : node ∈ before out dst start n) (hedge : edge ∈ out node) :
    dst edge ∈ before out dst start (n + 1) := by
  obtain ⟨m, hlt, hmem⟩ := mem_before.mp hnode
  obtain ⟨reach, hreach, rfl⟩ := List.mem_map.mp hmem
  refine mem_before.mpr ⟨m + 1, Nat.succ_lt_succ hlt, ?_⟩
  exact List.mem_map.mpr ⟨_, List.mem_flatMap.mpr
    ⟨reach, hreach, List.mem_map.mpr ⟨edge, hedge, rfl⟩⟩, rfl⟩

theorem mem_marked {seen : List ν} {kept : List (Reach ν ε)} {node : ν} :
    node ∈ marked seen kept ↔ node ∈ kept.map Reach.node ∨ node ∈ seen := by
  rw [marked, List.mem_append, List.mem_reverse]

theorem marked_cons {seen : List ν} {reach : Reach ν ε}
    {kept : List (Reach ν ε)} :
    marked seen (reach :: kept) = marked (reach.node :: seen) kept := by
  simp [marked]

theorem marked_append {seen : List ν} {left right : List (Reach ν ε)} :
    marked seen (left ++ right) = marked (marked seen left) right := by
  simp [marked]

end

variable [DecidableEq ν]

/-! The search. -/

/-- The edges of one node: an unseen node is marked and queued, and the goal
ends the search. -/
def visit (goal : ν) (path : List ε) :
    List ν → List (Reach ν ε) → List ε →
      Sum (List ε) (List ν × List (Reach ν ε))
  | seen, queue, [] => .inr (seen, queue)
  | seen, queue, edge :: edges =>
      if dst edge ∈ seen then visit goal path seen queue edges
      else if dst edge = goal then .inl (path ++ [edge])
      else
        visit goal path (dst edge :: seen)
          (queue ++ [⟨dst edge, path ++ [edge]⟩]) edges

/-- Every round takes the oldest node off the queue. -/
def search (goal : ν) :
    Nat → List ν → List (Reach ν ε) → Option (List ε)
  | 0, _, _ => none
  | _ + 1, _, [] => none
  | rounds + 1, seen, reach :: queue =>
      match visit dst goal reach.path seen queue (out reach.node) with
      | .inl path => some path
      | .inr (seen, queue) => search goal rounds seen queue

def isAt (goal : ν) (reach : Reach ν ε) : Bool := reach.node = goal

/-- The first walk to the goal among those of the fewest edges. -/
def IsFirst (start goal : ν) (path : List ε) : Prop :=
  (walks out dst start path.length).find? (isAt goal) = some ⟨goal, path⟩ ∧
    ∀ n < path.length, ∀ reach ∈ walks out dst start n, reach.node ≠ goal

variable {out dst} {start goal : ν}

@[simp] theorem isAt_iff {reach : Reach ν ε} :
    isAt goal reach = true ↔ reach.node = goal := by
  simp [isAt]

theorem IsFirst.leads {path : List ε} (h : IsFirst out dst start goal path) :
    Leads (Edge out dst) start path goal :=
  (mem_walks.mp (List.mem_of_find?_eq_some h.1)).2

/-- There is one first walk at most. -/
theorem IsFirst.unique {left right : List ε}
    (hleft : IsFirst out dst start goal left)
    (hright : IsFirst out dst start goal right) : left = right := by
  have hnot : ∀ {long short : List ε}, IsFirst out dst start goal long →
      IsFirst out dst start goal short → ¬ short.length < long.length :=
    fun hlong hshort hlt =>
      hlong.2 _ hlt _ (List.mem_of_find?_eq_some hshort.1) rfl
  have hlength : left.length = right.length :=
    le_antisymm (not_lt.mp (hnot hleft hright)) (not_lt.mp (hnot hright hleft))
  have hfound := hleft.1
  rw [hlength, hright.1] at hfound
  cases hfound
  rfl

/-! Keeping the first walk to each node. -/

/-- The walks to nodes not seen before them. -/
def fresh : List ν → List (Reach ν ε) → List (Reach ν ε)
  | _, [] => []
  | seen, reach :: rest =>
      if reach.node ∈ seen then fresh seen rest
      else reach :: fresh (reach.node :: seen) rest

/-- Only which nodes were seen matters. -/
theorem fresh_congr {seen seen' : List ν} {rest : List (Reach ν ε)}
    (h : ∀ node, node ∈ seen ↔ node ∈ seen') :
    fresh seen rest = fresh seen' rest := by
  induction rest generalizing seen seen' with
  | nil => rfl
  | cons reach rest ih =>
      have hcons : ∀ node, node ∈ reach.node :: seen ↔
          node ∈ reach.node :: seen' := by
        intro node
        rw [List.mem_cons, List.mem_cons, h]
      simp only [fresh, h, ih h, ih hcons]

theorem fresh_append {seen : List ν} {left right : List (Reach ν ε)} :
    fresh seen (left ++ right) =
      fresh seen left ++ fresh (marked seen (fresh seen left)) right := by
  induction left generalizing seen with
  | nil => rfl
  | cons reach left ih =>
      rw [List.cons_append, fresh, fresh]
      split
      · exact ih
      · rw [ih, marked_cons, List.cons_append]

theorem fresh_eq_nil {seen : List ν} {rest : List (Reach ν ε)}
    (h : ∀ reach ∈ rest, reach.node ∈ seen) : fresh seen rest = [] := by
  induction rest with
  | nil => rfl
  | cons reach rest ih =>
      rw [fresh, if_pos (h _ List.mem_cons_self)]
      exact ih fun other hother => h other (List.mem_cons_of_mem _ hother)

theorem mem_of_mem_fresh {seen : List ν} {rest : List (Reach ν ε)}
    {reach : Reach ν ε} (h : reach ∈ fresh seen rest) : reach ∈ rest := by
  induction rest generalizing seen with
  | nil => exact h
  | cons head rest ih =>
      rw [fresh] at h
      split at h
      · exact List.mem_cons_of_mem _ (ih h)
      · rcases List.mem_cons.mp h with rfl | h
        · exact List.mem_cons_self
        · exact List.mem_cons_of_mem _ (ih h)

/-- Every node of the walks ends up seen. -/
theorem mem_marked_fresh {seen : List ν} {rest : List (Reach ν ε)} {node : ν} :
    node ∈ marked seen (fresh seen rest) ↔
      node ∈ rest.map Reach.node ∨ node ∈ seen := by
  induction rest generalizing seen with
  | nil => simp [fresh, marked]
  | cons reach rest ih =>
      rw [fresh, List.map_cons, List.mem_cons]
      split
      · rename_i hseen
        rw [ih]
        constructor
        · rintro (h | h)
          · exact .inl (.inr h)
          · exact .inr h
        · rintro ((rfl | h) | h)
          · exact .inr hseen
          · exact .inl h
          · exact .inr h
      · rw [marked_cons, ih, List.mem_cons]
        tauto

theorem nodup_fresh {seen : List ν} {rest : List (Reach ν ε)} :
    ((fresh seen rest).map Reach.node).Nodup ∧
      ∀ reach ∈ fresh seen rest, reach.node ∉ seen := by
  induction rest generalizing seen with
  | nil => exact ⟨List.nodup_nil, fun _ h => by cases h⟩
  | cons reach rest ih =>
      rw [fresh]
      split
      · exact ih
      · rename_i hunseen
        obtain ⟨hnodup, hnew⟩ := @ih (reach.node :: seen)
        constructor
        · rw [List.map_cons, List.nodup_cons]
          refine ⟨fun hmem => ?_, hnodup⟩
          obtain ⟨other, hother, hsame⟩ := List.mem_map.mp hmem
          exact hnew other hother (hsame ▸ List.mem_cons_self)
        · intro other hother
          rcases List.mem_cons.mp hother with rfl | hother
          · exact hunseen
          · exact fun hseen =>
              hnew other hother (List.mem_cons_of_mem _ hseen)

/-- What is looked for at an unseen node is found at the first walk there. -/
theorem find?_fresh {p : Reach ν ε → Bool} {seen : List ν}
    {rest : List (Reach ν ε)}
    (hnode : ∀ left right : Reach ν ε, left.node = right.node →
      p left = p right)
    (hseen : ∀ reach : Reach ν ε, reach.node ∈ seen → p reach = false) :
    (fresh seen rest).find? p = rest.find? p := by
  induction rest generalizing seen with
  | nil => rfl
  | cons reach rest ih =>
      rw [fresh]
      split
      · rename_i hmem
        rw [ih hseen, List.find?_cons_of_neg (by simp [hseen reach hmem])]
      · cases hp : p reach with
        | true => rw [List.find?_cons_of_pos hp, List.find?_cons_of_pos hp]
        | false =>
            rw [List.find?_cons_of_neg (by simp [hp]),
              List.find?_cons_of_neg (by simp [hp])]
            refine ih fun other hother => ?_
            rcases List.mem_cons.mp hother with hsame | hother
            · rw [hnode other reach hsame, hp]
            · exact hseen other hother

/-- Walks that are not the first to their node lead nowhere new. -/
theorem fresh_flatMap {seen done : List ν} {rest : List (Reach ν ε)}
    (h : ∀ node ∈ seen, ∀ edge ∈ out node, dst edge ∈ done) :
    fresh done ((fresh seen rest).flatMap (extend out dst)) =
      fresh done (rest.flatMap (extend out dst)) := by
  induction rest generalizing seen done with
  | nil => rfl
  | cons reach rest ih =>
      rw [fresh]
      split
      · rename_i hmem
        have hnone : fresh done (extend out dst reach) = [] := by
          refine fresh_eq_nil fun other hother => ?_
          obtain ⟨edge, hedge, rfl⟩ := List.mem_map.mp hother
          exact h _ hmem edge hedge
        rw [List.flatMap_cons, fresh_append, hnone]
        exact ih h
      · rw [List.flatMap_cons, List.flatMap_cons, fresh_append, fresh_append]
        refine congrArg _ (ih fun node hnode edge hedge => ?_)
        rw [mem_marked_fresh]
        rcases List.mem_cons.mp hnode with rfl | hnode
        · exact .inl (List.mem_map.mpr
            ⟨_, List.mem_map.mpr ⟨edge, hedge, rfl⟩, rfl⟩)
        · exact .inr (h node hnode edge hedge)

/-! One level of the search. -/

theorem visit_eq {path : List ε} {seen : List ν} {queue : List (Reach ν ε)}
    {edges : List ε} (hgoal : goal ∉ seen) :
    visit dst goal path seen queue edges =
      match (fresh seen (edges.map fun edge =>
          (⟨dst edge, path ++ [edge]⟩ : Reach ν ε))).find? (isAt goal) with
      | some found => .inl found.path
      | none => .inr (marked seen (fresh seen (edges.map fun edge =>
          ⟨dst edge, path ++ [edge]⟩)), queue ++ fresh seen (edges.map
            fun edge => ⟨dst edge, path ++ [edge]⟩)) := by
  induction edges generalizing seen queue with
  | nil => simp [visit, fresh, marked]
  | cons edge edges ih =>
      rw [visit, List.map_cons, fresh]
      split
      · exact ih hgoal
      · split
        · rename_i hfound
          rw [List.find?_cons_of_pos (isAt_iff.mpr hfound)]
        · rename_i hother
          have hunseen : goal ∉ dst edge :: seen := by
            rw [List.mem_cons, not_or]
            exact ⟨Ne.symm hother, hgoal⟩
          rw [ih hunseen, List.find?_cons_of_neg (by simpa using hother),
            marked_cons]
          simp only [List.append_assoc, List.singleton_append]

theorem visit_extend {reach : Reach ν ε} {seen : List ν}
    {queue : List (Reach ν ε)} (hgoal : goal ∉ seen) :
    visit dst goal reach.path seen queue (out reach.node) =
      match (fresh seen (extend out dst reach)).find? (isAt goal) with
      | some found => .inl found.path
      | none => .inr (marked seen (fresh seen (extend out dst reach)),
          queue ++ fresh seen (extend out dst reach)) :=
  visit_eq hgoal

theorem not_mem_marked {seen : List ν} {kept : List (Reach ν ε)}
    (hgoal : goal ∉ seen) (hnone : kept.find? (isAt goal) = none) :
    goal ∉ marked seen kept := by
  rw [mem_marked, not_or]
  refine ⟨fun hmem => ?_, hgoal⟩
  obtain ⟨reach, hreach, hnode⟩ := List.mem_map.mp hmem
  exact List.find?_eq_none.mp hnone reach hreach (isAt_iff.mpr hnode)

/-- The rounds that empty the queue of the nodes it has now. -/
theorem search_level {rounds : Nat} {seen : List ν}
    {queue next : List (Reach ν ε)} (hgoal : goal ∉ seen) :
    search out dst goal (queue.length + rounds) seen (queue ++ next) =
      match (fresh seen (queue.flatMap (extend out dst))).find? (isAt goal) with
      | some found => some found.path
      | none => search out dst goal rounds
          (marked seen (fresh seen (queue.flatMap (extend out dst))))
          (next ++ fresh seen (queue.flatMap (extend out dst))) := by
  induction queue generalizing seen next with
  | nil => simp [fresh, marked]
  | cons reach queue ih =>
      rw [List.length_cons, Nat.add_right_comm, List.cons_append, search,
        visit_extend hgoal, List.flatMap_cons, fresh_append, List.find?_append]
      cases hfind : (fresh seen (extend out dst reach)).find? (isAt goal) with
      | some found => rfl
      | none =>
          simp only [List.append_assoc]
          rw [ih (not_mem_marked hgoal hfind), Option.none_or, marked_append,
            List.append_assoc]

/-! The levels of the search are the first walks of each length. -/

/-- The state of the search when a level begins. -/
structure AtLevel (out : ν → List ε) (dst : ε → ν) (start goal : ν) (n : Nat)
    (seen : List ν) (queue : List (Reach ν ε)) : Prop where
  queue_eq : queue =
    fresh (before out dst start n) (walks out dst start n)
  seen_iff : ∀ node, node ∈ seen ↔ node ∈ before out dst start (n + 1)
  goal_unseen : goal ∉ seen

namespace AtLevel

variable {n : Nat} {seen : List ν} {queue : List (Reach ν ε)}

theorem start_of (h : start ≠ goal) :
    AtLevel out dst start goal 0 [start] [⟨start, []⟩] where
  queue_eq := by simp [before, walks, fresh]
  seen_iff := by simp [before, walks]
  goal_unseen := by simpa using Ne.symm h

theorem fresh_next (h : AtLevel out dst start goal n seen queue) :
    fresh seen (queue.flatMap (extend out dst)) =
      fresh (before out dst start (n + 1)) (walks out dst start (n + 1)) := by
  rw [fresh_congr h.seen_iff, h.queue_eq]
  exact fresh_flatMap fun node hnode edge hedge =>
    mem_before_of_edge hnode hedge

theorem next (h : AtLevel out dst start goal n seen queue)
    (hnone : (fresh seen (queue.flatMap (extend out dst))).find? (isAt goal) =
      none) :
    AtLevel out dst start goal (n + 1)
      (marked seen (fresh seen (queue.flatMap (extend out dst))))
      (fresh seen (queue.flatMap (extend out dst))) where
  queue_eq := h.fresh_next
  seen_iff := by
    intro node
    have hcongr : node ∈ marked seen (fresh seen
        (queue.flatMap (extend out dst))) ↔
        node ∈ marked (before out dst start (n + 1))
          (fresh (before out dst start (n + 1))
            (walks out dst start (n + 1))) := by
      rw [mem_marked, mem_marked, h.fresh_next, h.seen_iff]
    rw [hcongr, mem_marked_fresh]
    exact mem_before_succ.symm
  goal_unseen := not_mem_marked h.goal_unseen hnone

/-- The goal is looked for in the walks of one more edge. -/
theorem find?_next (h : AtLevel out dst start goal n seen queue) :
    (fresh seen (queue.flatMap (extend out dst))).find? (isAt goal) =
      (walks out dst start (n + 1)).find? (isAt goal) := by
  rw [h.fresh_next]
  refine find?_fresh (fun left right hsame => by simp [isAt, hsame])
    fun reach hreach => ?_
  refine Bool.eq_false_iff.mpr fun hat => h.goal_unseen ?_
  rw [h.seen_iff, ← isAt_iff.mp hat]
  exact hreach

theorem isFirst (h : AtLevel out dst start goal n seen queue)
    {found : Reach ν ε}
    (hfind : (walks out dst start (n + 1)).find? (isAt goal) = some found) :
    IsFirst out dst start goal found.path := by
  have hlength := (mem_walks.mp (List.mem_of_find?_eq_some hfind)).1
  have hnode := isAt_iff.mp (List.find?_some hfind)
  rw [IsFirst, hlength, hfind, ← hnode]
  refine ⟨rfl, fun m hlt reach hreach hsame => h.goal_unseen ?_⟩
  rw [h.seen_iff]
  exact mem_before.mpr ⟨m, hlt,
    List.mem_map.mpr ⟨reach, hreach, hsame.trans hnode⟩⟩

/-- Past an empty level there is nothing new. -/
theorem closed (h : AtLevel out dst start goal n seen []) (m : Nat) :
    ∀ reach ∈ walks out dst start m, reach.node ∈ before out dst start n := by
  have hlevel : ∀ node, node ∈ before out dst start (n + 1) →
      node ∈ before out dst start n := by
    intro node hnode
    have hempty := @mem_marked_fresh _ _ _ (before out dst start n)
      (walks out dst start n) node
    rw [← h.queue_eq] at hempty
    rw [mem_before_succ, ← hempty] at hnode
    simpa [marked] using hnode
  induction m with
  | zero =>
      intro reach hreach
      refine hlevel _ (mem_before.mpr ⟨0, Nat.succ_pos n, ?_⟩)
      exact List.mem_map_of_mem hreach
  | succ m ih =>
      intro reach hreach
      obtain ⟨shorter, hshorter, hextend⟩ := List.mem_flatMap.mp hreach
      obtain ⟨edge, hedge, rfl⟩ := List.mem_map.mp hextend
      exact hlevel _ (mem_before_of_edge (ih shorter hshorter) hedge)

end AtLevel

/-! The whole search. -/

section

variable {nodes : Finset ν}

/-- The nodes a level adds are paid for by those left to see. -/
theorem card_unseen {seen : List ν} {kept : List (Reach ν ε)}
    (hnodup : (kept.map Reach.node).Nodup)
    (hnew : ∀ reach ∈ kept, reach.node ∉ seen)
    (hin : ∀ reach ∈ kept, reach.node ∈ nodes) :
    kept.length + (nodes \ (marked seen kept).toFinset).card =
      (nodes \ seen.toFinset).card := by
  have hsub : (kept.map Reach.node).toFinset ⊆ nodes \ seen.toFinset := by
    intro node hnode
    obtain ⟨reach, hreach, rfl⟩ := List.mem_map.mp (List.mem_toFinset.mp hnode)
    rw [Finset.mem_sdiff, List.mem_toFinset]
    exact ⟨hin reach hreach, hnew reach hreach⟩
  have hsplit : nodes \ (marked seen kept).toFinset =
      (nodes \ seen.toFinset) \ (kept.map Reach.node).toFinset := by
    ext node
    simp only [Finset.mem_sdiff, List.mem_toFinset, mem_marked]
    tauto
  have hcard : (kept.map Reach.node).toFinset.card = kept.length := by
    rw [List.toFinset_card_of_nodup hnodup, List.length_map]
  have hle := Finset.card_le_card hsub
  rw [hsplit, Finset.card_sdiff_of_subset hsub]
  omega

/-- From a level on, with a round for each node queued or still unseen. -/
theorem search_from (hnodes : ∀ node, ∀ edge ∈ out node,
      dst edge ∈ nodes) {n rounds : Nat} {seen : List ν}
    {queue : List (Reach ν ε)} (h : AtLevel out dst start goal n seen queue)
    (hrounds : queue.length + (nodes \ seen.toFinset).card ≤ rounds) :
    (∃ path, search out dst goal rounds seen queue = some path ∧
        IsFirst out dst start goal path) ∨
      search out dst goal rounds seen queue = none ∧
        ∀ path, ¬ Leads (Edge out dst) start path goal := by
  induction rounds using Nat.strong_induction_on generalizing n seen queue with
  | _ rounds ih =>
      cases queue with
      | nil =>
          refine .inr ⟨by cases rounds <;> rfl, fun path hleads => ?_⟩
          have hmem := h.closed path.length ⟨goal, path⟩
            (mem_walks.mpr ⟨rfl, hleads⟩)
          exact h.goal_unseen ((h.seen_iff _).mpr
            (mem_before_succ.mpr (.inr hmem)))
      | cons reach queue =>
          obtain ⟨rest, rfl⟩ := Nat.exists_eq_add_of_le
            (le_trans (Nat.le_add_right _ _) hrounds)
          have hlevel := @search_level _ _ out dst _ goal rest seen
            (reach :: queue) [] h.goal_unseen
          rw [List.append_nil, List.nil_append] at hlevel
          rw [hlevel]
          cases hfind : (fresh seen ((reach :: queue).flatMap
              (extend out dst))).find? (isAt goal) with
          | some found =>
              rw [h.find?_next] at hfind
              exact .inl ⟨found.path, rfl, h.isFirst hfind⟩
          | none =>
              have hfresh := @nodup_fresh _ ε _ seen
                ((reach :: queue).flatMap (extend out dst))
              have hin : ∀ other ∈ fresh seen ((reach :: queue).flatMap
                  (extend out dst)), other.node ∈ nodes := by
                intro other hother
                obtain ⟨shorter, _, hextend⟩ :=
                  List.mem_flatMap.mp (mem_of_mem_fresh hother)
                obtain ⟨edge, hedge, rfl⟩ := List.mem_map.mp hextend
                exact hnodes _ edge hedge
              have hcard := card_unseen hfresh.1 hfresh.2 hin
              refine ih rest (by simp) (h.next hfind) ?_
              omega

/-- The search finds the first of the shortest walks, if there is a walk. -/
theorem search_spec (hnodes : ∀ node, ∀ edge ∈ out node,
      dst edge ∈ nodes) (hne : start ≠ goal) {rounds : Nat}
    (hrounds : nodes.card < rounds) :
    (∃ path, search out dst goal rounds [start] [⟨start, []⟩] = some path ∧
        IsFirst out dst start goal path) ∨
      search out dst goal rounds [start] [⟨start, []⟩] = none ∧
        ∀ path, ¬ Leads (Edge out dst) start path goal := by
  refine search_from hnodes (AtLevel.start_of hne) ?_
  have hle := Finset.card_le_card
    (Finset.sdiff_subset (s := nodes) (t := [start].toFinset))
  rw [List.length_singleton]
  omega

end

end Reach

end TensorFS.Data
