import Mathlib

namespace TensorFS.Data

/-! Hierarchies of named edges: an inner node hangs from one edge, a leaf from
any number of them, and whatever has an edge below it is reached from a root. -/

variable {ν α : Type}

/-- The named edges of the path lead from the first node to the second. -/
def Leads (edge : ν → α → ν → Prop) : ν → List α → ν → Prop
  | start, [], stop => start = stop
  | start, name :: path, stop =>
      ∃ child, edge start name child ∧ Leads edge child path stop

section

variable {edge edge' : ν → α → ν → Prop} {start stop node child : ν}
  {front back path : List α} {name : α}

@[simp] theorem leads_nil : Leads edge start [] stop ↔ start = stop := Iff.rfl

theorem leads_append :
    Leads edge start (front ++ back) stop ↔
      ∃ middle, Leads edge start front middle ∧
        Leads edge middle back stop := by
  induction front generalizing start with
  | nil => simp
  | cons name front ih =>
      simp only [List.cons_append, Leads, ih]
      constructor
      · rintro ⟨child, hedge, middle, hfront, hback⟩
        exact ⟨middle, ⟨child, hedge, hfront⟩, hback⟩
      · rintro ⟨middle, ⟨child, hedge, hfront⟩, hback⟩
        exact ⟨child, hedge, middle, hfront, hback⟩

theorem leads_snoc :
    Leads edge start (path ++ [name]) stop ↔
      ∃ node, Leads edge start path node ∧ edge node name stop := by
  simp [leads_append, Leads]

theorem Leads.mono (h : ∀ node name child, edge node name child →
    edge' node name child) (hleads : Leads edge start path stop) :
    Leads edge' start path stop := by
  induction path generalizing start with
  | nil => exact hleads
  | cons name path ih =>
      obtain ⟨child, hedge, hrest⟩ := hleads
      exact ⟨child, h _ _ _ hedge, ih hrest⟩

end

structure Hierarchy (edge : ν → α → ν → Prop) (inner isRoot : ν → Prop) :
    Prop where
  keyed : ∀ node name left right, edge node name left →
    edge node name right → left = right
  parent : ∀ node name child, edge node name child → inner node
  single : ∀ node name node' name' child, inner child →
    edge node name child → edge node' name' child →
    node = node' ∧ name = name'
  rootInner : ∀ root, isRoot root → inner root
  rootFree : ∀ root, isRoot root → ∀ node name, ¬ edge node name root
  reached : ∀ node name child, edge node name child →
    ∃ root path, isRoot root ∧ Leads edge root path node

namespace Hierarchy

variable {edge edge' : ν → α → ν → Prop} {inner inner' isRoot isRoot' : ν → Prop}

theorem stop_unique (h : Hierarchy edge inner isRoot) {start left right : ν}
    {path : List α} (hleft : Leads edge start path left)
    (hright : Leads edge start path right) : left = right := by
  induction path generalizing start with
  | nil => exact hleft.symm.trans hright
  | cons name path ih =>
      obtain ⟨child, hedge, hrest⟩ := hleft
      obtain ⟨child', hedge', hrest'⟩ := hright
      cases h.keyed _ _ _ _ hedge hedge'
      exact ih hrest hrest'

/-- Only one path leads to an inner node, and from one root. -/
theorem path_unique (h : Hierarchy edge inner isRoot) {root root' node : ν}
    {path path' : List α} (hroot : isRoot root) (hroot' : isRoot root')
    (hinner : inner node) (hleads : Leads edge root path node)
    (hleads' : Leads edge root' path' node) : root = root' ∧ path = path' := by
  induction path using List.reverseRecOn generalizing path' node with
  | nil =>
      cases hleads
      induction path' using List.reverseRecOn with
      | nil => exact ⟨hleads'.symm, rfl⟩
      | append_singleton path' name _ =>
          obtain ⟨above, _, hedge⟩ := leads_snoc.mp hleads'
          exact absurd hedge (h.rootFree root hroot above name)
  | append_singleton path name ih =>
      obtain ⟨above, hfront, hedge⟩ := leads_snoc.mp hleads
      induction path' using List.reverseRecOn with
      | nil =>
          cases hleads'
          exact absurd hedge (h.rootFree root' hroot' above name)
      | append_singleton path' name' _ =>
          obtain ⟨above', hfront', hedge'⟩ := leads_snoc.mp hleads'
          obtain ⟨rfl, rfl⟩ := h.single _ _ _ _ _ hinner hedge hedge'
          obtain ⟨rfl, rfl⟩ := ih (h.parent _ _ _ hedge) hfront hfront'
          exact ⟨rfl, rfl⟩

/-- A node that no edge leads to, and that is no root, has none below it. -/
theorem childless (h : Hierarchy edge inner isRoot) {node : ν}
    (hroot : ¬ isRoot node) (hfree : ∀ above name, ¬ edge above name node)
    (name : α) (child : ν) : ¬ edge node name child := by
  intro hedge
  obtain ⟨root, path, hisRoot, hleads⟩ := h.reached _ _ _ hedge
  induction path using List.reverseRecOn with
  | nil =>
      cases hleads
      exact hroot hisRoot
  | append_singleton path last _ =>
      obtain ⟨above, _, hlast⟩ := leads_snoc.mp hleads
      exact hfree above last hlast

/-- Edges between inner nodes lead away from the root, so none of them lie on
a circle. -/
theorem exists_rank (h : Hierarchy edge inner isRoot) :
    ∃ rank : ν → Nat, ∀ node name child, edge node name child →
      inner child → rank node < rank child := by
  classical
  let Reached (node : ν) (path : List α) : Prop :=
    ∃ root, isRoot root ∧ Leads edge root path node
  let rank (node : ν) : Nat :=
    if hpath : ∃ path, Reached node path then hpath.choose.length else 0
  have hrank : ∀ node path, inner node → Reached node path →
      rank node = path.length := by
    intro node path hinner hpath
    have hexists : ∃ path, Reached node path := ⟨path, hpath⟩
    obtain ⟨root, hroot, hleads⟩ := hpath
    obtain ⟨root', hroot', hleads'⟩ := hexists.choose_spec
    obtain ⟨_, hsame⟩ :=
      h.path_unique hroot' hroot hinner hleads' hleads
    simp only [rank, dif_pos hexists, hsame]
  refine ⟨rank, fun node name child hedge hinner => ?_⟩
  obtain ⟨root, path, hroot, hleads⟩ := h.reached _ _ _ hedge
  rw [hrank node path (h.parent _ _ _ hedge) ⟨root, hroot, hleads⟩,
    hrank child (path ++ [name]) hinner
      ⟨root, hroot, leads_snoc.mpr ⟨node, hleads, hedge⟩⟩]
  simp

/-! What keeps a hierarchy. -/

/-- The nodes and the roots may change as long as the edges still start at
inner nodes below roots. -/
theorem relabel (h : Hierarchy edge inner isRoot)
    (hinner : ∀ node, inner' node → inner node ∨
      ∀ above name, ¬ edge above name node)
    (hparent : ∀ node name child, edge node name child → inner' node)
    (hroots : ∀ root, isRoot root → isRoot' root)
    (hinnerRoot : ∀ root, isRoot' root → inner' root)
    (hfree : ∀ root, isRoot' root → ∀ node name, ¬ edge node name root) :
    Hierarchy edge inner' isRoot' where
  keyed := h.keyed
  parent := hparent
  single node name node' name' child hchild hedge hedge' := by
    rcases hinner child hchild with hold | hnone
    · exact h.single _ _ _ _ _ hold hedge hedge'
    · exact absurd hedge (hnone node name)
  rootInner := hinnerRoot
  rootFree := hfree
  reached node name child hedge := by
    obtain ⟨root, path, hroot, hleads⟩ := h.reached _ _ _ hedge
    exact ⟨root, path, hroots root hroot, hleads⟩

/-- One more edge, to a leaf or to a node no edge leads to. -/
theorem grow (h : Hierarchy edge inner isRoot) {root node child : ν}
    {path : List α} {name : α} (hroot : isRoot root)
    (hleads : Leads edge root path node) (hnode : inner node)
    (hfree : ∀ other, ¬ edge node name other)
    (hchild : inner child → ∀ above name, ¬ edge above name child)
    (hchildRoot : ¬ isRoot child)
    (hedges : ∀ above label below, edge' above label below ↔
      edge above label below ∨ above = node ∧ label = name ∧ below = child) :
    Hierarchy edge' inner isRoot := by
  have hmono : ∀ above label below, edge above label below →
      edge' above label below :=
    fun above label below hedge => (hedges above label below).mpr (.inl hedge)
  constructor
  · intro above label left right hleft hright
    rcases (hedges _ _ _).mp hleft with hleft | ⟨rfl, rfl, rfl⟩
    · rcases (hedges _ _ _).mp hright with hright | ⟨rfl, rfl, rfl⟩
      · exact h.keyed _ _ _ _ hleft hright
      · exact absurd hleft (hfree left)
    · rcases (hedges _ _ _).mp hright with hright | ⟨_, _, rfl⟩
      · exact absurd hright (hfree right)
      · rfl
  · intro above label below hedge
    rcases (hedges _ _ _).mp hedge with hedge | ⟨rfl, rfl, rfl⟩
    · exact h.parent _ _ _ hedge
    · exact hnode
  · intro above label above' label' below hinner hedge hedge'
    rcases (hedges _ _ _).mp hedge with hedge | ⟨rfl, rfl, rfl⟩
    · rcases (hedges _ _ _).mp hedge' with hedge' | ⟨rfl, rfl, rfl⟩
      · exact h.single _ _ _ _ _ hinner hedge hedge'
      · exact absurd hedge (hchild hinner _ _)
    · rcases (hedges _ _ _).mp hedge' with hedge' | ⟨rfl, rfl, _⟩
      · exact absurd hedge' (hchild hinner _ _)
      · exact ⟨rfl, rfl⟩
  · exact h.rootInner
  · intro other hother above label hedge
    rcases (hedges _ _ _).mp hedge with hedge | ⟨rfl, rfl, rfl⟩
    · exact h.rootFree other hother above label hedge
    · exact hchildRoot hother
  · intro above label below hedge
    rcases (hedges _ _ _).mp hedge with hedge | ⟨rfl, rfl, rfl⟩
    · obtain ⟨other, front, hother, hfront⟩ := h.reached _ _ _ hedge
      exact ⟨other, front, hother, hfront.mono hmono⟩
    · exact ⟨root, path, hroot, hleads.mono hmono⟩

/-- One edge less, when nothing hangs below it. -/
theorem prune (h : Hierarchy edge inner isRoot) {node : ν} {name : α}
    (hleaf : ∀ child, edge node name child →
      ∀ label below, ¬ edge child label below)
    (hedges : ∀ above label below, edge' above label below ↔
      edge above label below ∧ ¬ (above = node ∧ label = name)) :
    Hierarchy edge' inner isRoot := by
  have hold : ∀ above label below, edge' above label below →
      edge above label below :=
    fun above label below hedge => ((hedges above label below).mp hedge).1
  have hleads : ∀ path (root above : ν), Leads edge root path above →
      (∃ label below, edge above label below) →
      Leads edge' root path above := by
    intro path root
    induction path using List.reverseRecOn with
    | nil => exact fun above hleads _ => hleads
    | append_singleton path last ih =>
        intro above hfront hbelow
        obtain ⟨middle, hmiddle, hlast⟩ := leads_snoc.mp hfront
        refine leads_snoc.mpr ⟨middle, ih middle hmiddle ⟨_, _, hlast⟩, ?_⟩
        refine (hedges _ _ _).mpr ⟨hlast, ?_⟩
        rintro ⟨rfl, rfl⟩
        obtain ⟨label, below, hedge⟩ := hbelow
        exact hleaf above hlast label below hedge
  constructor
  · intro above label left right hleft hright
    exact h.keyed _ _ _ _ (hold _ _ _ hleft) (hold _ _ _ hright)
  · exact fun above label below hedge => h.parent _ _ _ (hold _ _ _ hedge)
  · intro above label above' label' below hinner hedge hedge'
    exact h.single _ _ _ _ _ hinner (hold _ _ _ hedge) (hold _ _ _ hedge')
  · exact h.rootInner
  · intro root hroot above label hedge
    exact h.rootFree root hroot above label (hold _ _ _ hedge)
  · intro above label below hedge
    have hedge' := hold _ _ _ hedge
    obtain ⟨root, path, hroot, hpath⟩ := h.reached _ _ _ hedge'
    exact ⟨root, path, hroot, hleads path root above hpath ⟨_, _, hedge'⟩⟩

/-- What an edge leads to is inner as soon as something hangs below it. -/
theorem inner_of_leads (h : Hierarchy edge inner isRoot) {node stop : ν}
    {path : List α} (hstop : inner stop) (hleads : Leads edge node path stop) :
    inner node := by
  cases path with
  | nil => exact hleads ▸ hstop
  | cons name path =>
      obtain ⟨child, hedge, _⟩ := hleads
      exact h.parent _ _ _ hedge

section

variable {root node child node' : ν} {name name' : α} {path path' : List α}

/-- Paths that do not pass through the edge that moves stay as they are. -/
theorem leads_aside (h : Hierarchy edge inner isRoot) (hroot : isRoot root)
    (hleads : Leads edge root path node)
    (hedges : ∀ above label below, edge above label below →
      ¬ (above = node ∧ label = name) → edge' above label below)
    {other stop : ν} {front : List α} (hother : isRoot other)
    (hfront : Leads edge other front stop)
    (haside : other = root → ¬ path ++ [name] <+: front) :
    Leads edge' other front stop := by
  induction front using List.reverseRecOn generalizing stop with
  | nil => exact hfront
  | append_singleton front label ih =>
      obtain ⟨above, hmiddle, hedge⟩ := leads_snoc.mp hfront
      refine leads_snoc.mpr ⟨above, ih hmiddle fun heq hinit => ?_, ?_⟩
      · exact haside heq (hinit.trans (List.prefix_append front [label]))
      · refine hedges _ _ _ hedge ?_
        rintro ⟨rfl, rfl⟩
        obtain ⟨hsame, hpath⟩ := h.path_unique hother hroot
          (h.parent _ _ _ hedge) hmiddle hleads
        exact haside hsame (by rw [hpath])

/-- Below the edge that moves nothing moves. -/
theorem leads_below (h : Hierarchy edge inner isRoot) (hroot : isRoot root)
    (hleads : Leads edge root path node) (hedge : edge node name child)
    (hedges : ∀ above label below, edge above label below →
      ¬ (above = node ∧ label = name) → edge' above label below)
    {stop : ν} {rest : List α} (hrest : Leads edge child rest stop) :
    Leads edge' child rest stop := by
  induction rest using List.reverseRecOn generalizing stop with
  | nil => exact hrest
  | append_singleton rest label ih =>
      obtain ⟨above, hmiddle, hlast⟩ := leads_snoc.mp hrest
      refine leads_snoc.mpr ⟨above, ih hmiddle, hedges _ _ _ hlast ?_⟩
      rintro ⟨rfl, rfl⟩
      have hround : Leads edge root (path ++ [label] ++ rest) above :=
        leads_append.mpr ⟨child, leads_snoc.mpr ⟨above, hleads, hedge⟩, hmiddle⟩
      have hlength := congrArg List.length
        (h.path_unique hroot hroot (h.parent _ _ _ hlast) hround hleads).2
      simp only [List.length_append, List.length_singleton] at hlength
      omega

/-- An edge hung elsewhere, under a free name outside what hangs below it. -/
theorem move (h : Hierarchy edge inner isRoot) (hroot : isRoot root)
    (hleads : Leads edge root path node) (hedge : edge node name child)
    (hleads' : Leads edge root path' node') (hnode' : inner node')
    (hfree : ∀ other, ¬ edge node' name' other)
    (houtside : inner child → ¬ path ++ [name] <+: path')
    (hedges : ∀ above label below, edge' above label below ↔
      edge above label below ∧ ¬ (above = node ∧ label = name) ∨
        above = node' ∧ label = name' ∧ below = child) :
    Hierarchy edge' inner isRoot := by
  have hkeep : ∀ above label below, edge above label below →
      ¬ (above = node ∧ label = name) → edge' above label below :=
    fun above label below hold hother =>
      (hedges above label below).mpr (.inl ⟨hold, hother⟩)
  have hthrough : ∀ (stop : ν) (front : List α), inner stop →
      Leads edge root front stop → path ++ [name] <+: front →
      inner child ∧ ∃ rest, Leads edge child rest stop := by
    rintro stop front hstop hfront ⟨rest, rfl⟩
    obtain ⟨middle, hmiddle, hrest⟩ := leads_append.mp hfront
    obtain ⟨above, habove, hlast⟩ := leads_snoc.mp hmiddle
    cases h.stop_unique habove hleads
    cases h.keyed _ _ _ _ hlast hedge
    exact ⟨h.inner_of_leads hstop hrest, rest, hrest⟩
  have hbase : Leads edge' root path' node' := by
    refine h.leads_aside hroot hleads hkeep hroot hleads' fun _ hinit => ?_
    exact houtside (hthrough node' path' hnode' hleads' hinit).1 hinit
  constructor
  · intro above label left right hleft hright
    rcases (hedges _ _ _).mp hleft with ⟨hleft, _⟩ | ⟨rfl, rfl, rfl⟩
    · rcases (hedges _ _ _).mp hright with ⟨hright, _⟩ | ⟨rfl, rfl, rfl⟩
      · exact h.keyed _ _ _ _ hleft hright
      · exact absurd hleft (hfree left)
    · rcases (hedges _ _ _).mp hright with ⟨hright, _⟩ | ⟨_, _, rfl⟩
      · exact absurd hright (hfree right)
      · rfl
  · intro above label below hnew
    rcases (hedges _ _ _).mp hnew with ⟨hold, _⟩ | ⟨rfl, rfl, rfl⟩
    · exact h.parent _ _ _ hold
    · exact hnode'
  · intro above label above' label' below hinner hnew hnew'
    rcases (hedges _ _ _).mp hnew with ⟨hold, hother⟩ | ⟨rfl, rfl, rfl⟩
    · rcases (hedges _ _ _).mp hnew' with ⟨hold', _⟩ | ⟨rfl, rfl, rfl⟩
      · exact h.single _ _ _ _ _ hinner hold hold'
      · exact absurd (h.single _ _ _ _ _ hinner hold hedge) hother
    · rcases (hedges _ _ _).mp hnew' with ⟨hold', hother'⟩ | ⟨rfl, rfl, _⟩
      · exact absurd (h.single _ _ _ _ _ hinner hold' hedge) hother'
      · exact ⟨rfl, rfl⟩
  · exact h.rootInner
  · intro other hother above label hnew
    rcases (hedges _ _ _).mp hnew with ⟨hold, _⟩ | ⟨_, _, rfl⟩
    · exact h.rootFree other hother above label hold
    · exact h.rootFree other hother node name hedge
  · intro above label below hnew
    rcases (hedges _ _ _).mp hnew with ⟨hold, _⟩ | ⟨rfl, rfl, rfl⟩
    · obtain ⟨other, front, hother, hfront⟩ := h.reached _ _ _ hold
      by_cases hin : other = root ∧ path ++ [name] <+: front
      · obtain ⟨rfl, hinit⟩ := hin
        obtain ⟨_, rest, hrest⟩ := hthrough above front (h.parent _ _ _ hold)
          hfront hinit
        have hbelow := h.leads_below hother hleads hedge hkeep hrest
        have hmoved : Leads edge' other (path' ++ [name']) child :=
          leads_snoc.mpr ⟨node', hbase, (hedges _ _ _).mpr (.inr ⟨rfl, rfl, rfl⟩)⟩
        exact ⟨other, _, hother, leads_append.mpr ⟨child, hmoved, hbelow⟩⟩
      · refine ⟨other, front, hother, ?_⟩
        exact h.leads_aside hroot hleads hkeep hother hfront
          fun heq hinit => hin ⟨heq, hinit⟩
    · exact ⟨root, path', hroot, hbase⟩

end

/-- A part of the nodes with the edges between them. -/
theorem restrict (h : Hierarchy edge inner isRoot) {kept : ν → Prop}
    (hkept : ∀ node name child, edge node name child →
      (kept node ↔ kept child))
    (hedges : ∀ above label below, edge' above label below ↔
      edge above label below ∧ kept above)
    (hinner : ∀ node, inner' node ↔ inner node ∧ kept node)
    (hroots : ∀ root, isRoot' root ↔ isRoot root ∧ kept root) :
    Hierarchy edge' inner' isRoot' where
  keyed node name left right hleft hright :=
    h.keyed _ _ _ _ ((hedges _ _ _).mp hleft).1 ((hedges _ _ _).mp hright).1
  parent node name child hedge := by
    obtain ⟨hold, hnode⟩ := (hedges _ _ _).mp hedge
    exact (hinner node).mpr ⟨h.parent _ _ _ hold, hnode⟩
  single node name node' name' child hchild hedge hedge' :=
    h.single _ _ _ _ _ ((hinner child).mp hchild).1
      ((hedges _ _ _).mp hedge).1 ((hedges _ _ _).mp hedge').1
  rootInner root hroot := by
    obtain ⟨hold, hkeptRoot⟩ := (hroots root).mp hroot
    exact (hinner root).mpr ⟨h.rootInner root hold, hkeptRoot⟩
  rootFree root hroot node name hedge :=
    h.rootFree root ((hroots root).mp hroot).1 node name
      ((hedges _ _ _).mp hedge).1
  reached node name child hedge := by
    obtain ⟨hold, hnode⟩ := (hedges _ _ _).mp hedge
    obtain ⟨root, path, hroot, hleads⟩ := h.reached _ _ _ hold
    have hpath : kept root ∧ Leads edge' root path node := by
      clear hold hedge
      induction path using List.reverseRecOn generalizing node with
      | nil =>
          cases hleads
          exact ⟨hnode, rfl⟩
      | append_singleton path last ih =>
          obtain ⟨above, hfront, hlast⟩ := leads_snoc.mp hleads
          have habove := (hkept _ _ _ hlast).mpr hnode
          obtain ⟨hkeptRoot, hleads'⟩ := ih above habove hfront
          exact ⟨hkeptRoot, leads_snoc.mpr
            ⟨above, hleads', (hedges _ _ _).mpr ⟨hlast, habove⟩⟩⟩
    exact ⟨root, path, (hroots root).mpr ⟨hroot, hpath.1⟩, hpath.2⟩

end Hierarchy

end TensorFS.Data
