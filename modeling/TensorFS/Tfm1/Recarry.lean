import TensorFS.Tfm1.Groups

namespace TensorFS

open Data

/-! A builder finishes the tree it was told, however it was told. -/

/-- One declaration, once the body of each file is carried by the name that
`choice` gives for it. -/
def recarryItem (choice : Text → Text) (pending : List (Text × Pending))
    (path : Text) : Pending → Pending
  | .file executable planner contract records =>
      if choice path = path then .file executable planner contract records
      else .hardlinkTo (choice path)
  | .hardlinkTo target =>
      if choice target = path then
        (OrdMap.lookup target pending).getD (.hardlinkTo target)
      else .hardlinkTo (choice target)
  | .directory => .directory
  | .symlink target => .symlink target

def recarry (choice : Text → Text) (pending : List (Text × Pending)) :
    List (Text × Pending) :=
  pending.map fun pair => (pair.1, recarryItem choice pending pair.1 pair.2)

/-- The names that the declarations give one file. -/
def Names (pending : List (Text × Pending)) (file path : Text) : Prop :=
  path = file ∨ (path, Pending.hardlinkTo file) ∈ pending

/-- Every link belongs to a group. -/
def LinksNameFiles (pending : List (Text × Pending)) : Prop :=
  ∀ path target, (path, Pending.hardlinkTo target) ∈ pending →
    ∃ item, (target, item) ∈ pending ∧ item.isFile = true

/-- `choice` gives each declared file one of its own names. -/
def Chooses (choice : Text → Text) (pending : List (Text × Pending)) : Prop :=
  ∀ path item, (path, item) ∈ pending → item.isFile = true →
    Names pending path (choice path)

structure Choice (choice : Text → Text) (pending : List (Text × Pending)) :
    Prop where
  links : LinksNameFiles pending
  named : Chooses choice pending

theorem lookup_of_nodup {pending : List (Text × Pending)}
    (hnodup : (pending.map Prod.fst).Nodup) {path : Text} {item : Pending}
    (h : (path, item) ∈ pending) : OrdMap.lookup path pending = some item := by
  induction pending with
  | nil => cases h
  | cons head rest ih =>
      obtain ⟨hfresh, hrest⟩ := List.nodup_cons.mp hnodup
      obtain ⟨other, found⟩ := head
      rw [OrdMap.lookup]
      rcases List.mem_cons.mp h with heq | h
      · cases heq
        exact if_pos rfl
      · rw [if_neg, ih hrest h]
        intro hsame
        apply hfresh
        rw [← hsame]
        exact List.mem_map.mpr ⟨_, h, rfl⟩

/-! What is collected. -/

theorem collectPending_empty {U : Unicode} {pending : List (Text × Pending)} :
    (∃ entries, collectPending U .empty pending = .ok entries) ↔
      (∀ pair ∈ pending, checkPending U pair.1 pair.2 = .ok ()) ∧
        (pending.map Prod.fst).Nodup := by
  constructor
  · intro h
    obtain ⟨entries, h⟩ := h
    obtain ⟨hchecks, hnodup, _, _⟩ := collectPending_eq_ok h
    exact ⟨hchecks, hnodup⟩
  · intro h
    obtain ⟨hchecks, hnodup⟩ := h
    exact collectPending_of hchecks hnodup fun _ _ => rfl

theorem get?_collected {U : Unicode} {pending : List (Text × Pending)}
    {entries : OrdMap Text Pending}
    (h : collectPending U .empty pending = .ok entries) {path : Text}
    {item : Pending} :
    entries.get? path = some item ↔ (path, item) ∈ pending := by
  obtain ⟨_, _, _, hmem⟩ := collectPending_eq_ok h
  rw [OrdMap.get?_eq_some, hmem]
  simp

/-- The order of the declarations leaves no trace. -/
theorem collectPending_perm {U : Unicode} {pending other : List (Text × Pending)}
    (hperm : other.Perm pending) {entries : OrdMap Text Pending}
    (h : collectPending U .empty pending = .ok entries) :
    collectPending U .empty other = .ok entries := by
  obtain ⟨hchecks, hnodup⟩ := collectPending_empty.mp ⟨entries, h⟩
  have hcollected : ∃ found, collectPending U .empty other = .ok found :=
    collectPending_empty.mpr ⟨fun pair hpair =>
      hchecks pair (hperm.mem_iff.mp hpair),
        (hperm.map Prod.fst).nodup_iff.mpr hnodup⟩
  obtain ⟨found, hfound⟩ := hcollected
  have hsame : found = entries := by
    apply OrdMap.ext_get?
    intro path
    apply Option.ext
    intro item
    rw [get?_collected hfound, get?_collected h, hperm.mem_iff]
  rw [hfound, hsame]

section

variable {U : Unicode} {choice : Text → Text} {pending : List (Text × Pending)}
  {entries : OrdMap Text Pending}

theorem Choice.linksOk (hchoice : Choice choice pending)
    (h : collectPending U .empty pending = .ok entries) : LinksOk entries := by
  intro path target hlink
  obtain ⟨item, hitem, hfile⟩ := hchoice.links path target
    ((get?_collected h).mp (OrdMap.get?_eq_some.mpr hlink))
  have hget := (get?_collected h).mpr hitem
  cases item with
  | file executable planner contract records => exact ⟨_, _, _, _, hget⟩
  | directory => cases hfile
  | symlink target => cases hfile
  | hardlinkTo target => cases hfile

theorem map_fst_recarry :
    (recarry choice pending).map Prod.fst = pending.map Prod.fst := by
  rw [recarry, List.map_map]
  rfl

/-- A symlink is told as it was. -/
theorem Choice.symlink_iff (hchoice : Choice choice pending)
    (hnodup : (pending.map Prod.fst).Nodup) {path target : Text} {item : Pending}
    (hitem : (path, item) ∈ pending) :
    recarryItem choice pending path item = .symlink target ↔
      item = .symlink target := by
  cases item with
  | directory => rfl
  | symlink link => rfl
  | file executable planner contract records =>
      simp only [recarryItem]
      split
      · rfl
      · simp
  | hardlinkTo file =>
      obtain ⟨body, hbody, hfile⟩ := hchoice.links path file hitem
      simp only [recarryItem, lookup_of_nodup hnodup hbody, Option.getD_some]
      split
      · cases body with
        | file executable planner contract records => simp
        | directory => cases hfile
        | symlink target => cases hfile
        | hardlinkTo target => cases hfile
      · simp

theorem Choice.collects_iff (hchoice : Choice choice pending) :
    (∃ entries, collectPending U .empty (recarry choice pending) = .ok entries) ↔
      ∃ entries, collectPending U .empty pending = .ok entries := by
  rw [collectPending_empty, collectPending_empty, map_fst_recarry]
  refine and_congr_left fun hnodup => ?_
  have hcheck : ∀ pair ∈ pending,
      checkPending U pair.1 (recarryItem choice pending pair.1 pair.2) =
          .ok () ↔ checkPending U pair.1 pair.2 = .ok () := by
    intro pair hpair
    rw [checkPending_eq_ok, checkPending_eq_ok]
    simp only [hchoice.symlink_iff hnodup hpair]
  simp only [recarry, List.forall_mem_map]
  exact forall₂_congr hcheck

theorem get?_recarry
    (h : collectPending U .empty pending = .ok entries)
    {retold : OrdMap Text Pending}
    (hretold : collectPending U .empty (recarry choice pending) = .ok retold)
    (path : Text) :
    retold.get? path = (entries.get? path).map
      (recarryItem choice pending path) := by
  apply Option.ext
  intro item
  rw [get?_collected hretold, Option.map_eq_some_iff, recarry, List.mem_map]
  constructor
  · rintro ⟨⟨other, found⟩, hfound, heq⟩
    cases heq
    exact ⟨found, (get?_collected h).mpr hfound, rfl⟩
  · rintro ⟨found, hfound, rfl⟩
    exact ⟨(path, found), (get?_collected h).mp hfound, rfl⟩

/-- A declared file is told under the name chosen for it. -/
theorem Choice.get?_choice (hchoice : Choice choice pending)
    (h : collectPending U .empty pending = .ok entries)
    {retold : OrdMap Text Pending}
    (hretold : collectPending U .empty (recarry choice pending) = .ok retold)
    {file : Text} {item : Pending} (hitem : entries.get? file = some item)
    (hfile : item.isFile = true) :
    home entries (choice file) = some file ∧
      retold.get? (choice file) = some item := by
  obtain ⟨_, hnodup⟩ := collectPending_empty.mp ⟨entries, h⟩
  have hdeclared := (get?_collected h).mp hitem
  have hget := get?_recarry h hretold
  cases item with
  | directory => cases hfile
  | symlink target => cases hfile
  | hardlinkTo target => cases hfile
  | file executable planner contract records =>
      rcases hchoice.named file _ hdeclared rfl with hown | hlink
      · rw [hown, hget, hitem, Option.map_some, recarryItem, if_pos hown]
        exact ⟨home_file hitem rfl, rfl⟩
      · have hlinked := (get?_collected h).mpr hlink
        rw [hget, hlinked, Option.map_some, recarryItem, if_pos rfl,
          lookup_of_nodup hnodup hdeclared, Option.getD_some, home, hlinked]
        exact ⟨rfl, rfl⟩

theorem Choice.retold (hchoice : Choice choice pending)
    (h : collectPending U .empty pending = .ok entries)
    {retold : OrdMap Text Pending}
    (hretold : collectPending U .empty (recarry choice pending) = .ok retold) :
    Retold choice entries retold := by
  have hget := get?_recarry h hretold
  have hlinks := hchoice.linksOk h
  constructor
  · intro path hnone
    unfold home at hnone ⊢
    rw [hget]
    cases hitem : entries.get? path with
    | none => exact ⟨rfl, rfl⟩
    | some item =>
        rw [hitem] at hnone
        cases item with
        | directory => exact ⟨rfl, rfl⟩
        | symlink target => exact ⟨rfl, rfl⟩
        | file executable planner contract records => cases hnone
        | hardlinkTo target => cases hnone
  · intro path file hhome
    obtain ⟨item, hitem, hfile, hpath⟩ := hlinks.home_get? hhome
    obtain ⟨_, hchosen⟩ := hchoice.get?_choice h hretold hitem hfile
    refine ⟨?_, hchosen.trans hitem.symm⟩
    by_cases hcarries : path = choice file
    · rw [hcarries]
      exact home_file hchosen hfile
    · rcases hpath with rfl | hlink
      · cases item with
        | file executable planner contract records =>
            rw [home, hget, hitem, Option.map_some, recarryItem,
              if_neg (Ne.symm hcarries)]
        | directory => cases hfile
        | symlink target => cases hfile
        | hardlinkTo target => cases hfile
      · rw [home, hget, hlink, Option.map_some, recarryItem,
          if_neg (Ne.symm hcarries)]
  · intro path file hhome
    obtain ⟨item, hitem, hfile, _⟩ := hlinks.home_get? hhome
    exact (hchoice.get?_choice h hretold hitem hfile).1

end

/-! Finishing. -/

/-- What follows the re-rooting. -/
def SnapshotBuilder.finishRooted (U : Unicode) (parent : Option SnapshotId)
    (rooted : OrdMap Text Pending) : Except Tfm1Error Snapshot := do
  let resolved ← resolveEntries .empty rooted.entries
  validateTree U TreeEntry.isDirectory resolved
  let entries ← canonicalEntries resolved
  .ok ⟨parent, entries⟩

theorem Retold.refl {entries : OrdMap Text Pending} (h : LinksOk entries) :
    Retold id entries entries where
  outside _ hnone := ⟨hnone, rfl⟩
  inside _ _ hhome := ⟨hhome, rfl⟩
  chosen _ _ hhome := by
    obtain ⟨_, hitem, hfile, _⟩ := h.home_get? hhome
    exact home_file hitem hfile

theorem Retold.linksOk {choice : Text → Text}
    {entries retold : OrdMap Text Pending} (h : Retold choice entries retold)
    (hlinks : LinksOk entries) : LinksOk retold := by
  intro path target hlink
  have hnamed : home retold path = some target := by
    rw [home, OrdMap.get?_eq_some.mpr hlink]
  cases hhome : home entries path with
  | none =>
      rw [(h.outside path hhome).1] at hnamed
      cases hnamed
  | some file =>
      obtain ⟨hchosen, hget⟩ := h.inside path file hhome
      rw [hchosen] at hnamed
      obtain ⟨item, hitem, hfile, _⟩ := hlinks.home_get? hhome
      rw [← Option.some.inj hnamed, hget, hitem]
      cases item with
      | file executable planner contract records => exact ⟨_, _, _, _, rfl⟩
      | directory => cases hfile
      | symlink target => cases hfile
      | hardlinkTo target => cases hfile

theorem exists_rootedFrom {entries : OrdMap Text Pending} (h : LinksOk entries) :
    ∃ groups, hardlinkGroups entries .empty entries.entries = .ok groups ∧
      RootedFrom entries (reroot entries groups.entries) := by
  have hgroups : ∃ groups,
      hardlinkGroups entries .empty entries.entries = .ok groups :=
    hardlinkGroups_of h
  obtain ⟨groups, hgroups⟩ := hgroups
  exact ⟨groups, hgroups, reroot_rootedFrom hgroups⟩

theorem SnapshotBuilder.finish_eq_ok {U : Unicode} {parent : Option SnapshotId}
    {pending : List (Text × Pending)} {snapshot : Snapshot} :
    (⟨parent, pending⟩ : SnapshotBuilder).finish U = .ok snapshot ↔
      ∃ entries rooted, collectPending U .empty pending = .ok entries ∧
        LinksOk entries ∧ RootedFrom entries rooted ∧
          finishRooted U parent rooted = .ok snapshot := by
  simp only [finish, resolve, finishRooted, except_bind_eq_ok, exists_unit]
  constructor
  · rintro ⟨resolved, ⟨entries, hcollect, groups, hgroups, found, hresolved,
      htree, heq⟩, rest⟩
    rw [Except.ok.inj heq] at hresolved htree
    exact ⟨entries, _, hcollect, hardlinkGroups_links hgroups,
      reroot_rootedFrom hgroups, resolved, hresolved, htree, rest⟩
  · rintro ⟨entries, rooted, hcollect, hlinks, hrooted, resolved, hresolved,
      htree, rest⟩
    obtain ⟨groups, hgroups, hreroot⟩ := exists_rootedFrom hlinks
    rw [(Retold.refl hlinks).rooted hreroot hrooted] at hresolved
    exact ⟨resolved, ⟨entries, hcollect, groups, hgroups, resolved, hresolved,
      htree, rfl⟩, rest⟩

/-- The order of the declarations does not matter. -/
theorem SnapshotBuilder.finish_perm {U : Unicode} {parent : Option SnapshotId}
    {pending other : List (Text × Pending)} (hperm : other.Perm pending)
    {snapshot : Snapshot} :
    (⟨parent, other⟩ : SnapshotBuilder).finish U = .ok snapshot ↔
      (⟨parent, pending⟩ : SnapshotBuilder).finish U = .ok snapshot := by
  rw [finish_eq_ok, finish_eq_ok]
  constructor
  · intro h
    obtain ⟨entries, rooted, hcollect, hrest⟩ := h
    exact ⟨entries, rooted, collectPending_perm hperm.symm hcollect, hrest⟩
  · intro h
    obtain ⟨entries, rooted, hcollect, hrest⟩ := h
    exact ⟨entries, rooted, collectPending_perm hperm hcollect, hrest⟩

/-- Nor does it matter which name of a file carries its body. -/
theorem SnapshotBuilder.finish_recarry {U : Unicode}
    {parent : Option SnapshotId} {choice : Text → Text}
    {pending : List (Text × Pending)} (hchoice : Choice choice pending)
    {snapshot : Snapshot} :
    (⟨parent, recarry choice pending⟩ : SnapshotBuilder).finish U =
        .ok snapshot ↔
      (⟨parent, pending⟩ : SnapshotBuilder).finish U = .ok snapshot := by
  rw [finish_eq_ok, finish_eq_ok]
  constructor
  · intro h
    obtain ⟨retold, rooted, hretold, _, hrooted, hfinish⟩ := h
    obtain ⟨entries, hcollect⟩ := hchoice.collects_iff.mp ⟨retold, hretold⟩
    have hlinks := hchoice.linksOk hcollect
    obtain ⟨groups, _, hreroot⟩ := exists_rootedFrom hlinks
    have hsame := (hchoice.retold hcollect hretold).rooted hreroot hrooted
    exact ⟨entries, rooted, hcollect, hlinks, hsame ▸ hreroot, hfinish⟩
  · intro h
    obtain ⟨entries, rooted, hcollect, hlinks, hrooted, hfinish⟩ := h
    obtain ⟨retold, hretold⟩ := hchoice.collects_iff.mpr ⟨entries, hcollect⟩
    have htold := hchoice.retold hcollect hretold
    obtain ⟨groups, _, hreroot⟩ := exists_rootedFrom (htold.linksOk hlinks)
    have hsame := htold.rooted hrooted hreroot
    exact ⟨retold, rooted, hretold, htold.linksOk hlinks, hsame ▸ hreroot,
      hfinish⟩

end TensorFS
