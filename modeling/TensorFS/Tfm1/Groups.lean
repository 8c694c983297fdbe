import TensorFS.Tfm1.Bijection

namespace TensorFS

open Data

/-! What a builder's declarations mean: a tree of directories, symlinks and
files with several names, whichever of the names carries the body. -/

/-- The declared file that a path names. -/
def home (entries : OrdMap Text Pending) (path : Text) : Option Text :=
  match entries.get? path with
  | some (.file ..) => some path
  | some (.hardlinkTo target) => some target
  | _ => none

/-- Every link names a declared file. -/
def LinksOk (entries : OrdMap Text Pending) : Prop :=
  ∀ path target, (path, Pending.hardlinkTo target) ∈ entries.entries →
    ∃ executable planner contract records, entries.get? target =
      some (.file executable planner contract records)

/-- The smallest of the names of one file. -/
structure IsCarrier (entries : OrdMap Text Pending) (file carrier : Text) :
    Prop where
  named : home entries carrier = some file
  least : ∀ path, home entries path = some file → carrier ≤ path

theorem IsCarrier.unique {entries : OrdMap Text Pending}
    {file carrier other : Text} (h : IsCarrier entries file carrier)
    (hother : IsCarrier entries file other) : carrier = other :=
  le_antisymm (h.least other hother.named) (hother.least carrier h.named)

theorem home_file {entries : OrdMap Text Pending} {path : Text} {item : Pending}
    (hget : entries.get? path = some item) (hfile : item.isFile = true) :
    home entries path = some path := by
  unfold home
  rw [hget]
  cases item with
  | file executable planner contract records => rfl
  | directory => cases hfile
  | symlink target => cases hfile
  | hardlinkTo target => cases hfile

theorem LinksOk.home_get? {entries : OrdMap Text Pending} (h : LinksOk entries)
    {path file : Text} (hhome : home entries path = some file) :
    ∃ item, entries.get? file = some item ∧ item.isFile = true ∧
      (path = file ∨ entries.get? path = some (.hardlinkTo file)) := by
  unfold home at hhome
  split at hhome
  · rename_i executable planner contract records hget
    cases hhome
    exact ⟨_, hget, rfl, .inl rfl⟩
  · rename_i target hget
    cases hhome
    obtain ⟨executable, planner, contract, records, hfile⟩ :=
      h path file (OrdMap.get?_eq_some.mp hget)
    exact ⟨_, hfile, rfl, .inr hget⟩
  · cases hhome

theorem foldl_min_le_mem {links : List Text} {path link : Text}
    (h : link ∈ links) : links.foldl min path ≤ link := by
  induction links generalizing path with
  | nil => cases h
  | cons head links ih =>
      rcases List.mem_cons.mp h with rfl | h
      · exact (foldl_min_le links _).trans (min_le_right _ _)
      · exact ih h

/-! The groups that are collected. -/

theorem hardlinkGroups_complete {entries : OrdMap Text Pending}
    {groups result : OrdMap Text (List Text)} {pending : List (Text × Pending)}
    (h : hardlinkGroups entries groups pending = .ok result)
    (path target : Text) :
    path ∈ (result.get? target).getD [] ↔
      path ∈ (groups.get? target).getD [] ∨
        (path, Pending.hardlinkTo target) ∈ pending := by
  induction pending generalizing groups with
  | nil =>
      cases h
      simp
  | cons head rest ih =>
      obtain ⟨other, item⟩ := head
      cases item with
      | directory => simpa using ih h
      | file executable planner contract records => simpa using ih h
      | symlink link => simpa using ih h
      | hardlinkTo file =>
          unfold hardlinkGroups at h
          split at h
          · rw [ih h, OrdMap.get?_insert]
            by_cases hsame : target = file
            · subst hsame
              rw [if_pos rfl, Option.getD_some, List.mem_append,
                List.mem_singleton, List.mem_cons, Prod.mk.injEq, or_assoc]
              simp
            · rw [if_neg hsame, List.mem_cons, Prod.mk.injEq]
              simp [hsame]
          · cases h

theorem hardlinkGroups_links {entries : OrdMap Text Pending}
    {groups result : OrdMap Text (List Text)} {pending : List (Text × Pending)}
    (h : hardlinkGroups entries groups pending = .ok result) :
    ∀ path target, (path, Pending.hardlinkTo target) ∈ pending →
      ∃ executable planner contract records, entries.get? target =
        some (.file executable planner contract records) := by
  induction pending generalizing groups with
  | nil => exact fun _ _ hmem => absurd hmem List.not_mem_nil
  | cons head rest ih =>
      obtain ⟨other, item⟩ := head
      intro path target hmem
      cases item with
      | directory => exact ih h path target (by simpa using hmem)
      | file executable planner contract records =>
          exact ih h path target (by simpa using hmem)
      | symlink link => exact ih h path target (by simpa using hmem)
      | hardlinkTo file =>
          unfold hardlinkGroups at h
          split at h
          · rename_i executable planner contract records hfile
            rcases List.mem_cons.mp hmem with heq | hmem
            · cases heq
              exact ⟨executable, planner, contract, records, hfile⟩
            · exact ih h path target hmem
          · cases h

/-! Where re-rooting puts each path. -/

/-- What a path of one group is after re-rooting. -/
def place (entries : OrdMap Text Pending) (file carrier path : Text) : Pending :=
  if path = carrier then (entries.get? file).getD .directory
  else .hardlinkTo carrier

theorem get?_insertLinks (carrier : Text) (entries : OrdMap Text Pending)
    (links : List Text) (path : Text) :
    (insertLinks carrier entries links).get? path =
      if path ∈ links then some (.hardlinkTo carrier)
      else entries.get? path := by
  unfold insertLinks
  induction links generalizing entries with
  | nil => simp
  | cons link links ih =>
      rw [List.foldl_cons, ih, OrdMap.get?_insert]
      by_cases hmem : path ∈ links
      · simp [hmem]
      · by_cases hlink : path = link
        · simp [hlink]
        · simp [hmem, hlink]

theorem get?_rerootGroup {entries current : OrdMap Text Pending}
    {group : Text × List Text} (hsound : GroupSound entries group)
    (hagree : ∀ path ∈ group.1 :: group.2,
      current.get? path = entries.get? path) (path : Text) :
    (rerootGroup current group.1 group.2).get? path =
      if path ∈ group.1 :: group.2 then
        some (place entries group.1 (group.2.foldl min group.1) path)
      else current.get? path := by
  obtain ⟨file, links⟩ := group
  obtain ⟨⟨executable, planner, contract, records, hfile⟩, hlinks⟩ := hsound
  have hbody := OrdMap.get?_eq_some.mpr hfile
  have hcurrent := hagree file List.mem_cons_self
  dsimp only at hbody hcurrent hlinks hagree ⊢
  unfold rerootGroup place
  rw [hbody, Option.getD_some]
  dsimp only
  by_cases hcarrier : links.foldl min file = file
  · rw [if_pos hcarrier, hcarrier]
    by_cases hpath : path = file
    · rw [if_pos hpath, hpath, if_pos List.mem_cons_self, hcurrent, hbody]
    · rw [if_neg hpath]
      by_cases hmem : path ∈ links
      · rw [if_pos (List.mem_cons_of_mem _ hmem),
          hagree path (List.mem_cons_of_mem _ hmem)]
        exact OrdMap.get?_eq_some.mpr (hlinks path hmem)
      · rw [if_neg (by simp [hpath, hmem])]
  · have hmember := (foldl_min_mem links file).resolve_left hcarrier
    rw [if_neg hcarrier, hcurrent, hbody]
    dsimp only
    rw [OrdMap.get?_insert, get?_insertLinks, OrdMap.get?_insert,
      OrdMap.get?_erase]
    by_cases hpath : path = links.foldl min file
    · rw [if_pos hpath, if_pos hpath, hpath,
        if_pos (List.mem_cons_of_mem _ hmember)]
    · rw [if_neg hpath, if_neg hpath]
      by_cases hmem : path ∈ links
      · rw [if_pos hmem, if_pos (List.mem_cons_of_mem _ hmem)]
      · rw [if_neg hmem]
        by_cases hown : path = file
        · rw [if_pos hown, if_pos (by simp [hown])]
        · rw [if_neg hown, if_neg hown, if_neg (by simp [hown, hmem])]

/-- The groups of one builder share no path. -/
theorem GroupSound.home {entries : OrdMap Text Pending}
    {group : Text × List Text} (h : GroupSound entries group) {path : Text}
    (hpath : path ∈ group.1 :: group.2) :
    TensorFS.home entries path = some group.1 := by
  obtain ⟨⟨executable, planner, contract, records, hfile⟩, hlinks⟩ := h
  rcases List.mem_cons.mp hpath with rfl | hlink
  · exact home_file (OrdMap.get?_eq_some.mpr hfile) rfl
  · unfold TensorFS.home
    rw [OrdMap.get?_eq_some.mpr (hlinks path hlink)]

theorem get?_reroot {entries : OrdMap Text Pending}
    {groups : List (Text × List Text)}
    (hsound : ∀ group ∈ groups, GroupSound entries group)
    (hnodup : (groups.map Prod.fst).Nodup) (current : OrdMap Text Pending)
    (hagree : ∀ group ∈ groups, ∀ path ∈ group.1 :: group.2,
      current.get? path = entries.get? path) :
    (∀ group ∈ groups, ∀ path ∈ group.1 :: group.2,
      (reroot current groups).get? path =
        some (place entries group.1 (group.2.foldl min group.1) path)) ∧
    ∀ path, (∀ group ∈ groups, path ∉ group.1 :: group.2) →
      (reroot current groups).get? path = current.get? path := by
  induction groups generalizing current with
  | nil => exact ⟨fun _ h => absurd h List.not_mem_nil, fun _ _ => rfl⟩
  | cons head groups ih =>
      obtain ⟨hfresh, hrest⟩ := List.nodup_cons.mp hnodup
      have hstep := fun path => get?_rerootGroup
        (hsound head List.mem_cons_self) (hagree head List.mem_cons_self) path
      have happart : ∀ group ∈ groups, ∀ path ∈ group.1 :: group.2,
          path ∉ head.1 :: head.2 := by
        intro group hgroup path hpath hhead
        have hgroupHome :=
          (hsound group (List.mem_cons_of_mem _ hgroup)).home hpath
        rw [(hsound head List.mem_cons_self).home hhead] at hgroupHome
        apply hfresh
        rw [Option.some.inj hgroupHome]
        exact List.mem_map_of_mem hgroup
      have hstill : ∀ group ∈ groups, ∀ path ∈ group.1 :: group.2,
          (rerootGroup current head.1 head.2).get? path =
            entries.get? path := by
        intro group hgroup path hpath
        rw [hstep, if_neg (happart group hgroup path hpath)]
        exact hagree group (List.mem_cons_of_mem _ hgroup) path hpath
      obtain ⟨hinside, houtside⟩ := ih
        (fun group hgroup => hsound group (List.mem_cons_of_mem _ hgroup)) hrest
        (rerootGroup current head.1 head.2) hstill
      constructor
      · intro group hgroup path hpath
        rcases List.mem_cons.mp hgroup with rfl | hgroup
        · have hnone : ∀ other ∈ groups, path ∉ other.1 :: other.2 :=
            fun other hother hmem => happart other hother path hmem hpath
          exact (houtside path hnone).trans (by rw [hstep, if_pos hpath])
        · exact hinside group hgroup path hpath
      · intro path hpath
        have hnone : ∀ other ∈ groups, path ∉ other.1 :: other.2 :=
          fun other hother => hpath other (List.mem_cons_of_mem _ hother)
        exact (houtside path hnone).trans
          (by rw [hstep, if_neg (hpath head List.mem_cons_self)])

/-- The re-rooted declarations, by what they declare. -/
structure RootedFrom (entries rooted : OrdMap Text Pending) : Prop where
  outside : ∀ path, home entries path = none →
    rooted.get? path = entries.get? path
  inside : ∀ path file carrier, home entries path = some file →
    IsCarrier entries file carrier →
      rooted.get? path = some (place entries file carrier path)

theorem reroot_rootedFrom {entries : OrdMap Text Pending}
    {groups : OrdMap Text (List Text)}
    (h : hardlinkGroups entries .empty entries.entries = .ok groups) :
    RootedFrom entries (reroot entries groups.entries) := by
  have hsound : ∀ group ∈ groups.entries, GroupSound entries group :=
    hardlinkGroups_sound (fun _ hmem => hmem) (by simp) h
  have hlinks : LinksOk entries := hardlinkGroups_links h
  have hcomplete : ∀ path file, entries.get? path = some (.hardlinkTo file) →
      path ∈ (groups.get? file).getD [] := fun path file hget =>
    (hardlinkGroups_complete h path file).mpr
      (.inr (OrdMap.get?_eq_some.mp hget))
  obtain ⟨hinside, houtside⟩ := get?_reroot hsound groups.keys_nodup entries
    fun _ _ _ _ => rfl
  constructor
  · intro path hnone
    apply houtside path
    intro group hgroup hmem
    rw [(hsound group hgroup).home hmem] at hnone
    cases hnone
  · intro path file carrier hhome hcarrier
    obtain ⟨body, hbody, hfile, hpath⟩ := hlinks.home_get? hhome
    cases hgroup : groups.get? file with
    | some links =>
        have hmem := OrdMap.get?_eq_some.mp hgroup
        have hall : ∀ other, home entries other = some file →
            other ∈ file :: links := by
          intro other hother
          obtain ⟨_, _, _, hcase⟩ := hlinks.home_get? hother
          rcases hcase with rfl | hlink
          · exact List.mem_cons_self
          · have hmember := hcomplete other file hlink
            rw [hgroup, Option.getD_some] at hmember
            exact List.mem_cons_of_mem _ hmember
        have hleast : IsCarrier entries file (links.foldl min file) := by
          constructor
          · apply (hsound _ hmem).home
            rcases foldl_min_mem links file with hfirst | hlink
            · exact List.mem_cons.mpr (.inl hfirst)
            · exact List.mem_cons_of_mem _ hlink
          · intro other hother
            rcases List.mem_cons.mp (hall other hother) with rfl | hlink
            · exact foldl_min_le links other
            · exact foldl_min_le_mem hlink
        rw [hinside _ hmem path (hall path hhome), hcarrier.unique hleast]
    | none =>
        have hown : ∀ other, home entries other = some file → other = file := by
          intro other hother
          obtain ⟨_, _, _, hcase⟩ := hlinks.home_get? hother
          rcases hcase with hown | hlink
          · exact hown
          · have hmember := hcomplete other file hlink
            rw [hgroup] at hmember
            cases hmember
        have hkept : (reroot entries groups.entries).get? path =
            entries.get? path := by
          apply houtside path
          intro group hmem hpathMem
          have hsame := (hsound group hmem).home hpathMem
          rw [hhome] at hsame
          have hget := OrdMap.get?_eq_some.mpr hmem
          rw [← Option.some.inj hsame, hgroup] at hget
          cases hget
        rw [hkept, hown path hhome, hown carrier hcarrier.named, place,
          if_pos rfl, hbody, Option.getD_some]

/-- Each file has a smallest name. -/
theorem exists_isCarrier {entries : OrdMap Text Pending} {path file : Text}
    (h : home entries path = some file) :
    ∃ carrier, IsCarrier entries file carrier := by
  have hkeys : ∀ other, home entries other = some file →
      other ∈ entries.entries.map Prod.fst := by
    intro other hother
    rw [OrdMap.mem_keys]
    intro hnone
    unfold home at hother
    rw [hnone] at hother
    cases hother
  let names := (entries.entries.map Prod.fst).filter fun other =>
    decide (home entries other = some file)
  have hnames : ∀ other, other ∈ names ↔ home entries other = some file := by
    intro other
    rw [List.mem_filter, decide_eq_true_eq]
    exact ⟨fun hmem => hmem.2, fun hother => ⟨hkeys other hother, hother⟩⟩
  refine ⟨names.foldl min path, ?_, fun other hother => ?_⟩
  · rcases foldl_min_mem names path with hfirst | hmem
    · rw [hfirst]
      exact h
    · exact (hnames _).mp hmem
  · exact foldl_min_le_mem ((hnames other).mpr hother)

/-! Declarations of one tree. -/

/-- The same tree, with the body of each file under the name that `choice`
gives for it. -/
structure Retold (choice : Text → Text) (entries retold : OrdMap Text Pending) :
    Prop where
  outside : ∀ path, home entries path = none →
    home retold path = none ∧ retold.get? path = entries.get? path
  inside : ∀ path file, home entries path = some file →
    home retold path = some (choice file) ∧
      retold.get? (choice file) = entries.get? file
  chosen : ∀ path file, home entries path = some file →
    home entries (choice file) = some file

theorem Retold.home_iff {choice : Text → Text}
    {entries retold : OrdMap Text Pending} (h : Retold choice entries retold)
    {path file other : Text} (hfile : home entries other = some file) :
    home retold path = some (choice file) ↔ home entries path = some file := by
  constructor
  · intro hpath
    cases hhome : home entries path with
    | none =>
        rw [(h.outside path hhome).1] at hpath
        cases hpath
    | some found =>
        rw [(h.inside path found hhome).1] at hpath
        have hsame := h.chosen path found hhome
        rw [Option.some.inj hpath, h.chosen other file hfile] at hsame
        exact hsame.symm
  · exact fun hpath => (h.inside path file hpath).1

theorem Retold.isCarrier {choice : Text → Text}
    {entries retold : OrdMap Text Pending} (h : Retold choice entries retold)
    {file carrier : Text} (hcarrier : IsCarrier entries file carrier) :
    IsCarrier retold (choice file) carrier := by
  constructor
  · exact (h.home_iff hcarrier.named).mpr hcarrier.named
  · intro path hpath
    exact hcarrier.least path ((h.home_iff hcarrier.named).mp hpath)

/-- One tree is re-rooted in one way. -/
theorem Retold.rooted {choice : Text → Text}
    {entries retold rooted other : OrdMap Text Pending}
    (h : Retold choice entries retold) (hrooted : RootedFrom entries rooted)
    (hother : RootedFrom retold other) : other = rooted := by
  apply OrdMap.ext_get?
  intro path
  cases hhome : home entries path with
  | none =>
      obtain ⟨hnone, hget⟩ := h.outside path hhome
      rw [hother.outside path hnone, hrooted.outside path hhome, hget]
  | some file =>
      obtain ⟨carrier, hcarrier⟩ := exists_isCarrier hhome
      obtain ⟨hnamed, hbody⟩ := h.inside path file hhome
      rw [hrooted.inside path file carrier hhome hcarrier,
        hother.inside path (choice file) carrier hnamed (h.isCarrier hcarrier),
        place, place, hbody]

end TensorFS
