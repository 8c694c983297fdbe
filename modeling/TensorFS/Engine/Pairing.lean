import TensorFS.Engine.MatchSpec

namespace TensorFS.Go

open Data

/-! When two computed layouts can be one checkpoint's. -/

/-- The entry at a place: a component and one of its keys. -/
def Layout.entryAt (layout : Layout) (slot : Nat × Text) :
    Option LayoutTensor :=
  (layout.components[slot.1]?).bind fun component =>
    component.tensors.get? slot.2

/-- Some tensor is both entries'. -/
def LayoutTensor.Meets (left right : LayoutTensor) : Prop :=
  left.shape = right.shape ∧ ∃ dtype ∈ left.dtypes, dtype ∈ right.dtypes

/-- Each place once, and every required one. -/
structure Filled (layout : Layout) (slots : List (Nat × Text)) : Prop where
  nodup : slots.Nodup
  required : ∀ slot entry, layout.entryAt slot = some entry →
    entry.optional = false → slot ∈ slots

theorem Filled.perm {layout : Layout} {left right : List (Nat × Text)}
    (h : Filled layout left) (hperm : left.Perm right) : Filled layout right where
  nodup := hperm.nodup_iff.mp h.nodup
  required slot entry hentry hoptional :=
    hperm.mem_iff.mp (h.required slot entry hentry hoptional)

/-- A key, and a component of each of two layouts. -/
structure Row where
  key : Text
  left : Nat
  right : Nat

/-- Entries of one key put side by side, all required ones among them. -/
structure Pairing (left right : Layout) (rows : List Row) : Prop where
  meets : ∀ row ∈ rows, ∃ entry other,
    left.entryAt (row.left, row.key) = some entry ∧
      right.entryAt (row.right, row.key) = some other ∧ entry.Meets other
  left : Filled left (rows.map fun row => (row.left, row.key))
  right : Filled right (rows.map fun row => (row.right, row.key))

/-- Two components that take one tensor take the same ones, and need them. -/
def Regular (layout : Layout) : Prop :=
  ∀ i j key entry other, i ≠ j → layout.entryAt (i, key) = some entry →
    layout.entryAt (j, key) = some other → entry.Meets other →
      (∀ dtype, dtype ∈ entry.dtypes ↔ dtype ∈ other.dtypes) ∧
        entry.optional = false ∧ other.optional = false

/-! Assignments by their places. -/

def slotsOf (pairs : Assigned) : List (Nat × Text) :=
  pairs.flatMap fun pair => pair.1.names.map fun key => (pair.2, key)

theorem mem_slotsOf {pairs : Assigned} {index : Nat} {key : Text} :
    (index, key) ∈ slotsOf pairs ↔
      ∃ pair ∈ pairs, pair.2 = index ∧ key ∈ pair.1.names := by
  rw [slotsOf, List.mem_flatMap]
  refine exists_congr fun pair => and_congr_right fun _ => ?_
  rw [List.mem_map]
  constructor
  · rintro ⟨found, hfound, heq⟩
    cases heq
    exact ⟨rfl, hfound⟩
  · rintro ⟨rfl, hkey⟩
    exact ⟨key, hkey, rfl⟩

theorem slotsOf_nodup {pairs : Assigned} :
    (slotsOf pairs).Nodup ↔ NoneTwice pairs := by
  rw [slotsOf, List.nodup_flatMap, NoneTwice]
  have hnames : ∀ pair ∈ pairs,
      (pair.1.names.map fun key => (pair.2, key)).Nodup := fun pair _ =>
    List.Nodup.map (fun _ _ heq => (Prod.mk.inj heq).2) pair.1.names_nodup
  rw [and_iff_right hnames]
  refine List.Pairwise.iff fun left right => ?_
  constructor
  · intro hdisjoint hsame key hleft hright
    exact hdisjoint (List.mem_map.mpr ⟨key, hleft, rfl⟩)
      (List.mem_map.mpr ⟨key, hright, by rw [hsame]⟩)
  · intro hdisjoint slot hleft hright
    obtain ⟨key, hkey, rfl⟩ := List.mem_map.mp hleft
    obtain ⟨other, hother, heq⟩ := List.mem_map.mp hright
    obtain ⟨hsame, rfl⟩ := Prod.mk.inj heq
    exact hdisjoint hsame.symm hkey hother

theorem fits_iff {layout : Layout} {pairs : Assigned} :
    Fits layout pairs ↔
      (∀ pair ∈ pairs, pair.2 ∈ pendingOf layout pair.1) ∧
        Filled layout (slotsOf pairs) := by
  constructor
  · intro hfits
    refine ⟨fun pair hpair => mem_pendingOf.mpr (hfits.declared pair hpair),
      slotsOf_nodup.mpr hfits.noneTwice, ?_⟩
    intro slot entry hentry hoptional
    obtain ⟨component, hcomponent, hget⟩ := Option.bind_eq_some_iff.mp hentry
    exact mem_slotsOf.mpr
      (hfits.carried slot.1 component hcomponent slot.2 entry hget hoptional)
  · rintro ⟨hpending, hfilled⟩
    refine ⟨fun pair hpair => mem_pendingOf.mp (hpending pair hpair),
      slotsOf_nodup.mp hfilled.nodup, ?_⟩
    intro index component hcomponent key entry hentry hoptional
    refine mem_slotsOf.mp (hfilled.required (index, key) entry ?_ hoptional)
    exact Option.bind_eq_some_iff.mpr ⟨component, hcomponent, hentry⟩

theorem entry_of_pending {layout : Layout} {file : ArtifactFile} {index : Nat}
    (h : index ∈ pendingOf layout file) {tensor : InventoryTensor}
    (htensor : tensor ∈ file.tensors) :
    ∃ entry, layout.entryAt (index, tensor.name) = some entry ∧
      entry.shape = tensor.shape ∧ tensor.dtype ∈ entry.dtypes := by
  obtain ⟨component, hcomponent, hdeclares⟩ := mem_pendingOf.mp h
  obtain ⟨entry, hentry, hrest⟩ := hdeclares tensor htensor
  exact ⟨entry, Option.bind_eq_some_iff.mpr ⟨component, hcomponent, hentry⟩,
    hrest⟩

/-- Headers that have both layouts put their entries side by side. -/
theorem pairing_of_assignments {left right : Layout}
    {files : List ArtifactFile} (hleft : HasAssignment left files)
    (hright : HasAssignment right files) :
    ∃ rows, Pairing left right rows := by
  obtain ⟨pairs, hpairs, hfits⟩ := hleft
  obtain ⟨others, hothers, hfits'⟩ := hright
  obtain ⟨hpending, hfilled⟩ := fits_iff.mp hfits
  obtain ⟨hpending', hfilled'⟩ := fits_iff.mp hfits'
  have hrows : ∃ rows : List Row,
      rows.map (fun row => (row.left, row.key)) = slotsOf pairs ∧
      rows.map (fun row => (row.right, row.key)) = slotsOf others ∧
      ∀ row ∈ rows, ∃ file tensor, (file, row.left) ∈ pairs ∧
        (file, row.right) ∈ others ∧ tensor ∈ file.tensors ∧
          tensor.name = row.key := by
    clear hfits hfits' hpending hpending' hfilled hfilled'
    subst hpairs
    induction pairs generalizing others with
    | nil =>
        rw [List.map_nil, List.map_eq_nil_iff] at hothers
        subst hothers
        exact ⟨[], rfl, rfl, fun _ hrow => by cases hrow⟩
    | cons pair pairs ih =>
        rw [List.map_cons] at hothers
        obtain ⟨other, others, rfl, hfile, hrest⟩ :=
          List.map_eq_cons_iff.mp hothers
        obtain ⟨rows, hfirst, hsecond, hmem⟩ := ih others hrest
        refine ⟨(pair.1.names.map fun key => ⟨key, pair.2, other.2⟩) ++ rows,
          ?_, ?_, ?_⟩
        · rw [List.map_append, hfirst, List.map_map]
          rfl
        · rw [List.map_append, hsecond, List.map_map, ← hfile]
          rfl
        · intro row hrow
          rcases List.mem_append.mp hrow with hrow | hrow
          · obtain ⟨key, hkey, rfl⟩ := List.mem_map.mp hrow
            obtain ⟨tensor, htensor, rfl⟩ := List.mem_map.mp hkey
            refine ⟨pair.1, tensor, List.mem_cons_self, ?_, htensor, rfl⟩
            rw [← hfile]
            exact List.mem_cons_self
          · obtain ⟨file, tensor, hin, hin', hrest⟩ := hmem row hrow
            exact ⟨file, tensor, List.mem_cons_of_mem _ hin,
              List.mem_cons_of_mem _ hin', hrest⟩
  obtain ⟨rows, hfirst, hsecond, hmem⟩ := hrows
  refine ⟨rows, ?_, hfirst ▸ hfilled, hsecond ▸ hfilled'⟩
  intro row hrow
  obtain ⟨file, tensor, hin, hin', htensor, hname⟩ := hmem row hrow
  obtain ⟨entry, hentry, hshape, hdtype⟩ :=
    entry_of_pending (hpending _ hin) htensor
  obtain ⟨other, hother, hshape', hdtype'⟩ :=
    entry_of_pending (hpending' _ hin') htensor
  rw [hname] at hentry hother
  exact ⟨entry, other, hentry, hother, hshape.trans hshape'.symm,
    tensor.dtype, hdtype, hdtype'⟩

/-! Members of one tensor each, under a directory of no component's name. -/

/-- One tensor, and no hint. -/
def Lone (layout : Layout) (file : ArtifactFile) : Prop :=
  file.tensors.length = 1 ∧
    ∀ index, index < layout.components.length →
      directoryHint file.path ≠ componentName layout index

section

variable {layout : Layout} {file : ArtifactFile} {index other : Nat}

theorem Lone.only (h : Lone layout file) :
    ∃ tensor, file.tensors = [tensor] ∧ file.names = [tensor.name] := by
  obtain ⟨tensor, htensor⟩ := List.length_eq_one_iff.mp h.1
  refine ⟨tensor, htensor, ?_⟩
  rw [ArtifactFile.names, htensor]
  rfl

theorem lt_of_pending (h : index ∈ pendingOf layout file) :
    index < layout.components.length := by
  obtain ⟨component, hcomponent, _⟩ := mem_pendingOf.mp h
  exact (List.getElem?_eq_some_iff.mp hcomponent).1

theorem pending_of_entry {tensor : InventoryTensor} {entry : LayoutTensor}
    (htensors : file.tensors = [tensor])
    (hentry : layout.entryAt (index, tensor.name) = some entry)
    (hshape : entry.shape = tensor.shape) (hdtype : tensor.dtype ∈ entry.dtypes) :
    index ∈ pendingOf layout file := by
  obtain ⟨component, hcomponent, hget⟩ := Option.bind_eq_some_iff.mp hentry
  refine mem_pendingOf.mpr ⟨component, hcomponent, fun found hfound => ?_⟩
  rw [htensors, List.mem_singleton] at hfound
  rw [hfound]
  exact ⟨entry, hget, hshape, hdtype⟩

/-- A lone member's candidates score one while they lack its key. -/
theorem Lone.score (h : Lone layout file) {key : Text}
    (hnames : file.names = [key]) {covered : Nat → List Text}
    (hindex : index < layout.components.length) :
    score layout covered file index =
      if key ∈ covered index then 0 else 1 := by
  obtain ⟨tensor, htensors, hname⟩ := h.only
  rw [hnames, List.cons.injEq] at hname
  rw [TensorFS.Go.score, htensors, if_neg (h.2 index hindex), hname.1]
  split <;> simp_all

/-- The component it picks lacks its key, when some candidate does. -/
theorem Lone.pick_free (h : Lone layout file) {key : Text}
    (hnames : file.names = [key]) {covered : Nat → List Text}
    (hindex : index ∈ pendingOf layout file) (hfree : key ∉ covered index) :
    key ∉ covered (pick layout covered file) := by
  have hne := List.ne_nil_of_mem hindex
  have hpick := @pick_mem layout covered file hne
  have hwins := @pick_wins layout covered file hne index hindex
  rw [h.score hnames (lt_of_pending hindex), if_neg hfree,
    h.score hnames (lt_of_pending hpick)] at hwins
  intro hcovered
  rw [if_pos hcovered] at hwins
  rcases lt_trichotomy index (pick layout covered file) with hlt | heq | hgt
  · exact absurd (hwins.1 hlt) (by omega)
  · rw [heq] at hfree
    exact hfree hcovered
  · exact absurd (hwins.2 hgt) (by omega)

/-- Two candidates of a lone member take the same lone members, and need the
key. -/
theorem Regular.exchange (hregular : Regular layout) (h : Lone layout file)
    {key : Text} (hnames : file.names = [key])
    (hindex : index ∈ pendingOf layout file)
    (hother : other ∈ pendingOf layout file) (hne : index ≠ other) :
    (∃ entry, layout.entryAt (index, key) = some entry ∧
      entry.optional = false) ∧
    ∀ second, Lone layout second → second.names = [key] →
      index ∈ pendingOf layout second → other ∈ pendingOf layout second := by
  obtain ⟨tensor, htensors, hname⟩ := h.only
  rw [hnames, List.cons.injEq] at hname
  have hmem : tensor ∈ file.tensors := by
    rw [htensors]
    exact List.mem_singleton_self _
  obtain ⟨entry, hentry, hshape, hdtype⟩ := entry_of_pending hindex hmem
  obtain ⟨found, hfound, hshape', hdtype'⟩ := entry_of_pending hother hmem
  rw [← hname.1] at hentry hfound
  obtain ⟨hsame, hrequired, _⟩ := hregular index other key entry found hne
    hentry hfound ⟨hshape.trans hshape'.symm, tensor.dtype, hdtype, hdtype'⟩
  refine ⟨⟨entry, hentry, hrequired⟩, ?_⟩
  intro second hsecond hnames' hpending
  obtain ⟨tensor', htensors', hname'⟩ := hsecond.only
  rw [hnames', List.cons.injEq] at hname'
  have hmem' : tensor' ∈ second.tensors := by
    rw [htensors']
    exact List.mem_singleton_self _
  obtain ⟨entry', hentry', hshape'', hdtype''⟩ :=
    entry_of_pending hpending hmem'
  rw [← hname'.1, hentry, Option.some.injEq] at hentry'
  subst hentry'
  rw [hname'.1] at hfound
  exact pending_of_entry htensors' hfound
    (hshape'.trans (hshape.symm.trans hshape'')) ((hsame _).mp hdtype'')

end

/-! Completing an assignment member by member. -/

/-- Some fitting assignment agrees with the choices made so far. -/
def Completable (layout : Layout) (chosen : Assigned)
    (files : List ArtifactFile) : Prop :=
  ∃ tail : Assigned, tail.map Prod.fst = files ∧ Fits layout (chosen ++ tail)

theorem hasAssignment_iff_completable {layout : Layout}
    {files : List ArtifactFile} :
    HasAssignment layout files ↔
      Completable layout (settledOf layout files)
        (ambiguousOf layout files) := by
  have hperm := (inTurn_perm layout files).symm
  constructor
  · intro h
    obtain ⟨pairs, hmap, hfits⟩ := h.perm hperm
    obtain ⟨front, tail, rfl, hfront, htail⟩ :=
      List.map_eq_append_iff.mp hmap
    have hforced := hfits.settled (fun file hfile =>
      (List.mem_filter.mp hfile).2) (List.subset_append_left front tail)
      hfront
    refine ⟨tail, htail, ?_⟩
    rw [settledOf_eq, ← hforced]
    exact hfits
  · rintro ⟨tail, htail, hfits⟩
    refine HasAssignment.perm ⟨settledOf layout files ++ tail, ?_, hfits⟩
      hperm.symm
    rw [List.map_append, htail, settledOf_eq, List.map_map]
    exact congrArg (· ++ _) (List.map_id _)

/-- At every member that several components accept, in path order: when some
fitting assignment agrees with the choices so far, one of them also sends this
member to the best-scored candidate. -/
def Steers (layout : Layout) : Assigned → List ArtifactFile → Prop
  | _, [] => True
  | chosen, file :: files =>
      (Completable layout chosen (file :: files) →
        Completable layout
          (chosen ++ [(file, pick layout (carriedBy chosen) file)]) files) ∧
      Steers layout
        (chosen ++ [(file, pick layout (carriedBy chosen) file)]) files

theorem Steers.fits {layout : Layout} {chosen : Assigned}
    {files : List ArtifactFile} (hsteers : Steers layout chosen files)
    (h : Completable layout chosen files) :
    Fits layout (greedy layout chosen files) := by
  unfold greedy
  induction files generalizing chosen with
  | nil =>
      obtain ⟨tail, htail, hfits⟩ := h
      rw [List.map_eq_nil_iff.mp htail, List.append_nil] at hfits
      exact hfits
  | cons file files ih => exact ih hsteers.2 (hsteers.1 h)

theorem slotsOf_exchange {chosen front back : Assigned}
    {file second : ArtifactFile} {key : Text} {index other : Nat}
    (hfile : file.names = [key]) (hsecond : second.names = [key]) :
    (slotsOf (chosen ++ (file, other) :: (front ++ (second, index) ::
      back))).Perm (slotsOf (chosen ++ (file, index) :: (front ++
        (second, other) :: back))) := by
  simp only [slotsOf, List.flatMap_append, List.flatMap_cons, hfile, hsecond,
    List.map_cons, List.map_nil, List.singleton_append]
  refine List.Perm.append_left _ ?_
  refine (List.Perm.cons _ List.perm_middle).trans ?_
  refine (List.Perm.swap _ _ _).trans ?_
  exact List.Perm.cons _ List.perm_middle.symm

/-- The greedy pass leaves no lone member behind. -/
theorem Regular.steers {layout : Layout} (hregular : Regular layout)
    {chosen : Assigned} {files : List ArtifactFile}
    (hlone : ∀ file ∈ files, Lone layout file) :
    Steers layout chosen files := by
  induction files generalizing chosen with
  | nil => trivial
  | cons file files ih =>
      have hrest := fun other hother =>
        hlone other (List.mem_cons_of_mem _ hother)
      refine ⟨?_, ih hrest⟩
      rintro ⟨tail, htail, hfits⟩
      obtain ⟨⟨first, other⟩, rest, rfl, hfirst, hfiles⟩ :=
        List.map_eq_cons_iff.mp htail
      obtain rfl : file = first := hfirst.symm
      have hfile := hlone file List.mem_cons_self
      obtain ⟨tensor, htensors, hnames⟩ := hfile.only
      obtain ⟨hpending, hfilled⟩ := fits_iff.mp hfits
      have hother : other ∈ pendingOf layout file := hpending _
        (List.mem_append_right _ List.mem_cons_self)
      have hpick := @pick_mem layout (carriedBy chosen) file
        (List.ne_nil_of_mem hother)
      have hfree : tensor.name ∉ carriedBy chosen other := by
        intro hcarried
        obtain ⟨pair, hpair, hindex, hkey⟩ := mem_carriedBy.mp hcarried
        refine (List.pairwise_append.mp hfits.noneTwice).2.2 pair hpair
          (file, other) List.mem_cons_self hindex hkey ?_
        rw [hnames]
        exact List.mem_singleton_self _
      have hfree' := hfile.pick_free hnames hother hfree
      by_cases hsame : pick layout (carriedBy chosen) file = other
      · rw [hsame]
        exact ⟨rest, hfiles, by simpa using hfits⟩
      · -- the picked component needs the key, so a later member brings it
        obtain ⟨⟨entry, hentry, hrequired⟩, hexchange⟩ :=
          hregular.exchange hfile hnames hpick hother hsame
        obtain ⟨pair, hpair, hindex, hkey⟩ := mem_slotsOf.mp
          (hfilled.required _ entry hentry hrequired)
        have hlater : pair ∈ rest := by
          rcases List.mem_append.mp hpair with hchosen | htail
          · exact absurd (mem_carriedBy.mpr ⟨pair, hchosen, hindex, hkey⟩)
              hfree'
          · rcases List.mem_cons.mp htail with rfl | hrest'
            · exact absurd hindex.symm hsame
            · exact hrest'
        obtain ⟨second, index⟩ := pair
        dsimp only at hindex hkey
        subst hindex
        obtain ⟨front, back, rfl⟩ := List.append_of_mem hlater
        have hsecond := hrest second (hfiles ▸ List.mem_map_of_mem hlater)
        obtain ⟨tensor', _, hnames'⟩ := hsecond.only
        rw [hnames', List.mem_singleton] at hkey
        rw [← hkey] at hnames'
        refine ⟨front ++ (second, other) :: back, ?_, ?_⟩
        · rw [← hfiles]
          simp
        · rw [← List.append_cons]
          refine fits_iff.mpr ⟨?_, hfilled.perm
            (slotsOf_exchange hnames hnames')⟩
          have hmoved := hexchange second hsecond hnames' (hpending _ hpair)
          intro pair hpair'
          simp only [List.mem_append, List.mem_cons] at hpair' hpending
          rcases hpair' with hin | rfl | hin | rfl | hin
          · exact hpending pair (.inl hin)
          · exact hpick
          · exact hpending pair (.inr (.inr (.inl hin)))
          · exact hmoved
          · exact hpending pair (.inr (.inr (.inr (.inr hin))))

/-- Lone members that can be assigned match. -/
theorem Regular.matches {layout : Layout} (hregular : Regular layout)
    {files : List ArtifactFile} (hlone : ∀ file ∈ files, Lone layout file)
    (h : HasAssignment layout files) :
    ∃ found, matchLayout files layout = .ok found := by
  refine matchLayout_ok_iff.mpr (Steers.fits (hregular.steers ?_)
    (hasAssignment_iff_completable.mp h))
  intro file hfile
  exact hlone file ((List.mergeSort_perm files _).mem_iff.mp
    (List.mem_filter.mp hfile).1)

/-! Headers made of a pairing. -/

theorem hasAssignment_of_filled {layout : Layout} {rows : List Row}
    {place : Row → Nat} {header : Row × Nat → ArtifactFile}
    (hnames : ∀ pair ∈ rows.zipIdx, (header pair).names = [pair.1.key])
    (hpending : ∀ pair ∈ rows.zipIdx,
      place pair.1 ∈ pendingOf layout (header pair))
    (hfilled : Filled layout (rows.map fun row => (place row, row.key))) :
    HasAssignment layout (rows.zipIdx.map header) := by
  refine ⟨rows.zipIdx.map fun pair => (header pair, place pair.1), ?_, ?_⟩
  · rw [List.map_map]
    rfl
  · refine fits_iff.mpr ⟨fun pair hpair => ?_, ?_⟩
    · obtain ⟨found, hfound, rfl⟩ := List.mem_map.mp hpair
      exact hpending found hfound
    · have hslots : slotsOf (rows.zipIdx.map fun pair =>
          (header pair, place pair.1)) =
          rows.map fun row => (place row, row.key) := by
        conv_rhs =>
          rw [← List.zipIdx_map_fst 0 rows, List.map_map, List.map_eq_flatMap]
        rw [slotsOf, List.flatMap_map]
        refine List.flatMap_congr fun pair hpair => ?_
        rw [hnames pair hpair]
        rfl
      rwa [hslots]

/-- A directory no component is named after. -/
theorem exists_unnamed (names : List Text) :
    ∃ directory : Text, '/' ∉ directory ∧ directory ∉ names := by
  refine ⟨List.replicate ((names.map List.length).sum + 1) 'x', ?_, ?_⟩
  · intro hmem
    exact absurd (List.eq_of_mem_replicate hmem) (by decide)
  · intro hmem
    have hle := List.single_le_sum (fun _ _ => Nat.zero_le _) _
      (List.mem_map_of_mem (f := List.length) hmem)
    rw [List.length_replicate] at hle
    omega

theorem directoryHint_of {directory name : Text} (hdirectory : '/' ∉ directory)
    (hname : '/' ∉ name) : directoryHint (directory ++ '/' :: name) =
      directory := by
  rw [directoryHint, rsplitOnce_append hname]
  simp only [rsplitOnce_eq_none.mpr hdirectory]

/-- The header of one tensor. -/
def loneFile (path : Text) (tensor : InventoryTensor) : ArtifactFile where
  path := path
  tensors := [tensor]
  names_nodup := List.nodup_singleton _

theorem meets_tensor {left right : Layout} {row : Row} {entry other : LayoutTensor}
    (hentry : left.entryAt (row.left, row.key) = some entry)
    (hother : right.entryAt (row.right, row.key) = some other)
    (hmeets : entry.Meets other) :
    ∃ tensor : InventoryTensor, tensor.name = row.key ∧ ∀ path,
      row.left ∈ pendingOf left (loneFile path tensor) ∧
        row.right ∈ pendingOf right (loneFile path tensor) := by
  obtain ⟨hshape, dtype, hleft, hright⟩ := hmeets
  refine ⟨⟨row.key, dtype, entry.shape, 0⟩, rfl, fun path => ⟨?_, ?_⟩⟩
  · exact pending_of_entry rfl hentry rfl hleft
  · exact pending_of_entry rfl hother hshape.symm hright

/-- Two regular layouts with a pairing have a checkpoint in common. -/
theorem Pairing.common {left right : Layout} {rows : List Row}
    (h : Pairing left right rows) (hleft : Regular left)
    (hright : Regular right) :
    ∃ files : List ArtifactFile, (files.map ArtifactFile.path).Nodup ∧
      (∃ found, matchLayout files left = .ok found) ∧
      ∃ found, matchLayout files right = .ok found := by
  obtain ⟨directory, hslash, hunnamed⟩ := exists_unnamed
    ((left.components ++ right.components).map LayoutComponent.name)
  have htensors : ∀ row ∈ rows, ∃ tensor : InventoryTensor,
      tensor.name = row.key ∧ ∀ path,
        row.left ∈ pendingOf left (loneFile path tensor) ∧
          row.right ∈ pendingOf right (loneFile path tensor) := by
    intro row hrow
    obtain ⟨entry, other, hentry, hother, hmeets⟩ := h.meets row hrow
    exact meets_tensor hentry hother hmeets
  have : Nonempty InventoryTensor := ⟨⟨[], [], [], 0⟩⟩
  choose! tensorOf hname hpending using htensors
  let header : Row × Nat → ArtifactFile := fun pair =>
    loneFile (directory ++ '/' :: List.replicate pair.2 'x') (tensorOf pair.1)
  have hrow : ∀ pair ∈ rows.zipIdx, pair.1 ∈ rows := fun pair hpair => by
    rw [← List.zipIdx_map_fst 0 rows]
    exact List.mem_map_of_mem hpair
  have hnames : ∀ pair ∈ rows.zipIdx, (header pair).names = [pair.1.key] :=
    fun pair hpair => congrArg (fun name => [name]) (hname _ (hrow pair hpair))
  have hlone : ∀ layout : Layout, (∀ component ∈ layout.components,
      component ∈ left.components ++ right.components) →
      ∀ file ∈ rows.zipIdx.map header, Lone layout file := by
    intro layout hcomponents file hfile
    obtain ⟨pair, _, rfl⟩ := List.mem_map.mp hfile
    refine ⟨rfl, fun index hindex heq => hunnamed ?_⟩
    have hmarks : '/' ∉ List.replicate pair.2 'x' := fun hmem =>
      absurd (List.eq_of_mem_replicate hmem) (by decide)
    have hhint : directoryHint (header pair).path = directory :=
      directoryHint_of hslash hmarks
    rw [hhint, componentName, List.getElem?_eq_getElem hindex, Option.map_some,
      Option.getD_some] at heq
    rw [heq]
    exact List.mem_map_of_mem (hcomponents _ (List.getElem_mem hindex))
  refine ⟨rows.zipIdx.map header, ?_, ?_, ?_⟩
  · rw [List.map_map]
    have hpaths : rows.zipIdx.map (ArtifactFile.path ∘ header) =
        (rows.zipIdx.map Prod.snd).map fun n =>
          directory ++ '/' :: List.replicate n 'x' := by
      rw [List.map_map]
      rfl
    rw [hpaths]
    refine List.Nodup.map (fun n m heq => ?_) ?_
    · have hlength := congrArg List.length heq
      simpa using hlength
    · rw [List.zipIdx_map_snd]
      exact List.nodup_range'
  · exact hleft.matches (hlone left fun component hmem =>
      List.mem_append_left _ hmem) (hasAssignment_of_filled hnames
        (fun pair hpair => (hpending _ (hrow pair hpair) _).1) h.left)
  · exact hright.matches (hlone right fun component hmem =>
      List.mem_append_right _ hmem) (hasAssignment_of_filled hnames
        (fun pair hpair => (hpending _ (hrow pair hpair) _).2) h.right)

end TensorFS.Go
