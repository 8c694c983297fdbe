import TensorFS.Tfm1.Recarry

namespace TensorFS

open Data

/-! No link is resolved before its carrier. -/

/-- An outcome other than the one refusal. -/
def Avoids (refusal : ε) (outcome : Except ε α) : Prop :=
  outcome ≠ .error refusal

theorem Avoids.ok (refusal : ε) (value : α) :
    Avoids refusal (.ok value : Except ε α) := by
  intro h
  cases h

theorem Avoids.error {refusal other : ε} (hother : other ≠ refusal) :
    Avoids refusal (.error other : Except ε α) := by
  intro h
  exact hother (Except.error.inj h)

theorem Avoids.bind {refusal : ε} {first : Except ε α}
    {next : α → Except ε β} (hfirst : Avoids refusal first)
    (hnext : ∀ value, first = .ok value → Avoids refusal (next value)) :
    Avoids refusal (first >>= next) := by
  cases houtcome : first with
  | ok value => exact hnext value houtcome
  | error other =>
      rw [houtcome] at hfirst
      intro h
      apply hfirst
      rw [Except.error.inj h]

theorem Avoids.ensure {refusal other : ε} {p : Prop} [Decidable p]
    (hother : other ≠ refusal) : Avoids refusal (Data.ensure p other) := by
  unfold Data.ensure
  split
  · exact .ok refusal ()
  · exact .error hother

theorem Avoids.checkAll {refusal : ε} {check : α → Except ε Unit} {xs : List α}
    (hcheck : ∀ x ∈ xs, Avoids refusal (check x)) :
    Avoids refusal (Data.checkAll check xs) := by
  induction xs with
  | nil => exact .ok refusal ()
  | cons x xs ih =>
      apply Avoids.bind (hcheck x List.mem_cons_self)
      intro _ _
      exact ih fun y hy => hcheck y (List.mem_cons_of_mem _ hy)

theorem validatePath_avoids (U : Unicode) (path : Text) :
    Avoids .hardlinkOrdinal (validatePath U path) := by
  refine .bind (.ensure (by decide)) fun _ _ =>
    .bind (.ensure (by decide)) fun _ _ =>
      .bind (.ensure (by decide)) fun _ _ => .checkAll fun segment _ => ?_
  exact .bind (.ensure (by decide)) fun _ _ =>
    .bind (.ensure (by decide)) fun _ _ =>
      .bind (.ensure (by decide)) fun _ _ =>
        .bind (.ensure (by decide)) fun _ _ => .ensure (by decide)

theorem checkPending_avoids (U : Unicode) (path : Text) (item : Pending) :
    Avoids .hardlinkOrdinal (checkPending U path item) := by
  apply Avoids.bind (validatePath_avoids U path)
  intro _ _
  cases item with
  | symlink target => exact .ensure (by decide)
  | directory => exact .ok _ ()
  | file executable planner contract records => exact .ok _ ()
  | hardlinkTo target => exact .ok _ ()

theorem collectPending_avoids {U : Unicode} {entries : OrdMap Text Pending}
    {pending : List (Text × Pending)} :
    Avoids .hardlinkOrdinal (collectPending U entries pending) := by
  induction pending generalizing entries with
  | nil => exact .ok _ _
  | cons head rest ih =>
      exact .bind (checkPending_avoids U head.1 head.2) fun _ _ =>
        .bind (.ensure (by decide)) fun _ _ => ih

theorem hardlinkGroups_avoids {entries : OrdMap Text Pending}
    {groups : OrdMap Text (List Text)} {pending : List (Text × Pending)} :
    Avoids .hardlinkOrdinal (hardlinkGroups entries groups pending) := by
  induction pending generalizing groups with
  | nil => exact .ok _ _
  | cons head rest ih =>
      obtain ⟨path, item⟩ := head
      cases item with
      | directory => exact ih
      | file executable planner contract records => exact ih
      | symlink target => exact ih
      | hardlinkTo target =>
          unfold hardlinkGroups
          split
          · exact ih
          · exact .error (by decide)

theorem declaredLength_avoids {sum : Nat} {records : List FileRecord} :
    Avoids .hardlinkOrdinal (declaredLength sum records) := by
  induction records generalizing sum with
  | nil => exact .ok _ _
  | cons record records ih =>
      exact .bind (.ensure (by decide)) fun _ _ =>
        .bind (.ensure (by decide)) fun _ _ => ih

theorem sumRun_avoids {previousWasHole : Bool} {sum : Nat}
    {records : List FileRecord} :
    Avoids .hardlinkOrdinal (sumRun previousWasHole sum records) := by
  induction records generalizing previousWasHole sum with
  | nil => exact .ok _ _
  | cons record records ih =>
      exact .bind (.ensure (by decide)) fun _ _ =>
        .bind (.ensure (by decide)) fun _ _ =>
          .bind (.ensure (by decide)) fun _ _ => ih

theorem validateRecordRun_avoids (records : List FileRecord)
    (logicalSize : UInt64) :
    Avoids .hardlinkOrdinal (validateRecordRun records logicalSize) :=
  .bind (.ensure (by decide)) fun _ _ =>
    .bind sumRun_avoids fun _ _ => .ensure (by decide)

theorem validateTree_avoids (U : Unicode) (isDirectory : α → Bool)
    (entries : List (Text × α)) :
    Avoids .hardlinkOrdinal (validateTree U isDirectory entries) :=
  .bind (.ensure (by decide)) fun _ _ => .ensure (by decide)

/-- Every link ahead names a file that has its ordinal or comes first. -/
def LinksKnown (ordinals : OrdMap Text Nat) (rest : List (Text × Pending)) :
    Prop :=
  ∀ path target, (path, Pending.hardlinkTo target) ∈ rest →
    (ordinals.get? target).isSome ∨
      ∃ item, (target, item) ∈ rest ∧ item.isFile = true ∧ target < path

theorem LinksKnown.step {ordinals next : OrdMap Text Nat} {path : Text}
    {item : Pending} {rest : List (Text × Pending)}
    (h : LinksKnown ordinals ((path, item) :: rest))
    (hkept : ∀ target, (ordinals.get? target).isSome →
      (next.get? target).isSome)
    (hfile : item.isFile = true → (next.get? path).isSome) :
    LinksKnown next rest := by
  intro link target hlink
  rcases h link target (List.mem_cons_of_mem _ hlink) with hknown | hahead
  · exact .inl (hkept target hknown)
  · obtain ⟨found, hfound, hisFile, hlt⟩ := hahead
    rcases List.mem_cons.mp hfound with heq | hfound
    · cases heq
      exact .inl (hfile hisFile)
    · exact .inr ⟨found, hfound, hisFile, hlt⟩

theorem resolveEntries_avoids {ordinals : OrdMap Text Nat}
    {rest : List (Text × Pending)}
    (hsorted : rest.Pairwise fun left right => left.1 < right.1)
    (hknown : LinksKnown ordinals rest) :
    Avoids .hardlinkOrdinal (resolveEntries ordinals rest) := by
  induction rest generalizing ordinals with
  | nil => exact .ok _ _
  | cons head rest ih =>
      obtain ⟨path, item⟩ := head
      obtain ⟨hafter, hrest⟩ := List.pairwise_cons.mp hsorted
      have htail : ∀ (entry : TreeEntry) (next : OrdMap Text Nat),
          LinksKnown next rest → Avoids .hardlinkOrdinal (do
            let tail ← resolveEntries next rest
            .ok ((path, entry) :: tail)) := fun entry next hnext =>
        .bind (ih hrest hnext) fun _ _ => .ok _ _
      cases item with
      | directory =>
          exact htail .directory ordinals
            (hknown.step (fun _ h => h) fun h => by cases h)
      | symlink target =>
          exact htail (.symlink target) ordinals
            (hknown.step (fun _ h => h) fun h => by cases h)
      | file executable planner contract records =>
          refine .bind (.bind declaredLength_avoids fun total _ =>
            .bind (validateRecordRun_avoids _ _) fun _ _ => .ok _ _) ?_
          rintro ⟨entry, next⟩ hentry
          obtain ⟨_, heq⟩ := resolveEntry_file.mp hentry
          cases heq
          apply htail
          apply hknown.step
          · intro target hsome
            rw [OrdMap.get?_insert]
            split
            · rfl
            · exact hsome
          · intro _
            rw [OrdMap.get?_insert, if_pos rfl]
            rfl
      | hardlinkTo target =>
          have hordinal : (ordinals.get? target).isSome := by
            rcases hknown path target List.mem_cons_self with hsome | hahead
            · exact hsome
            · obtain ⟨found, hfound, hfile, hlt⟩ := hahead
              rcases List.mem_cons.mp hfound with heq | hfound
              · cases heq
                cases hfile
              · exact absurd hlt (not_lt_of_gt (hafter _ hfound))
          obtain ⟨ordinal, hget⟩ := Option.isSome_iff_exists.mp hordinal
          simp only [resolveEntries, resolveEntry, hget]
          exact htail (.hardlink ordinal) ordinals
            (hknown.step (fun _ h => h) fun h => by cases h)

/-! Re-rooted declarations resolve. -/

/-- What stands at a path of a re-rooted tree. -/
theorem RootedFrom.cases {entries rooted : OrdMap Text Pending}
    (h : RootedFrom entries rooted) (hlinks : LinksOk entries) {path : Text}
    {item : Pending} (hitem : rooted.get? path = some item) :
    (home entries path = none ∧ entries.get? path = some item) ∨
      ∃ file carrier body, home entries path = some file ∧
        IsCarrier entries file carrier ∧ entries.get? file = some body ∧
          body.isFile = true ∧
            item = if path = carrier then body else .hardlinkTo carrier := by
  cases hhome : home entries path with
  | none => exact .inl ⟨rfl, h.outside path hhome ▸ hitem⟩
  | some file =>
      obtain ⟨carrier, hcarrier⟩ := exists_isCarrier hhome
      obtain ⟨body, hbody, hfile, _⟩ := hlinks.home_get? hhome
      have hplace := h.inside path file carrier hhome hcarrier
      rw [hitem, place, hbody, Option.getD_some] at hplace
      exact .inr ⟨file, carrier, body, rfl, hcarrier, hbody, hfile,
        Option.some.inj hplace⟩

theorem RootedFrom.get?_carrier {entries rooted : OrdMap Text Pending}
    (h : RootedFrom entries rooted) {file carrier : Text} {body : Pending}
    (hcarrier : IsCarrier entries file carrier)
    (hbody : entries.get? file = some body) :
    rooted.get? carrier = some body := by
  rw [h.inside carrier file carrier hcarrier.named hcarrier, place,
    if_pos rfl, hbody, Option.getD_some]

/-- A link of a re-rooted tree sorts after the file it names. -/
theorem RootedFrom.link {entries rooted : OrdMap Text Pending}
    (h : RootedFrom entries rooted) (hlinks : LinksOk entries)
    {path target : Text}
    (hlink : rooted.get? path = some (.hardlinkTo target)) :
    target < path ∧ ∃ file body, home entries path = some file ∧
      IsCarrier entries file target ∧ rooted.get? target = some body ∧
        body.isFile = true := by
  rcases h.cases hlinks hlink with ⟨hnone, hget⟩ | hinside
  · rw [home, hget] at hnone
    cases hnone
  · obtain ⟨file, carrier, body, hhome, hcarrier, hbody, hfile, heq⟩ := hinside
    split at heq
    · rw [← heq] at hfile
      cases hfile
    · rename_i hne
      cases heq
      exact ⟨lt_of_le_of_ne (hcarrier.least path hhome) (Ne.symm hne), file,
        body, hhome, hcarrier, h.get?_carrier hcarrier hbody, hfile⟩

theorem RootedFrom.linksKnown {entries rooted : OrdMap Text Pending}
    (h : RootedFrom entries rooted) (hlinks : LinksOk entries) :
    LinksKnown .empty rooted.entries := by
  intro path target hlink
  obtain ⟨hlt, file, body, _, _, hbody, hfile⟩ :=
    h.link hlinks (OrdMap.get?_eq_some.mpr hlink)
  exact .inr ⟨body, OrdMap.get?_eq_some.mp hbody, hfile, hlt⟩

/-- No builder meets a link before its carrier. -/
theorem SnapshotBuilder.resolve_avoids (U : Unicode)
    (builder : SnapshotBuilder) :
    Avoids .hardlinkOrdinal (builder.resolve U) := by
  refine .bind collectPending_avoids fun entries _ =>
    .bind hardlinkGroups_avoids fun groups hgroups => ?_
  refine .bind ?_ fun resolved _ =>
    .bind (validateTree_avoids U _ _) fun _ _ => .ok _ _
  exact resolveEntries_avoids (OrdMap.sorted _)
    ((reroot_rootedFrom hgroups).linksKnown (hardlinkGroups_links hgroups))

theorem resolveEntries_runs {ordinals : OrdMap Text Nat}
    {rest : List (Text × Pending)} {resolved : List (Text × TreeEntry)}
    (h : resolveEntries ordinals rest = .ok resolved) :
    ∀ path executable planner contract records,
      (path, Pending.file executable planner contract records) ∈ rest →
        ValidRun records := by
  induction rest generalizing ordinals resolved with
  | nil => exact fun _ _ _ _ _ hmem => absurd hmem List.not_mem_nil
  | cons head rest ih =>
      simp only [resolveEntries, except_bind_eq_ok] at h
      obtain ⟨⟨entry, next⟩, hentry, tail, htail, _⟩ := h
      intro path executable planner contract records hmem
      rcases List.mem_cons.mp hmem with heq | hmem
      · cases heq
        exact (resolveEntry_file.mp hentry).1
      · exact ih htail path executable planner contract records hmem

theorem RootedFrom.resolved {entries rooted : OrdMap Text Pending}
    (h : RootedFrom entries rooted) (hlinks : LinksOk entries)
    {resolved : List (Text × TreeEntry)}
    (hresolved : resolveEntries .empty rooted.entries = .ok resolved) :
    resolved = rooted.entries.map fun pair =>
      (pair.1, treeEntryOf rooted.entries pair.2) := by
  have hentries : RootedEntries rooted.entries := by
    constructor
    · exact resolveEntries_runs hresolved
    · intro path target hlink
      obtain ⟨hlt, _, body, _, _, hbody, hfile⟩ :=
        h.link hlinks (OrdMap.get?_eq_some.mpr hlink)
      have hmem := OrdMap.get?_eq_some.mp hbody
      cases body with
      | file executable planner contract records =>
          exact ⟨hlt, executable, planner, contract, records, hmem⟩
      | directory => cases hfile
      | symlink target => cases hfile
      | hardlinkTo target => cases hfile
  have hrooted := @resolveEntries_rooted rooted.entries [] _ .empty rfl
    rooted.sorted hentries (by simp) (by simp) (by simp)
  rw [hrooted] at hresolved
  exact (Except.ok.inj hresolved).symm

/-! What a finished snapshot holds. -/

theorem canonicalEntries_forall₂ {resolved : List (Text × TreeEntry)}
    {finished : List (Text × Entry)}
    (h : canonicalEntries resolved = .ok finished) :
    List.Forall₂ (fun before after => after.1 = before.1 ∧
      canonicalEntry before.2 = .ok after.2) resolved finished := by
  induction resolved generalizing finished with
  | nil =>
      cases h
      exact .nil
  | cons head rest ih =>
      simp only [canonicalEntries, except_bind_eq_ok, Except.ok.injEq] at h
      obtain ⟨entry, hentry, tail, htail, rfl⟩ := h
      exact .cons ⟨rfl, hentry⟩ (ih htail)

theorem canonicalEntry_isFile {entry : TreeEntry} {final : Entry}
    (h : canonicalEntry entry = .ok final) : final.isFile = entry.isFile := by
  cases entry with
  | file executable planner contract records =>
      simp only [canonicalEntry, except_bind_eq_ok, Except.ok.injEq] at h
      obtain ⟨body, _, rfl⟩ := h
      rfl
  | directory => cases h; rfl
  | symlink target => cases h; rfl
  | hardlink ordinal => cases h; rfl

theorem isFile_treeEntryOf (entries : List (Text × Pending)) (item : Pending) :
    (treeEntryOf entries item).isFile = item.isFile := by
  cases item <;> rfl

/-- The paths and which of them are files. -/
def shape (isFile : α → Bool) (entries : List (Text × α)) : List (Text × Bool) :=
  entries.map fun pair => (pair.1, isFile pair.2)

theorem files_shape (isFile : α → Bool) (entries : List (Text × α)) :
    ((shape isFile entries).filter Prod.snd).map Prod.fst =
      (entries.filter fun pair => isFile pair.2).map Prod.fst := by
  rw [shape, List.filter_map, List.map_map]
  rfl

/-- A snapshot that was finished from re-rooted declarations. -/
structure FinishedFrom (rooted : OrdMap Text Pending)
    (entries : List (Text × Entry)) : Prop where
  shape : shape Entry.isFile entries = shape Pending.isFile rooted.entries
  forward : ∀ path item, (path, item) ∈ rooted.entries → ∃ entry,
    canonicalEntry (treeEntryOf rooted.entries item) = .ok entry ∧
      (path, entry) ∈ entries
  back : ∀ path entry, (path, entry) ∈ entries → ∃ item,
    (path, item) ∈ rooted.entries ∧
      canonicalEntry (treeEntryOf rooted.entries item) = .ok entry

theorem finishedFrom_of {rooted : OrdMap Text Pending}
    {finished : List (Text × Entry)}
    (h : canonicalEntries (rooted.entries.map fun pair =>
      (pair.1, treeEntryOf rooted.entries pair.2)) = .ok finished) :
    FinishedFrom rooted finished := by
  have hall := List.forall₂_map_left_iff.mp (canonicalEntries_forall₂ h)
  have hfile := isFile_treeEntryOf rooted.entries
  suffices hsuffix : ∀ rest : List (Text × Pending),
      List.Forall₂ (fun before after => after.1 = before.1 ∧
        canonicalEntry (treeEntryOf rooted.entries before.2) = .ok after.2)
        rest finished →
      TensorFS.shape Entry.isFile finished =
          TensorFS.shape Pending.isFile rest ∧
        (∀ path item, (path, item) ∈ rest → ∃ entry,
          canonicalEntry (treeEntryOf rooted.entries item) = .ok entry ∧
            (path, entry) ∈ finished) ∧
        ∀ path entry, (path, entry) ∈ finished → ∃ item,
          (path, item) ∈ rest ∧
            canonicalEntry (treeEntryOf rooted.entries item) = .ok entry by
    obtain ⟨hshape, hforward, hback⟩ := hsuffix rooted.entries hall
    exact ⟨hshape, hforward, hback⟩
  clear h hall
  intro rest hrest
  induction hrest with
  | nil => simp [TensorFS.shape]
  | @cons before after rest finished hhead _ ih =>
      obtain ⟨hpath, hentry⟩ := hhead
      obtain ⟨hshape, hforward, hback⟩ := ih
      refine ⟨?_, ?_, ?_⟩
      · have hkind := (canonicalEntry_isFile hentry).trans (hfile before.2)
        simp only [TensorFS.shape, List.map_cons] at hshape ⊢
        rw [hshape, hpath, hkind]
      · intro path item hitem
        rcases List.mem_cons.mp hitem with rfl | hitem
        · exact ⟨after.2, hentry, List.mem_cons.mpr
            (.inl (Prod.ext hpath.symm rfl))⟩
        · obtain ⟨entry, hok, hmem⟩ := hforward path item hitem
          exact ⟨entry, hok, List.mem_cons_of_mem _ hmem⟩
      · intro path entry hmem
        rcases List.mem_cons.mp hmem with rfl | hmem
        · exact ⟨before.2, List.mem_cons.mpr (.inl (Prod.ext hpath rfl)),
            hentry⟩
        · obtain ⟨item, hitem, hok⟩ := hback path entry hmem
          exact ⟨item, List.mem_cons_of_mem _ hitem, hok⟩

/-- The ordinal of a file names it. -/
theorem FinishedFrom.ordinalPath {rooted : OrdMap Text Pending}
    {snapshot : Snapshot} (h : FinishedFrom rooted snapshot.entries)
    {path : Text} {item : Pending} (hitem : rooted.get? path = some item)
    (hfile : item.isFile = true) :
    snapshot.ordinalPath (ordinalOf rooted.entries path) = some path := by
  obtain ⟨before, rest, hsplit⟩ :=
    List.append_of_mem (OrdMap.get?_eq_some.mp hitem)
  have hsorted := rooted.sorted
  have hfiles := congrArg (fun flags => (flags.filter Prod.snd).map Prod.fst)
    h.shape
  rw [files_shape, files_shape] at hfiles
  rw [hsplit] at hsorted
  rw [Snapshot.ordinalPath, ← List.getElem?_map, hfiles, hsplit,
    ordinalOf_split hsorted, List.filter_append, List.map_append,
    List.getElem?_append_right (by rw [List.length_map]), List.length_map,
    Nat.sub_self, List.filter_cons, if_pos hfile]
  rfl

/-! The tree a builder was told, in what it finishes. -/

/-- The smallest of the names of one file. -/
structure Carries (pending : List (Text × Pending)) (file carrier : Text) :
    Prop where
  named : Names pending file carrier
  least : ∀ path, Names pending file path → carrier ≤ path

theorem home_collected {U : Unicode} {pending : List (Text × Pending)}
    {entries : OrdMap Text Pending}
    (h : collectPending U .empty pending = .ok entries) {file path : Text}
    {item : Pending} (hitem : entries.get? file = some item)
    (hfile : item.isFile = true) :
    home entries path = some file ↔ Names pending file path := by
  constructor
  · intro hhome
    unfold home at hhome
    split at hhome
    · exact .inl (Option.some.inj hhome)
    · rename_i target hget
      rw [← Option.some.inj hhome]
      exact .inr ((get?_collected h).mp hget)
    · cases hhome
  · intro hnames
    rcases hnames with rfl | hlink
    · exact home_file hitem hfile
    · rw [home, (get?_collected h).mpr hlink]

theorem carries_iff {U : Unicode} {pending : List (Text × Pending)}
    {entries : OrdMap Text Pending}
    (h : collectPending U .empty pending = .ok entries) {file carrier : Text}
    {item : Pending} (hitem : entries.get? file = some item)
    (hfile : item.isFile = true) :
    Carries pending file carrier ↔ IsCarrier entries file carrier := by
  have hnames := fun path => @home_collected U pending entries h file path
    item hitem hfile
  constructor
  · intro hcarries
    exact ⟨(hnames carrier).mpr hcarries.named, fun path hpath =>
      hcarries.least path ((hnames path).mp hpath)⟩
  · intro hcarrier
    exact ⟨(hnames carrier).mp hcarrier.named, fun path hpath =>
      hcarrier.least path ((hnames path).mpr hpath)⟩

/-- Where a finished snapshot keeps the files of its declarations. -/
structure Carried (pending : List (Text × Pending)) (snapshot : Snapshot) :
    Prop where
  body : ∀ file executable planner contract records,
    (file, Pending.file executable planner contract records) ∈ pending →
      ∃ carrier body, Carries pending file carrier ∧
        canonicalBody planner contract records = .ok body ∧
          (carrier, Entry.file executable body) ∈ snapshot.entries ∧
            ∀ path, Names pending file path → path ≠ carrier →
              ∃ ordinal, (path, Entry.hardlink ordinal) ∈ snapshot.entries ∧
                snapshot.ordinalPath ordinal = some carrier
  link : ∀ path ordinal, (path, Entry.hardlink ordinal) ∈ snapshot.entries →
    ∃ file carrier item, (file, item) ∈ pending ∧ item.isFile = true ∧
      Names pending file path ∧ Carries pending file carrier ∧
        carrier < path ∧ snapshot.ordinalPath ordinal = some carrier

theorem SnapshotBuilder.finish_carried {U : Unicode}
    {parent : Option SnapshotId} {pending : List (Text × Pending)}
    {snapshot : Snapshot}
    (h : (⟨parent, pending⟩ : SnapshotBuilder).finish U = .ok snapshot) :
    Carried pending snapshot := by
  obtain ⟨entries, rooted, hcollect, hlinks, hrooted, hfinish⟩ :=
    finish_eq_ok.mp h
  simp only [finishRooted, except_bind_eq_ok, exists_unit] at hfinish
  obtain ⟨resolved, hresolved, _, finished, hfinished, heq⟩ := hfinish
  rw [hrooted.resolved hlinks hresolved] at hfinished
  cases heq
  have hfrom := finishedFrom_of hfinished
  constructor
  · intro file executable planner contract records hfile
    have hget := (get?_collected hcollect).mpr hfile
    obtain ⟨carrier, hcarrier⟩ := exists_isCarrier (home_file hget rfl)
    have hcarried := hrooted.get?_carrier hcarrier hget
    obtain ⟨final, hfinal, hmem⟩ := hfrom.forward carrier _
      (OrdMap.get?_eq_some.mp hcarried)
    simp only [treeEntryOf, canonicalEntry, except_bind_eq_ok,
      Except.ok.injEq] at hfinal
    obtain ⟨body, hbody, rfl⟩ := hfinal
    refine ⟨carrier, body, (carries_iff hcollect hget rfl).mpr hcarrier, hbody,
      hmem, ?_⟩
    intro path hpath hne
    have hplace := hrooted.inside path file carrier
      ((home_collected hcollect hget rfl).mpr hpath) hcarrier
    rw [place, if_neg hne] at hplace
    obtain ⟨final, hfinal, hmem⟩ := hfrom.forward path _
      (OrdMap.get?_eq_some.mp hplace)
    cases hfinal
    exact ⟨_, hmem, hfrom.ordinalPath hcarried rfl⟩
  · intro path ordinal hlink
    obtain ⟨item, hitem, hfinal⟩ := hfrom.back path _ hlink
    cases item with
    | directory => cases hfinal
    | symlink target => cases hfinal
    | file executable planner contract records =>
        simp [treeEntryOf, canonicalEntry] at hfinal
    | hardlinkTo target =>
        cases hfinal
        obtain ⟨hlt, file, body, hhome, hcarrier, hbody, hfile⟩ :=
          hrooted.link hlinks (OrdMap.get?_eq_some.mpr hitem)
        obtain ⟨declared, hdeclared, hisFile, _⟩ := hlinks.home_get? hhome
        exact ⟨file, target, declared, (get?_collected hcollect).mp hdeclared,
          hisFile, (home_collected hcollect hdeclared hisFile).mp hhome,
          (carries_iff hcollect hdeclared hisFile).mpr hcarrier, hlt,
          hfrom.ordinalPath hbody hfile⟩

theorem SnapshotBuilder.finish_linksNameFiles {U : Unicode}
    {parent : Option SnapshotId} {pending : List (Text × Pending)}
    {snapshot : Snapshot}
    (h : (⟨parent, pending⟩ : SnapshotBuilder).finish U = .ok snapshot) :
    LinksNameFiles pending := by
  obtain ⟨entries, _, hcollect, hlinks, _⟩ := finish_eq_ok.mp h
  intro path target hlink
  obtain ⟨executable, planner, contract, records, hfile⟩ := hlinks path target
    (OrdMap.get?_eq_some.mp ((get?_collected hcollect).mpr hlink))
  exact ⟨_, (get?_collected hcollect).mp hfile, rfl⟩

/-- A builder depends only on the tree it was told: not on the order of the
declarations, nor on which name of a file carries the body. -/
theorem SnapshotBuilder.finish_depends_on_tree (U : Unicode)
    (parent : Option SnapshotId) (pending : List (Text × Pending)) :
    (∀ other : List (Text × Pending), other.Perm pending →
      ∀ snapshot, (⟨parent, other⟩ : SnapshotBuilder).finish U = .ok snapshot ↔
        (⟨parent, pending⟩ : SnapshotBuilder).finish U = .ok snapshot) ∧
    (∀ choice, Chooses choice pending →
      ∀ other : List (Text × Pending), other.Perm (recarry choice pending) →
        ∀ snapshot,
          (⟨parent, pending⟩ : SnapshotBuilder).finish U = .ok snapshot ↔
            LinksNameFiles pending ∧
              (⟨parent, other⟩ : SnapshotBuilder).finish U = .ok snapshot) ∧
    (∀ snapshot, (⟨parent, pending⟩ : SnapshotBuilder).finish U = .ok snapshot →
      Carried pending snapshot) ∧
    (⟨parent, pending⟩ : SnapshotBuilder).resolve U ≠
      .error .hardlinkOrdinal := by
  refine ⟨?_, ?_, ?_, ?_⟩
  · intro other hperm snapshot
    exact finish_perm hperm
  · intro choice hchooses other hperm snapshot
    constructor
    · intro hfinish
      have hlinks := finish_linksNameFiles hfinish
      exact ⟨hlinks, (finish_perm hperm).mpr
        ((finish_recarry ⟨hlinks, hchooses⟩).mpr hfinish)⟩
    · intro h
      obtain ⟨hlinks, hfinish⟩ := h
      exact (finish_recarry ⟨hlinks, hchooses⟩).mp
        ((finish_perm hperm).mp hfinish)
  · intro snapshot hfinish
    exact finish_carried hfinish
  · exact resolve_avoids U ⟨parent, pending⟩

/-! One file under three names, declared under the middle one and under the
last. -/

namespace ThreeNames

def file : Pending :=
  .file true .blobV1 .none [.data aliasDigest 7]

def pending : List (Text × Pending) :=
  [("d".toList, .directory), ("d/b".toList, file),
    ("d/a".toList, .hardlinkTo "d/b".toList),
    ("d/c".toList, .hardlinkTo "d/b".toList)]

def choice (path : Text) : Text :=
  if path = "d/b".toList then "d/c".toList else path

def renamed : List (Text × Pending) :=
  [("d/c".toList, file), ("d/a".toList, .hardlinkTo "d/c".toList),
    ("d/b".toList, .hardlinkTo "d/c".toList), ("d".toList, .directory)]

def snapshot : Snapshot where
  parent := none
  entries :=
    [("d".toList, .directory),
      ("d/a".toList, .file true (.blob 7 aliasDigest)),
      ("d/b".toList, .hardlink 0), ("d/c".toList, .hardlink 0)]

theorem chooses : Chooses choice pending := by
  have hnames : ∀ pair ∈ pending, pair.2.isFile = true →
      choice pair.1 = pair.1 ∨
        (choice pair.1, Pending.hardlinkTo pair.1) ∈ pending := by
    decide +kernel
  exact fun path item hmem hfile => hnames (path, item) hmem hfile

theorem renamed_perm : renamed.Perm (recarry choice pending) := by
  decide +kernel

end ThreeNames

/-- The body goes to the first name of the file, whichever name it was declared
under and in whatever order. -/
theorem SnapshotBuilder.finish_depends_on_tree_threeNames :
    (⟨none, ThreeNames.pending⟩ : SnapshotBuilder).finish asciiUnicode =
        .ok ThreeNames.snapshot ∧
      (⟨none, ThreeNames.renamed⟩ : SnapshotBuilder).finish asciiUnicode =
        .ok ThreeNames.snapshot ∧
      Carried ThreeNames.pending ThreeNames.snapshot := by
  have hfinish : (⟨none, ThreeNames.pending⟩ : SnapshotBuilder).finish
      asciiUnicode = .ok ThreeNames.snapshot := by
    decide +kernel
  obtain ⟨-, hrecarry, hcarried, -⟩ :=
    finish_depends_on_tree asciiUnicode none ThreeNames.pending
  exact ⟨hfinish, ((hrecarry ThreeNames.choice ThreeNames.chooses
    ThreeNames.renamed ThreeNames.renamed_perm _).mp hfinish).2,
    hcarried _ hfinish⟩

end TensorFS
