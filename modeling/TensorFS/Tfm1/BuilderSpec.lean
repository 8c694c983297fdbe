import TensorFS.Tfm1.Builder
import TensorFS.Tfm1.Canonical

namespace TensorFS

open Data

/-! What each stage of the builder accepts and returns. -/

theorem collectPending_eq_ok {U : Unicode} {entries result : OrdMap Text Pending}
    {pending : List (Text × Pending)}
    (h : collectPending U entries pending = .ok result) :
    (∀ pair ∈ pending, checkPending U pair.1 pair.2 = .ok ()) ∧
      (pending.map Prod.fst).Nodup ∧
      (∀ path ∈ pending.map Prod.fst, entries.get? path = none) ∧
      (∀ pair, pair ∈ result.entries ↔
        pair ∈ entries.entries ∨ pair ∈ pending) := by
  induction pending generalizing entries with
  | nil =>
      cases h
      simp
  | cons head rest ih =>
      obtain ⟨path, item⟩ := head
      simp only [collectPending, except_bind_eq_ok, exists_unit,
        ensure_eq_ok] at h
      obtain ⟨hcheck, hfresh, hrest⟩ := h
      obtain ⟨hchecks, hnodup, hdistinct, hmem⟩ := ih hrest
      have hhead : path ∉ rest.map Prod.fst := by
        intro hin
        have hnone := hdistinct path hin
        simp [OrdMap.get?_insert] at hnone
      refine ⟨?_, ?_, ?_, ?_⟩
      · intro pair hpair
        rcases List.mem_cons.mp hpair with rfl | hpair
        · exact hcheck
        · exact hchecks pair hpair
      · exact List.nodup_cons.mpr ⟨hhead, hnodup⟩
      · intro other hother
        rcases List.mem_cons.mp hother with rfl | hother
        · exact hfresh
        · have hnone := hdistinct other hother
          rw [OrdMap.get?_insert] at hnone
          split at hnone
          · cases hnone
          · exact hnone
      · intro pair
        rw [hmem, OrdMap.mem_insert, List.mem_cons]
        constructor
        · rintro ((rfl | ⟨hold, _⟩) | hin)
          · exact .inr (.inl rfl)
          · exact .inl hold
          · exact .inr (.inr hin)
        · rintro (hold | rfl | hin)
          · refine .inl (.inr ⟨hold, ?_⟩)
            rintro rfl
            exact OrdMap.get?_eq_none.mp hfresh pair.2 hold
          · exact .inl (.inl rfl)
          · exact .inr hin

theorem collectPending_of {U : Unicode} {entries : OrdMap Text Pending}
    {pending : List (Text × Pending)}
    (hchecks : ∀ pair ∈ pending, checkPending U pair.1 pair.2 = .ok ())
    (hnodup : (pending.map Prod.fst).Nodup)
    (hfresh : ∀ path ∈ pending.map Prod.fst, entries.get? path = none) :
    ∃ result, collectPending U entries pending = .ok result := by
  induction pending generalizing entries with
  | nil => exact ⟨entries, rfl⟩
  | cons head rest ih =>
      obtain ⟨path, item⟩ := head
      obtain ⟨hhead, htail⟩ := List.nodup_cons.mp hnodup
      have hstill : ∀ other ∈ rest.map Prod.fst,
          (entries.insert path item).get? other = none := by
        intro other hother
        rw [OrdMap.get?_insert, if_neg]
        · exact hfresh other (List.mem_cons_of_mem _ hother)
        · rintro rfl
          exact hhead hother
      obtain ⟨result, hresult⟩ := ih
        (fun pair hpair => hchecks pair (List.mem_cons_of_mem _ hpair)) htail
        hstill
      refine ⟨result, ?_⟩
      simp only [collectPending, except_bind_eq_ok, exists_unit, ensure_eq_ok]
      exact ⟨hchecks _ List.mem_cons_self, hfresh _ List.mem_cons_self,
        hresult⟩

/-- A link group is sound when its key is a declared file and its members are
declared links of it. -/
def GroupSound (entries : OrdMap Text Pending) (group : Text × List Text) :
    Prop :=
  (∃ executable planner contract records,
    (group.1, Pending.file executable planner contract records) ∈
      entries.entries) ∧
    ∀ link ∈ group.2, (link, Pending.hardlinkTo group.1) ∈ entries.entries

theorem hardlinkGroups_sound {entries : OrdMap Text Pending}
    {groups result : OrdMap Text (List Text)} {pending : List (Text × Pending)}
    (hpending : ∀ pair ∈ pending, pair ∈ entries.entries)
    (hgroups : ∀ group ∈ groups.entries, GroupSound entries group)
    (h : hardlinkGroups entries groups pending = .ok result) :
    ∀ group ∈ result.entries, GroupSound entries group := by
  induction pending generalizing groups with
  | nil =>
      cases h
      exact hgroups
  | cons head rest ih =>
      obtain ⟨path, item⟩ := head
      have hrest : ∀ pair ∈ rest, pair ∈ entries.entries :=
        fun pair hpair => hpending pair (List.mem_cons_of_mem _ hpair)
      cases item with
      | directory => exact ih hrest hgroups h
      | file executable planner contract records => exact ih hrest hgroups h
      | symlink target => exact ih hrest hgroups h
      | hardlinkTo target =>
          have hhead := hpending _ List.mem_cons_self
          unfold hardlinkGroups at h
          split at h
          · rename_i executable planner contract records hfile
            refine ih hrest ?_ h
            intro group hgroup
            rcases OrdMap.mem_insert.mp hgroup with rfl | ⟨hold, _⟩
            · refine ⟨⟨_, _, _, _, OrdMap.get?_eq_some.mp hfile⟩, ?_⟩
              intro link hlink
              rcases List.mem_append.mp hlink with hlink | hlink
              · cases hget : groups.get? target with
                | none => simp [hget] at hlink
                | some links =>
                    rw [hget] at hlink
                    exact (hgroups _ (OrdMap.get?_eq_some.mp hget)).2 link hlink
              · rw [List.mem_singleton.mp hlink]
                exact hhead
            · exact hgroups group hold
          · cases h

theorem hardlinkGroups_of {entries : OrdMap Text Pending}
    {groups : OrdMap Text (List Text)} {pending : List (Text × Pending)}
    (htargets : ∀ path target,
      (path, Pending.hardlinkTo target) ∈ pending →
        ∃ executable planner contract records,
          entries.get? target =
            some (.file executable planner contract records)) :
    ∃ result, hardlinkGroups entries groups pending = .ok result := by
  induction pending generalizing groups with
  | nil => exact ⟨groups, rfl⟩
  | cons head rest ih =>
      obtain ⟨path, item⟩ := head
      have hrest := fun path target hmem =>
        htargets path target (List.mem_cons_of_mem _ hmem)
      cases item with
      | directory => exact ih hrest
      | file executable planner contract records => exact ih hrest
      | symlink target => exact ih hrest
      | hardlinkTo target =>
          obtain ⟨executable, planner, contract, records, hget⟩ :=
            htargets path target List.mem_cons_self
          simp only [hardlinkGroups, hget]
          exact ih hrest

theorem foldl_min_le (links : List Text) (path : Text) :
    links.foldl min path ≤ path := by
  induction links generalizing path with
  | nil => exact le_refl _
  | cons link links ih => exact (ih (min path link)).trans (min_le_left _ _)

theorem foldl_min_mem (links : List Text) (path : Text) :
    links.foldl min path = path ∨ links.foldl min path ∈ links := by
  induction links generalizing path with
  | nil => exact .inl rfl
  | cons link links ih =>
      rcases ih (min path link) with heq | hmem
      · rcases min_choice path link with hmin | hmin
        · left
          rw [List.foldl_cons, heq, hmin]
        · right
          rw [List.foldl_cons, heq, hmin]
          exact List.mem_cons_self
      · exact .inr (List.mem_cons_of_mem _ hmem)

theorem foldl_min_of_le {links : List Text} {path : Text}
    (h : ∀ link ∈ links, path ≤ link) : links.foldl min path = path := by
  induction links with
  | nil => rfl
  | cons link links ih =>
      rw [List.foldl_cons, min_eq_left (h link List.mem_cons_self)]
      exact ih fun other hother => h other (List.mem_cons_of_mem _ hother)

theorem mem_insertLinks {carrier : Text} {entries : OrdMap Text Pending}
    {links : List Text} {pair : Text × Pending} :
    pair ∈ (insertLinks carrier entries links).entries →
      pair ∈ entries.entries ∨
        (pair.1 ∈ links ∧ pair.2 = .hardlinkTo carrier) := by
  unfold insertLinks
  induction links generalizing entries with
  | nil => exact .inl
  | cons link links ih =>
      intro hmem
      rcases ih hmem with hmem | ⟨hmem, heq⟩
      · rcases OrdMap.mem_insert.mp hmem with rfl | ⟨hold, _⟩
        · exact .inr ⟨List.mem_cons_self, rfl⟩
        · exact .inl hold
      · exact .inr ⟨List.mem_cons_of_mem _ hmem, heq⟩

/-- Re-rooting moves bodies between declared paths and leaves every symlink in
place. -/
structure Rerooted (original current : OrdMap Text Pending) : Prop where
  keys : ∀ pair ∈ current.entries, ∃ item, (pair.1, item) ∈ original.entries
  symlinks : ∀ path target, (path, Pending.symlink target) ∈ current.entries →
    (path, Pending.symlink target) ∈ original.entries

theorem Rerooted.refl (entries : OrdMap Text Pending) :
    Rerooted entries entries :=
  ⟨fun pair hpair => ⟨pair.2, hpair⟩, fun _ _ h => h⟩

theorem rerootGroup_rerooted {original current : OrdMap Text Pending}
    {filePath : Text} {links : List Text} (hcurrent : Rerooted original current)
    (hsound : GroupSound original (filePath, links)) :
    Rerooted original (rerootGroup current filePath links) := by
  obtain ⟨⟨executable, planner, contract, records, hfile⟩, hlinks⟩ := hsound
  simp only [rerootGroup]
  split
  · exact hcurrent
  · rename_i hcarrier
    split
    · exact hcurrent
    · rename_i body hbody
      have hcarrierMem := (foldl_min_mem links filePath).resolve_left hcarrier
      have hcases : ∀ pair ∈ ((insertLinks (links.foldl min filePath)
          ((current.erase filePath).insert filePath
            (.hardlinkTo (links.foldl min filePath))) links).insert
          (links.foldl min filePath) body).entries,
          pair = (links.foldl min filePath, body) ∨
            pair ∈ current.entries ∨
            ((pair.1 = filePath ∨ pair.1 ∈ links) ∧
              pair.2 = .hardlinkTo (links.foldl min filePath)) := by
        intro pair hpair
        rcases OrdMap.mem_insert.mp hpair with rfl | ⟨hpair, _⟩
        · exact .inl rfl
        · rcases mem_insertLinks hpair with hpair | ⟨hlink, heq⟩
          · rcases OrdMap.mem_insert.mp hpair with rfl | ⟨hpair, _⟩
            · exact .inr (.inr ⟨.inl rfl, rfl⟩)
            · exact .inr (.inl (OrdMap.mem_erase.mp hpair).1)
          · exact .inr (.inr ⟨.inr hlink, heq⟩)
      constructor
      · intro pair hpair
        rcases hcases pair hpair with rfl | hold | ⟨hpath | hpath, _⟩
        · exact ⟨_, hlinks _ hcarrierMem⟩
        · exact hcurrent.keys pair hold
        · rw [hpath]
          exact ⟨_, hfile⟩
        · exact ⟨_, hlinks _ hpath⟩
      · intro path target hpair
        rcases hcases _ hpair with heq | hold | ⟨_, heq⟩
        · -- A symlink body would have to sit on the group's declared file.
          obtain ⟨rfl, rfl⟩ := Prod.mk.inj heq
          have hsym := hcurrent.symlinks _ _ (OrdMap.get?_eq_some.mp hbody)
          have hget := OrdMap.get?_eq_some.mpr hsym
          rw [OrdMap.get?_eq_some.mpr hfile] at hget
          cases hget
        · exact hcurrent.symlinks path target hold
        · cases heq

theorem reroot_rerooted {original : OrdMap Text Pending}
    {groups : List (Text × List Text)}
    (hsound : ∀ group ∈ groups, GroupSound original group) :
    Rerooted original (reroot original groups) := by
  suffices hgeneral : ∀ current, Rerooted original current →
      Rerooted original (groups.foldl
        (fun entries group => rerootGroup entries group.1 group.2) current) from
    hgeneral original (Rerooted.refl original)
  induction groups with
  | nil => exact fun _ h => h
  | cons group groups ih =>
      intro current hcurrent
      exact ih (fun other hother => hsound other (List.mem_cons_of_mem _ hother))
        _ (rerootGroup_rerooted hcurrent (hsound group List.mem_cons_self))

/-- When every link sorts after its target no body moves. -/
theorem reroot_eq_self {entries : OrdMap Text Pending}
    {groups : List (Text × List Text)}
    (h : ∀ group ∈ groups, ∀ link ∈ group.2, group.1 < link) :
    reroot entries groups = entries := by
  unfold reroot
  induction groups with
  | nil => rfl
  | cons group groups ih =>
      have hgroup : rerootGroup entries group.1 group.2 = entries := by
        simp only [rerootGroup]
        rw [if_pos]
        exact foldl_min_of_le fun link hlink =>
          le_of_lt (h group List.mem_cons_self link hlink)
      rw [List.foldl_cons, hgroup]
      exact ih fun other hother => h other (List.mem_cons_of_mem _ hother)

theorem declaredLength_eq_ok {sum total : Nat} {records : List FileRecord}
    (hsum : sum < 2 ^ 64) :
    declaredLength sum records = .ok total ↔
      (∀ record ∈ records, record.length ≠ 0) ∧
        total = sum + totalSize records ∧ total < 2 ^ 64 := by
  induction records generalizing sum with
  | nil =>
      simp only [declaredLength, Except.ok.injEq, List.not_mem_nil, totalSize_nil,
        false_implies, implies_true, true_and]
      omega
  | cons record records ih =>
      simp only [declaredLength, except_bind_eq_ok, ensure_eq_ok, exists_unit,
        List.forall_mem_cons, totalSize_cons]
      constructor
      · rintro ⟨hzero, hfits, hrest⟩
        obtain ⟨hall, htotal, hlt⟩ := (ih hfits).mp hrest
        exact ⟨⟨hzero, hall⟩, by omega, hlt⟩
      · rintro ⟨⟨hzero, hall⟩, htotal, hlt⟩
        have hfits : sum + record.size < 2 ^ 64 := by omega
        exact ⟨hzero, hfits, (ih hfits).mpr ⟨hall, by omega, hlt⟩⟩

theorem resolveEntry_file {ordinals : OrdMap Text Nat} {path : Text}
    {executable : Bool} {planner : PlannerId} {contract : Stamp}
    {records : List FileRecord} {result : TreeEntry × OrdMap Text Nat} :
    resolveEntry ordinals path (.file executable planner contract records) =
        .ok result ↔
      ValidRun records ∧
        result = (.file executable planner contract records,
          ordinals.insert path ordinals.entries.length) := by
  simp only [resolveEntry, except_bind_eq_ok, exists_unit, Except.ok.injEq,
    validateRecordRun_eq_ok]
  constructor
  · rintro ⟨total, _, ⟨hrun, _⟩, rfl⟩
    exact ⟨hrun, rfl⟩
  · rintro ⟨hrun, rfl⟩
    refine ⟨totalSize records, ?_, ⟨hrun, ?_⟩, rfl⟩
    · exact (declaredLength_eq_ok (by omega)).mpr
        ⟨hrun.shape.ne_zero, by omega, hrun.fits⟩
    · rw [toNat_ofNat_of_lt hrun.fits]

theorem canonicalBody_ok {planner : PlannerId} {contract : Stamp}
    {records : List FileRecord} {body : FileBody} (hrun : ValidRun records)
    (h : canonicalBody planner contract records = .ok body) :
    BodyOk body := by
  unfold canonicalBody at h
  split at h
  · simp only [except_bind_eq_ok, exists_unit, Except.ok.injEq] at h
    obtain ⟨hvalid, rfl⟩ := h
    exact hvalid
  · split at h
    · cases h
      exact fun _ => rfl
    · cases h
      rename_i digest length
      exact fun hzero =>
        absurd hzero (hrun.shape.ne_zero (.data digest length) (by simp))
    · cases h

theorem checkPending_eq_ok {U : Unicode} {path : Text} {item : Pending}
    {u : Unit} :
    checkPending U path item = .ok u ↔
      validatePath U path = .ok () ∧
        ∀ target, item = .symlink target →
          validateSymlinkTarget target = .ok () := by
  simp only [checkPending, except_bind_eq_ok, exists_unit]
  cases item <;> simp

theorem canonicalEntries_map {resolved : List (Text × TreeEntry)}
    {finished : List (Text × Entry)}
    (h : canonicalEntries resolved = .ok finished) :
    finished.map (fun pair => (pair.1, pair.2.isDirectory)) =
      resolved.map (fun pair => (pair.1, pair.2.isDirectory)) := by
  induction resolved generalizing finished with
  | nil =>
      cases h
      rfl
  | cons head rest ih =>
      obtain ⟨path, entry⟩ := head
      simp only [canonicalEntries, except_bind_eq_ok, Except.ok.injEq] at h
      obtain ⟨found, hentry, tail, htail, rfl⟩ := h
      have hkind : found.isDirectory = entry.isDirectory := by
        cases entry with
        | file executable planner contract records =>
            simp only [canonicalEntry, except_bind_eq_ok,
              Except.ok.injEq] at hentry
            obtain ⟨body, _, rfl⟩ := hentry
            rfl
        | directory => cases hentry; rfl
        | symlink target => cases hentry; rfl
        | hardlink ordinal => cases hentry; rfl
      simp [ih htail, hkind]

theorem mem_flags {f : α → Bool} {entries : List (Text × α)} {path : Text} :
    (path, true) ∈ entries.map (fun pair => (pair.1, f pair.2)) ↔
      ∃ entry, (path, entry) ∈ entries ∧ f entry = true := by
  simp only [List.mem_map, Prod.mk.injEq, Prod.exists]
  constructor
  · rintro ⟨_, entry, hmem, rfl, hflag⟩
    exact ⟨entry, hmem, hflag⟩
  · rintro ⟨entry, hmem, hflag⟩
    exact ⟨path, entry, hmem, rfl, hflag⟩

/-- The whole-tree rule looks only at the paths and at which of them are
directories. -/
theorem validateTree_congr {U : Unicode} {isLeft : α → Bool}
    {isRight : β → Bool} {left : List (Text × α)} {right : List (Text × β)}
    (h : left.map (fun pair => (pair.1, isLeft pair.2)) =
      right.map (fun pair => (pair.1, isRight pair.2))) :
    validateTree U isLeft left = .ok () ↔
      validateTree U isRight right = .ok () := by
  have hpaths : left.map Prod.fst = right.map Prod.fst := by
    have hfst := congrArg (List.map Prod.fst) h
    simpa [List.map_map, Function.comp_def] using hfst
  have hmem : ∀ path, (∃ entry, (path, entry) ∈ left ∧ isLeft entry = true) ↔
      ∃ entry, (path, entry) ∈ right ∧ isRight entry = true := by
    intro path
    rw [← mem_flags, ← mem_flags, h]
  have hfold : (left.map fun pair => caseFold U pair.1) =
      right.map fun pair => caseFold U pair.1 := by
    have := congrArg (List.map (caseFold U)) hpaths
    simpa [List.map_map, Function.comp_def] using this
  rw [validateTree_eq_ok, validateTree_eq_ok, hfold]
  simp only [hmem]
  have hall : (∀ pair ∈ left, ∀ parent, parentOf pair.1 = some parent →
        ∃ entry, (parent, entry) ∈ right ∧ isRight entry = true) ↔
      ∀ path ∈ left.map Prod.fst, ∀ parent, parentOf path = some parent →
        ∃ entry, (parent, entry) ∈ right ∧ isRight entry = true := by
    simp [List.mem_map]
  rw [hall, hpaths]
  simp [List.mem_map]

theorem canonicalEntries_entriesOk {U : Unicode} {ordinals : OrdMap Text Nat}
    {entries : List (Text × Pending)} {resolved : List (Text × TreeEntry)}
    {finished : List (Text × Entry)} {previous : Option Text}
    (hsorted : entries.Pairwise fun left right => left.1 < right.1)
    (hprevious : ∀ path ∈ previous, ∀ pair ∈ entries, path < pair.1)
    (hchecks : ∀ pair ∈ entries, checkPending U pair.1 pair.2 = .ok ())
    (hordinals : ∀ pair ∈ ordinals.entries,
      pair.2 < ordinals.entries.length ∧ ∀ other ∈ entries, pair.1 < other.1)
    (hbound : ordinals.entries.length + entries.length ≤ 2 ^ 64)
    (hresolved : resolveEntries ordinals entries = .ok resolved)
    (hfinished : canonicalEntries resolved = .ok finished) :
    EntriesOk U previous ordinals.entries.length finished ∧
      finished.length = entries.length := by
  induction entries generalizing ordinals resolved finished previous with
  | nil =>
      cases hresolved
      cases hfinished
      exact ⟨trivial, rfl⟩
  | cons head rest ih =>
      obtain ⟨path, item⟩ := head
      obtain ⟨hhead, htail⟩ := List.pairwise_cons.mp hsorted
      simp only [resolveEntries, except_bind_eq_ok, Except.ok.injEq] at hresolved
      obtain ⟨⟨entry, next⟩, hentry, tail, htailResolved, rfl⟩ := hresolved
      simp only [canonicalEntries, except_bind_eq_ok, Except.ok.injEq] at hfinished
      obtain ⟨final, hfinal, finals, hfinals, rfl⟩ := hfinished
      obtain ⟨hpath, htarget⟩ :=
        checkPending_eq_ok.mp (hchecks _ List.mem_cons_self)
      have horder : checkOrder previous path = .ok () := by
        cases previous with
        | none => rfl
        | some previous =>
            have hlt := hprevious previous rfl _ List.mem_cons_self
            simp [checkOrder, hlt]
      have hrestChecks : ∀ pair ∈ rest, checkPending U pair.1 pair.2 = .ok () :=
        fun pair hpair => hchecks pair (List.mem_cons_of_mem _ hpair)
      have hrestPrevious : ∀ other ∈ some path, ∀ pair ∈ rest,
          other < pair.1 := by
        intro other hother pair hpair
        cases hother
        exact hhead pair hpair
      have hkept : ∀ pair ∈ ordinals.entries,
          pair.2 < ordinals.entries.length ∧
            ∀ other ∈ rest, pair.1 < other.1 := fun pair hpair =>
        ⟨(hordinals pair hpair).1, fun other hother =>
          (hordinals pair hpair).2 other (List.mem_cons_of_mem _ hother)⟩
      have hrestBound : ordinals.entries.length + rest.length ≤ 2 ^ 64 := by
        simp only [List.length_cons] at hbound
        omega
      cases item with
      | directory =>
          cases hentry
          cases hfinal
          obtain ⟨hok, hlen⟩ := ih htail hrestPrevious hrestChecks hkept
            hrestBound htailResolved hfinals
          exact ⟨⟨hpath, horder, trivial, hok⟩, by simp [hlen]⟩
      | symlink target =>
          cases hentry
          cases hfinal
          obtain ⟨hok, hlen⟩ := ih htail hrestPrevious hrestChecks hkept
            hrestBound htailResolved hfinals
          exact ⟨⟨hpath, horder, htarget target rfl, hok⟩, by simp [hlen]⟩
      | hardlinkTo targetPath =>
          simp only [resolveEntry] at hentry
          split at hentry
          · rename_i ordinal hordinal
            cases hentry
            cases hfinal
            obtain ⟨hok, hlen⟩ := ih htail hrestPrevious hrestChecks hkept
              hrestBound htailResolved hfinals
            have hlt := (hordinals _ (OrdMap.get?_eq_some.mp hordinal)).1
            exact ⟨⟨hpath, horder, ⟨hlt, by simp only at hlt; omega⟩, hok⟩,
              by simp [hlen]⟩
          · cases hentry
      | file executable planner contract records =>
          obtain ⟨hrun, heq⟩ := resolveEntry_file.mp hentry
          cases heq
          simp only [canonicalEntry, except_bind_eq_ok,
            Except.ok.injEq] at hfinal
          obtain ⟨body, hbody, rfl⟩ := hfinal
          have happend : (ordinals.insert path ordinals.entries.length).entries =
              ordinals.entries ++ [(path, ordinals.entries.length)] :=
            OrdMap.insertList_of_gt fun pair hpair =>
              (hordinals pair hpair).2 _ List.mem_cons_self
          have hnext : ∀ pair ∈
              (ordinals.insert path ordinals.entries.length).entries,
              pair.2 < (ordinals.insert path
                ordinals.entries.length).entries.length ∧
                ∀ other ∈ rest, pair.1 < other.1 := by
            intro pair hpair
            rw [happend] at hpair ⊢
            rw [List.length_append, List.length_singleton]
            rcases List.mem_append.mp hpair with hpair | hpair
            · obtain ⟨hlt, hafter⟩ := hkept pair hpair
              exact ⟨by omega, hafter⟩
            · rw [List.mem_singleton.mp hpair]
              exact ⟨by simp, fun other hother => hhead other hother⟩
          obtain ⟨hok, hlen⟩ := ih htail hrestPrevious hrestChecks hnext
            (by
              rw [happend, List.length_append, List.length_singleton]
              simp only [List.length_cons] at hbound
              omega) htailResolved hfinals
          rw [happend, List.length_append, List.length_singleton] at hok
          exact ⟨⟨hpath, horder, canonicalBody_ok hrun hbody, hok⟩,
            by simp [hlen]⟩

end TensorFS
