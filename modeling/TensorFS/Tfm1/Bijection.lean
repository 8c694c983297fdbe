import TensorFS.Tfm1.BuilderSpec

namespace TensorFS

open Data

/-! Finished builders and accepted manifests are the same snapshots. -/

theorem SnapshotBuilder.finish_canonical {U : Unicode}
    {builder : SnapshotBuilder} {snapshot : Snapshot}
    (hcount : builder.pending.length < 2 ^ 64)
    (h : builder.finish U = .ok snapshot) : Canonical U snapshot := by
  simp only [finish, resolve, except_bind_eq_ok, exists_unit,
    Except.ok.injEq] at h
  obtain ⟨_, ⟨entries, hcollect, groups, hgroups, resolved, hresolved, htree,
    rfl⟩, finished, hfinished, rfl⟩ := h
  obtain ⟨hchecks, hnodup, _, hmem⟩ := collectPending_eq_ok hcollect
  have hlen : (reroot entries groups.entries).entries.length ≤
      builder.pending.length := by
    have hsubset : (reroot entries groups.entries).entries.map Prod.fst ⊆
        builder.pending.map Prod.fst := by
      intro path hpath
      obtain ⟨pair, hpair, rfl⟩ := List.mem_map.mp hpath
      obtain ⟨item, hitem⟩ := (reroot_rerooted (hardlinkGroups_sound
        (fun _ h => h) (by simp) hgroups)).keys pair hpair
      have hdeclared := (hmem (pair.1, item)).mp hitem
      simp only [OrdMap.entries_empty, List.not_mem_nil, false_or] at hdeclared
      exact List.mem_map.mpr ⟨_, hdeclared, rfl⟩
    have hle := (List.subperm_of_subset
      (OrdMap.keys_nodup (reroot entries groups.entries)) hsubset).length_le
    simpa using hle
  have hrerooted := reroot_rerooted
    (hardlinkGroups_sound (fun _ h => h) (by simp) hgroups)
  have hdeclared : ∀ pair ∈ entries.entries,
      checkPending U pair.1 pair.2 = .ok () := by
    intro pair hpair
    have hdeclared := (hmem pair).mp hpair
    simp only [OrdMap.entries_empty, List.not_mem_nil, false_or] at hdeclared
    exact hchecks pair hdeclared
  have hchecked : ∀ pair ∈ (reroot entries groups.entries).entries,
      checkPending U pair.1 pair.2 = .ok () := by
    intro pair hpair
    obtain ⟨item, hitem⟩ := hrerooted.keys pair hpair
    refine checkPending_eq_ok.mpr
      ⟨(checkPending_eq_ok.mp (hdeclared _ hitem)).1, ?_⟩
    intro target htarget
    have hsymlink : (pair.1, Pending.symlink target) ∈
        (reroot entries groups.entries).entries := by
      rw [← htarget]
      exact hpair
    exact (checkPending_eq_ok.mp
      (hdeclared _ (hrerooted.symlinks _ _ hsymlink))).2 target rfl
  obtain ⟨hok, hfinishedLen⟩ := @canonicalEntries_entriesOk U .empty _ _ _
    none (OrdMap.sorted _) (by simp) hchecked (by simp)
    (by simp only [OrdMap.entries_empty, List.length_nil]; omega)
    hresolved hfinished
  refine ⟨hok, ?_, ?_⟩
  · exact (validateTree_congr (canonicalEntries_map hfinished)).mpr htree
  · show finished.length < 2 ^ 64
    omega

/-! Declarations whose links already sort after their targets. -/

/-- The number of declared files that sort before a path. -/
def ordinalOf (entries : List (Text × Pending)) (path : Text) : Nat :=
  (entries.filter fun pair => pair.2.isFile && pair.1 < path).length

def treeEntryOf (entries : List (Text × Pending)) : Pending → TreeEntry
  | .directory => .directory
  | .file executable planner contract records =>
      .file executable planner contract records
  | .symlink target => .symlink target
  | .hardlinkTo target => .hardlink (ordinalOf entries target)

structure RootedEntries (entries : List (Text × Pending)) : Prop where
  runs : ∀ path executable planner contract records,
    (path, Pending.file executable planner contract records) ∈ entries →
      ValidRun records
  links : ∀ path target, (path, Pending.hardlinkTo target) ∈ entries →
    target < path ∧ ∃ executable planner contract records,
      (target, Pending.file executable planner contract records) ∈ entries

theorem ordinalOf_split {before rest : List (Text × Pending)}
    {pair : Text × Pending}
    (hsorted : (before ++ pair :: rest).Pairwise
      fun left right => left.1 < right.1) :
    ordinalOf (before ++ pair :: rest) pair.1 =
      (before.filter fun pair => pair.2.isFile).length := by
  obtain ⟨_, hright, hcross⟩ := List.pairwise_append.mp hsorted
  obtain ⟨hpair, _⟩ := List.pairwise_cons.mp hright
  unfold ordinalOf
  rw [List.filter_append, List.filter_cons]
  have hbefore : (before.filter fun other =>
      other.2.isFile && decide (other.1 < pair.1)) =
        before.filter fun other => other.2.isFile := by
    apply List.filter_congr
    intro other hother
    simp [hcross other hother pair List.mem_cons_self]
  have hrest : (rest.filter fun other =>
      other.2.isFile && decide (other.1 < pair.1)) = [] := by
    rw [List.filter_eq_nil_iff]
    intro other hother
    simp [not_lt_of_gt (hpair other hother)]
  rw [hbefore, hrest]
  simp

theorem resolveEntries_rooted {all before rest : List (Text × Pending)}
    {ordinals : OrdMap Text Nat} (hall : all = before ++ rest)
    (hsorted : all.Pairwise fun left right => left.1 < right.1)
    (hrooted : RootedEntries all)
    (hcount : ordinals.entries.length =
      (before.filter fun pair => pair.2.isFile).length)
    (hbelow : ∀ pair ∈ ordinals.entries, ∀ other ∈ rest, pair.1 < other.1)
    (hget : ∀ path executable planner contract records,
      (path, Pending.file executable planner contract records) ∈ before →
        ordinals.get? path = some (ordinalOf all path)) :
    resolveEntries ordinals rest =
      .ok (rest.map fun pair => (pair.1, treeEntryOf all pair.2)) := by
  induction rest generalizing before ordinals with
  | nil => rfl
  | cons head rest ih =>
      obtain ⟨path, item⟩ := head
      have hsplit : all = (before ++ [(path, item)]) ++ rest := by
        simp [hall]
      have hmember : (path, item) ∈ all := by simp [hall]
      have hafter : ∀ pair ∈ rest, path < pair.1 := by
        rw [hall] at hsorted
        exact fun pair hpair => (List.pairwise_cons.mp
          (List.pairwise_append.mp hsorted).2.1).1 pair hpair
      have hrestBelow : ∀ pair ∈ ordinals.entries, ∀ other ∈ rest,
          pair.1 < other.1 := fun pair hpair other hother =>
        hbelow pair hpair other (List.mem_cons_of_mem _ hother)
      cases item with
      | directory =>
          have htail := @ih _ ordinals hsplit (by simp [hcount])
            hrestBelow (by
              intro path executable planner contract records hmem
              exact hget _ executable planner contract records
                (by simpa using hmem))
          simp [resolveEntries, resolveEntry, htail, treeEntryOf]
      | symlink target =>
          have htail := @ih _ ordinals hsplit (by simp [hcount])
            hrestBelow (by
              intro path executable planner contract records hmem
              exact hget _ executable planner contract records
                (by simpa using hmem))
          simp [resolveEntries, resolveEntry, htail, treeEntryOf]
      | hardlinkTo target =>
          have htail := @ih _ ordinals hsplit (by simp [hcount])
            hrestBelow (by
              intro path executable planner contract records hmem
              exact hget _ executable planner contract records
                (by simpa using hmem))
          obtain ⟨hlt, executable, planner, contract, records, hfile⟩ :=
            hrooted.links path target hmember
          have hbefore : (target, Pending.file executable planner contract
              records) ∈ before := by
            rw [hall] at hfile
            rcases List.mem_append.mp hfile with hfile | hfile
            · exact hfile
            · rcases List.mem_cons.mp hfile with heq | hfile
              · cases heq
              · exact absurd (hafter _ hfile) (not_lt_of_gt hlt)
          simp [resolveEntries, resolveEntry,
            hget _ _ _ _ _ hbefore, htail, treeEntryOf]
      | file executable planner contract records =>
          have hrun := hrooted.runs _ _ _ _ _ hmember
          have hordinal : ordinalOf all path = ordinals.entries.length := by
            rw [hcount, hall]
            exact ordinalOf_split (by rw [← hall]; exact hsorted)
          have happend : (ordinals.insert path ordinals.entries.length).entries =
              ordinals.entries ++ [(path, ordinals.entries.length)] :=
            OrdMap.insertList_of_gt fun pair hpair =>
              hbelow pair hpair _ List.mem_cons_self
          have htail := @ih _ (ordinals.insert path ordinals.entries.length)
            hsplit
            (by
              rw [happend, List.length_append, List.filter_append,
                List.length_append, hcount]
              rfl)
            (by
              intro pair hpair other hother
              rw [happend] at hpair
              rcases List.mem_append.mp hpair with hpair | hpair
              · exact hrestBelow pair hpair other hother
              · rw [List.mem_singleton.mp hpair]
                exact hafter other hother)
            (by
              intro other executable planner contract records hmem
              rw [OrdMap.get?_insert]
              split
              · rename_i heq
                rw [heq, hordinal]
              · rename_i hne
                rcases List.mem_append.mp hmem with hmem | hmem
                · exact hget other executable planner contract records hmem
                · cases List.mem_singleton.mp hmem
                  exact absurd rfl hne)
          have hentry : resolveEntry ordinals path
              (.file executable planner contract records) = .ok _ :=
            resolveEntry_file.mpr ⟨hrun, rfl⟩
          simp only [resolveEntries, hentry, except_ok_bind, htail,
            List.map_cons, treeEntryOf]

/-- Builders whose links sort after their targets resolve entry by entry. -/
theorem SnapshotBuilder.resolve_rooted {U : Unicode}
    {builder : SnapshotBuilder} {entries : OrdMap Text Pending}
    (hcollect : collectPending U .empty builder.pending = .ok entries)
    (hrooted : RootedEntries entries.entries)
    (htree : validateTree U TreeEntry.isDirectory (entries.entries.map fun pair =>
      (pair.1, treeEntryOf entries.entries pair.2)) = .ok ()) :
    builder.resolve U = .ok (entries.entries.map fun pair =>
      (pair.1, treeEntryOf entries.entries pair.2)) := by
  obtain ⟨groups, hgroups⟩ := @hardlinkGroups_of entries .empty
    entries.entries (by
      intro path target hmem
      obtain ⟨_, executable, planner, contract, records, hfile⟩ :=
        hrooted.links path target hmem
      exact ⟨executable, planner, contract, records,
        OrdMap.get?_eq_some.mpr hfile⟩)
  have hsound := hardlinkGroups_sound (fun _ h => h) (by simp) hgroups
  have hself : reroot entries groups.entries = entries :=
    reroot_eq_self fun group hgroup link hlink =>
      (hrooted.links _ _ ((hsound group hgroup).2 link hlink)).1
  have hresolved := @resolveEntries_rooted entries.entries [] _ .empty rfl
    entries.sorted hrooted
    (by simp) (by simp) (by simp)
  unfold resolve
  rw [hcollect, except_ok_bind, hgroups, except_ok_bind, hself, hresolved,
    except_ok_bind, htree]
  rfl

/-! Every accepted manifest is what some builder finishes. -/

def FileBody.contract : FileBody → Stamp
  | .tensor _ contract _ _ => contract
  | .blob .. => .none

/-- The declaration that reproduces one entry of a snapshot. -/
def Snapshot.pendingOf (snapshot : Snapshot) : Entry → Pending
  | .directory => .directory
  | .file executable body =>
      .file executable body.plannerId body.contract body.records
  | .symlink target => .symlink target
  | .hardlink ordinal =>
      .hardlinkTo ((snapshot.ordinalPath ordinal).getD [])

def Snapshot.declarations (snapshot : Snapshot) : List (Text × Pending) :=
  snapshot.entries.map fun pair => (pair.1, snapshot.pendingOf pair.2)

theorem BodyOk.validRun {body : FileBody} (hbody : BodyOk body) :
    ValidRun body.records := by
  cases body with
  | tensor format contract logicalSize records =>
      exact (validateRecords_eq_ok.mp hbody).1
  | blob logicalSize digest =>
      simp only [FileBody.records]
      split
      · exact ⟨by simp [maxFileRecords], trivial, by simp⟩
      · rename_i hsize
        refine ⟨by simp [maxFileRecords], ⟨hsize, rfl, trivial⟩, ?_⟩
        simpa using FileRecord.size_lt (.data digest logicalSize)

theorem BodyOk.canonicalBody {body : FileBody} (hbody : BodyOk body) :
    canonicalBody body.plannerId body.contract body.records = .ok body := by
  cases body with
  | tensor format contract logicalSize records =>
      obtain ⟨_, htotal, _⟩ := validateRecords_eq_ok.mp hbody
      have hsize : UInt64.ofNat (totalSize records) = logicalSize := by
        rw [htotal, UInt64.ofNat_toNat]
      simp only [TensorFS.canonicalBody, FileBody.plannerId, FileBody.contract,
        FileBody.records, TensorFormat.tensorFormat_plannerId, hsize]
      rw [show validateRecords records logicalSize = .ok () from hbody]
      rfl
  | blob logicalSize digest =>
      by_cases hzero : logicalSize = 0
      · rw [hzero, hbody hzero]
        rfl
      · simp [TensorFS.canonicalBody, FileBody.plannerId, FileBody.records,
          PlannerId.tensorFormat, hzero]

theorem EntriesOk.sorted {U : Unicode} {previous : Option Text}
    {assigned : Nat} {entries : List (Text × Entry)}
    (h : EntriesOk U previous assigned entries) :
    entries.Pairwise (fun left right => left.1 < right.1) ∧
      ∀ path ∈ previous, ∀ pair ∈ entries, path < pair.1 := by
  induction entries generalizing previous assigned with
  | nil => simp
  | cons head rest ih =>
      obtain ⟨_, horder, _, hrest⟩ := h
      obtain ⟨hsorted, hafter⟩ := ih hrest
      refine ⟨List.pairwise_cons.mpr ⟨hafter _ rfl, hsorted⟩, ?_⟩
      intro path hpath pair hpair
      have hlt : path < head.1 := by
        cases hpath
        by_contra hle
        simp only [checkOrder, hle, if_false] at horder
        split at horder <;> cases horder
      rcases List.mem_cons.mp hpair with rfl | hpair
      · exact hlt
      · exact hlt.trans (hafter _ rfl pair hpair)

/-- Each entry is checked against the number of files before it. -/
theorem EntriesOk.split {U : Unicode} {previous : Option Text}
    {assigned : Nat} {before rest : List (Text × Entry)}
    {pair : Text × Entry}
    (h : EntriesOk U previous assigned (before ++ pair :: rest)) :
    validatePath U pair.1 = .ok () ∧
      EntryOk (assigned + (before.filter fun pair => pair.2.isFile).length)
        pair.2 := by
  induction before generalizing previous assigned with
  | nil => exact ⟨h.1, h.2.2.1⟩
  | cons head before ih =>
      obtain ⟨hpath, hentry⟩ := ih h.2.2.2
      refine ⟨hpath, ?_⟩
      convert hentry using 1
      cases hfile : head.2.isFile with
      | true => simp [hfile]; omega
      | false => simp [hfile]

theorem split_of_filter_getElem? {α : Type u} {p : α → Bool} {xs : List α}
    {index : Nat} {x : α} (h : (xs.filter p)[index]? = some x) :
    p x = true ∧ ∃ before rest, xs = before ++ x :: rest ∧
      (before.filter p).length = index := by
  induction xs generalizing index with
  | nil => simp at h
  | cons head tail ih =>
      cases hhead : p head with
      | false =>
          rw [List.filter_cons_of_neg (by simp [hhead])] at h
          obtain ⟨hx, before, rest, rfl, hlen⟩ := ih h
          exact ⟨hx, head :: before, rest, rfl, by simp [hhead, hlen]⟩
      | true =>
          rw [List.filter_cons_of_pos hhead] at h
          cases index with
          | zero =>
              cases h
              exact ⟨hhead, [], tail, rfl, rfl⟩
          | succ index =>
              obtain ⟨hx, before, rest, rfl, hlen⟩ := ih h
              exact ⟨hx, head :: before, rest, rfl, by simp [hhead, hlen]⟩

/-- A hardlink's ordinal resolves to a file that sorts before the link. -/
theorem Canonical.carrier {U : Unicode} {snapshot : Snapshot}
    (hcanonical : Canonical U snapshot) {path : Text} {ordinal : Nat}
    (hlink : (path, Entry.hardlink ordinal) ∈ snapshot.entries) :
    ∃ carrier executable body before rest,
      snapshot.ordinalPath ordinal = some carrier ∧ carrier < path ∧
        snapshot.entries =
          before ++ (carrier, Entry.file executable body) :: rest ∧
        (before.filter fun pair => pair.2.isFile).length = ordinal := by
  obtain ⟨front, back, hsplit⟩ := List.append_of_mem hlink
  have hentries := hcanonical.entries
  obtain ⟨hsorted, _⟩ := hentries.sorted
  rw [hsplit] at hentries hsorted
  obtain ⟨_, hentry⟩ := hentries.split
  have hlt : ordinal < (front.filter fun pair => pair.2.isFile).length := by
    have := hentry.1
    omega
  have hget : (snapshot.entries.filter fun pair => pair.2.isFile)[ordinal]? =
      some ((front.filter fun pair => pair.2.isFile).get ⟨ordinal, hlt⟩) := by
    rw [hsplit, List.filter_append, List.getElem?_append_left hlt]
    exact List.getElem?_eq_getElem hlt
  have hfront := List.mem_of_mem_filter
    (List.get_mem (front.filter fun pair => pair.2.isFile) ⟨ordinal, hlt⟩)
  obtain ⟨hfile, before, rest, hat, hcount⟩ := split_of_filter_getElem? hget
  generalize (front.filter fun pair => pair.2.isFile).get ⟨ordinal, hlt⟩ =
    found at hget hfront hfile hat
  obtain ⟨carrier, entry⟩ := found
  have hbelow := (List.pairwise_append.mp hsorted).2.2 _ hfront _
    List.mem_cons_self
  cases entry with
  | file executable body =>
      exact ⟨carrier, executable, body, before, rest,
        by rw [Snapshot.ordinalPath, hget]; rfl, hbelow, hat, hcount⟩
  | directory => cases hfile
  | symlink target => cases hfile
  | hardlink ordinal => cases hfile

section Redeclare

variable {U : Unicode} {snapshot : Snapshot}

theorem isFile_pendingOf (entry : Entry) :
    (snapshot.pendingOf entry).isFile = entry.isFile := by
  cases entry <;> rfl

theorem filter_declarations (entries : List (Text × Entry)) :
    ((entries.map fun pair => (pair.1, snapshot.pendingOf pair.2)).filter
      fun pair => pair.2.isFile).length =
        (entries.filter fun pair => pair.2.isFile).length := by
  rw [List.filter_map, List.length_map]
  simp only [Function.comp_def, isFile_pendingOf]

theorem Canonical.sorted (hcanonical : Canonical U snapshot) :
    snapshot.entries.Pairwise fun left right => left.1 < right.1 :=
  hcanonical.entries.sorted.1

theorem Canonical.entryOk (hcanonical : Canonical U snapshot)
    {pair : Text × Entry} (hpair : pair ∈ snapshot.entries) :
    validatePath U pair.1 = .ok () ∧
      ∃ assigned, EntryOk assigned pair.2 := by
  obtain ⟨before, rest, hsplit⟩ := List.append_of_mem hpair
  have hentries := hcanonical.entries
  rw [hsplit] at hentries
  obtain ⟨hpath, hentry⟩ := hentries.split
  exact ⟨hpath, _, hentry⟩

theorem Canonical.declarations_sorted (hcanonical : Canonical U snapshot) :
    snapshot.declarations.Pairwise fun left right => left.1 < right.1 :=
  List.pairwise_map.mpr hcanonical.sorted

theorem Canonical.collect_declarations (hcanonical : Canonical U snapshot) :
    ∃ entries, collectPending U .empty snapshot.declarations = .ok entries ∧
      entries.entries = snapshot.declarations := by
  have hsorted := hcanonical.declarations_sorted
  have hnodup : (snapshot.declarations.map Prod.fst).Nodup :=
    List.pairwise_map.mpr (hsorted.imp ne_of_lt)
  have hchecks : ∀ pair ∈ snapshot.declarations,
      checkPending U pair.1 pair.2 = .ok () := by
    intro pair hpair
    obtain ⟨⟨path, entry⟩, hentry, rfl⟩ := List.mem_map.mp hpair
    obtain ⟨hpath, _, hok⟩ := hcanonical.entryOk hentry
    refine checkPending_eq_ok.mpr ⟨hpath, ?_⟩
    intro target htarget
    cases entry with
    | symlink found => cases htarget; exact hok
    | directory => cases htarget
    | file executable body => cases htarget
    | hardlink ordinal => cases htarget
  obtain ⟨entries, hentries⟩ := @collectPending_of U .empty _ hchecks
    hnodup (by simp)
  obtain ⟨_, _, _, hmem⟩ := collectPending_eq_ok hentries
  refine ⟨entries, hentries, ?_⟩
  have hperm : entries.entries.Perm snapshot.declarations := by
    refine (List.perm_ext_iff_of_nodup ?_ ?_).mpr fun pair => ?_
    · exact List.Nodup.of_map _ (OrdMap.keys_nodup entries)
    · exact List.Nodup.of_map _ hnodup
    · simpa using hmem pair
  exact hperm.eq_of_pairwise
    (fun left right _ _ hleft hright => absurd hleft (not_lt_of_gt hright))
    entries.sorted hsorted

theorem Canonical.ordinalOf_declarations (hcanonical : Canonical U snapshot)
    {path : Text} {ordinal : Nat}
    (hlink : (path, Entry.hardlink ordinal) ∈ snapshot.entries) :
    ordinalOf snapshot.declarations
      ((snapshot.ordinalPath ordinal).getD []) = ordinal := by
  obtain ⟨carrier, executable, body, before, rest, hordinal, _, hsplit,
    hcount⟩ := hcanonical.carrier hlink
  have hdeclarations : snapshot.declarations =
      (before.map fun pair => (pair.1, snapshot.pendingOf pair.2)) ++
        (carrier, snapshot.pendingOf (.file executable body)) ::
          (rest.map fun pair => (pair.1, snapshot.pendingOf pair.2)) := by
    rw [Snapshot.declarations, hsplit, List.map_append, List.map_cons]
  have hsorted := hcanonical.declarations_sorted
  rw [hordinal, Option.getD_some]
  rw [hdeclarations] at hsorted ⊢
  rw [ordinalOf_split hsorted, filter_declarations,
    hcount]

theorem Canonical.rooted (hcanonical : Canonical U snapshot) :
    RootedEntries snapshot.declarations := by
  constructor
  · intro path executable planner contract records hmem
    obtain ⟨⟨path, entry⟩, hentry, heq⟩ := List.mem_map.mp hmem
    obtain ⟨_, _, hok⟩ := hcanonical.entryOk hentry
    cases entry with
    | file executable body => cases heq; exact hok.validRun
    | directory => cases heq
    | symlink target => cases heq
    | hardlink ordinal => cases heq
  · intro path target hmem
    obtain ⟨⟨path, entry⟩, hentry, heq⟩ := List.mem_map.mp hmem
    cases entry with
    | hardlink ordinal =>
        cases heq
        obtain ⟨carrier, executable, body, before, rest, hordinal, hlt, hsplit,
          _⟩ := hcanonical.carrier hentry
        rw [hordinal, Option.getD_some]
        refine ⟨hlt, executable, body.plannerId, body.contract, body.records,
          List.mem_map.mpr ⟨(carrier, .file executable body), ?_, rfl⟩⟩
        rw [hsplit]
        simp
    | directory => cases heq
    | file executable body => cases heq
    | symlink target => cases heq

theorem Canonical.canonicalEntry (hcanonical : Canonical U snapshot)
    {pair : Text × Entry} (hpair : pair ∈ snapshot.entries) :
    canonicalEntry (treeEntryOf snapshot.declarations
      (snapshot.pendingOf pair.2)) = .ok pair.2 := by
  obtain ⟨path, entry⟩ := pair
  obtain ⟨_, _, hok⟩ := hcanonical.entryOk hpair
  cases entry with
  | directory => rfl
  | symlink target => rfl
  | file executable body =>
      simp [Snapshot.pendingOf, treeEntryOf, TensorFS.canonicalEntry,
        hok.canonicalBody]
  | hardlink ordinal =>
      simp [Snapshot.pendingOf, treeEntryOf, TensorFS.canonicalEntry,
        hcanonical.ordinalOf_declarations hpair]

theorem canonicalEntries_of_forall {f : Entry → TreeEntry}
    {entries : List (Text × Entry)}
    (h : ∀ pair ∈ entries, TensorFS.canonicalEntry (f pair.2) = .ok pair.2) :
    canonicalEntries (entries.map fun pair => (pair.1, f pair.2)) =
      .ok entries := by
  induction entries with
  | nil => rfl
  | cons head rest ih =>
      have hrest := ih fun pair hpair => h pair (List.mem_cons_of_mem _ hpair)
      simp [canonicalEntries, h head List.mem_cons_self, hrest]

/-- Declaring a canonical snapshot's own entries finishes to that snapshot. -/
theorem Canonical.finish_declarations (hcanonical : Canonical U snapshot) :
    SnapshotBuilder.finish U ⟨snapshot.parent, snapshot.declarations⟩ =
      .ok snapshot := by
  obtain ⟨entries, hcollect, hentries⟩ := hcanonical.collect_declarations
  have hfinished := canonicalEntries_of_forall
    (f := fun entry => treeEntryOf snapshot.declarations
      (snapshot.pendingOf entry)) fun pair hpair =>
    hcanonical.canonicalEntry hpair
  have htree := (validateTree_congr (canonicalEntries_map hfinished)).mp
    hcanonical.tree
  have hmap : (entries.entries.map fun pair =>
      (pair.1, treeEntryOf entries.entries pair.2)) =
        snapshot.entries.map fun pair => (pair.1,
          treeEntryOf snapshot.declarations (snapshot.pendingOf pair.2)) := by
    rw [hentries, Snapshot.declarations, List.map_map]
    rfl
  have hresolve := @SnapshotBuilder.resolve_rooted U
    ⟨snapshot.parent, snapshot.declarations⟩ entries hcollect
    (by rw [hentries]; exact hcanonical.rooted) (by rw [hmap]; exact htree)
  rw [SnapshotBuilder.finish, hresolve, except_ok_bind, hmap, hfinished]
  rfl

end Redeclare

/-! The ASCII fragment of the Unicode tables. -/

def asciiUnicode : Unicode where
  isNfc path := path.all fun c => c.toNat < 128
  toLowercase c := [c.toLower]

/-- Reading and writing TFM1 are inverse to each other, and the accepted
manifests are the finished builders. -/
theorem tfm1_canonical_bijection (U : Unicode) :
    (∀ (builder : SnapshotBuilder) (snapshot : Snapshot),
      builder.pending.length < 2 ^ 64 →
      builder.finish U = .ok snapshot →
        decode U snapshot.toBytes = .ok snapshot) ∧
    (∀ bytes snapshot, decode U bytes = .ok snapshot →
      decode U snapshot.toBytes = .ok snapshot ∧ snapshot.toBytes = bytes ∧
      (∃ builder : SnapshotBuilder, builder.pending.length < 2 ^ 64 ∧
        builder.finish U = .ok snapshot) ∧
      ∀ path ordinal, (path, Entry.hardlink ordinal) ∈ snapshot.entries →
        ∃ carrier executable body,
          snapshot.ordinalPath ordinal = some carrier ∧
          (carrier, Entry.file executable body) ∈ snapshot.entries ∧
          ∀ link, (link, Entry.hardlink ordinal) ∈ snapshot.entries →
            carrier < link) := by
  constructor
  · intro builder snapshot hcount hfinish
    exact decode_eq_ok.mpr
      ⟨SnapshotBuilder.finish_canonical hcount hfinish, rfl⟩
  · intro bytes snapshot hdecode
    obtain ⟨hcanonical, rfl⟩ := decode_eq_ok.mp hdecode
    refine ⟨hdecode, rfl, ⟨⟨snapshot.parent, snapshot.declarations⟩, ?_,
      hcanonical.finish_declarations⟩, ?_⟩
    · simpa [Snapshot.declarations] using hcanonical.count
    · intro path ordinal hlink
      obtain ⟨carrier, executable, body, before, rest, hordinal, _, hsplit,
        _⟩ := hcanonical.carrier hlink
      refine ⟨carrier, executable, body, hordinal, by rw [hsplit]; simp, ?_⟩
      intro link hlink
      obtain ⟨found, _, _, _, _, hfound, hlt, _⟩ := hcanonical.carrier hlink
      rw [hordinal] at hfound
      cases hfound
      exact hlt

/-- A file declared after its smaller alias: the alias carries the body. -/
def aliasDigest : Digest := ⟨List.replicate 32 7, rfl⟩

def aliasBuilder : SnapshotBuilder :=
  (((SnapshotBuilder.new none).directory "d".toList).file "d/b".toList true
    .blobV1 [.data aliasDigest 7]).hardlink "d/a".toList "d/b".toList

def aliasSnapshot : Snapshot where
  parent := none
  entries :=
    [("d".toList, .directory),
      ("d/a".toList, .file true (.blob 7 aliasDigest)),
      ("d/b".toList, .hardlink 0)]

theorem tfm1_canonical_bijection_alias :
    aliasBuilder.finish asciiUnicode = .ok aliasSnapshot ∧
      decode asciiUnicode aliasSnapshot.toBytes = .ok aliasSnapshot ∧
      ∃ builder : SnapshotBuilder, builder.pending.length < 2 ^ 64 ∧
        builder.finish asciiUnicode = .ok aliasSnapshot := by
  have hfinish : aliasBuilder.finish asciiUnicode = .ok aliasSnapshot := by
    decide +kernel
  have hdecode := (tfm1_canonical_bijection asciiUnicode).1 aliasBuilder
    aliasSnapshot (by decide) hfinish
  exact ⟨hfinish, hdecode, ((tfm1_canonical_bijection asciiUnicode).2
    aliasSnapshot.toBytes aliasSnapshot hdecode).2.2.1⟩

end TensorFS
