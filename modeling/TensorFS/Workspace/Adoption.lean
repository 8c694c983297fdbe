import TensorFS.Workspace.Frames

namespace TensorFS

open Data

variable {P : Platform}

/-! What an adoption in flight stands on. -/

section

variable {db : Db} {store : ObjectStore P}

/-- What an adoption has found or stored so far. -/
def Call.relied (P : Platform) : Call → List ObjectDigest
  | .adopt bytes snapshot unchecked stored =>
      (if stored then [P.sha256 bytes] else []) ++
        (manifestObjects snapshot).filter fun digest =>
          digest ∉ dataDigests unchecked
  | _ => []

theorem mem_relied_adopt {bytes : Bytes} {snapshot : Snapshot}
    {unchecked : List FileRecord} {stored : Bool} {digest : ObjectDigest} :
    digest ∈ (Call.adopt bytes snapshot unchecked stored).relied P ↔
      stored = true ∧ digest = P.sha256 bytes ∨
        digest ∈ manifestObjects snapshot ∧
          digest ∉ dataDigests unchecked := by
  cases stored with
  | false => simp [Call.relied]
  | true => simp [Call.relied]

/-- What a call in flight relies on is resident. -/
structure Call.Sound (store : ObjectStore P) (call : Call) : Prop where
  resident : ∀ digest ∈ call.relied P, store.existsObject digest = true
  decoded : ∀ bytes snapshot unchecked stored,
    call = .adopt bytes snapshot unchecked stored →
      decode P.unicode bytes = .ok snapshot ∧
        (stored = true → bytes ∈ store.admitted)

theorem Call.Sound.later {call : Call} (h : call.Sound store)
    {store' : ObjectStore P}
    (hkept : ∀ digest ∈ call.relied P, store.existsObject digest = true →
      store'.existsObject digest = true)
    (hadmitted : ∀ bytes ∈ store.admitted, bytes ∈ store'.admitted) :
    call.Sound store' := by
  refine ⟨fun digest hdigest => ?_, fun bytes snapshot unchecked stored heq => ?_⟩
  · exact hkept digest hdigest (h.resident digest hdigest)
  · obtain ⟨hdecoded, hstored⟩ := h.decoded bytes snapshot unchecked stored heq
    exact ⟨hdecoded, fun htrue => hadmitted bytes (hstored htrue)⟩

theorem sound_commit {name : Text} {mutations : List Mutation}
    {unverified : List ObjectDigest} :
    (Call.commit name mutations unverified).Sound store :=
  ⟨fun _ h => absurd h List.not_mem_nil, fun _ _ _ _ h => by cases h⟩

theorem sound_sealing {seams : Option Contract} {name : Text}
    {parent : Option SnapshotId} {retries : Nat} {phase : SealPhase} :
    (Call.sealing seams name parent retries phase).Sound store :=
  ⟨fun _ h => absurd h List.not_mem_nil, fun _ _ _ _ h => by cases h⟩

theorem advanceCommit_call {name : Text} {mutations : List Mutation}
    {unverified : List ObjectDigest} {next : Call}
    (h : (advanceCommit db store name mutations unverified).call =
      some next) : ∃ rest, next = .commit name mutations rest := by
  unfold advanceCommit at h
  split at h
  · split at h
    · cases h
      exact ⟨_, rfl⟩
    · cases h
  · split at h
    · cases h
    · cases h

theorem advanceSeal_call {seams : Option Contract} {name : Text}
    {parent : Option SnapshotId} {retries : Nat} {phase : SealPhase}
    {next : Call}
    (h : (advanceSeal db store seams name parent retries phase).call =
      some next) :
    ∃ retries phase, next = .sealing seams name parent retries phase := by
  cases phase with
  | capture =>
      simp only [advanceSeal] at h
      split at h
      · cases h
        exact ⟨_, _, rfl⟩
      · cases h
  | plan generation tree todo jobs =>
      cases todo with
      | nil =>
          simp only [advanceSeal, advanceTransaction] at h
          split at h
          · cases h
          · split at h
            · cases h
            · cases h
              exact ⟨_, _, rfl⟩
          · cases h
      | cons entry todo =>
          simp only [advanceSeal] at h
          split at h
          · cases h
            exact ⟨_, _, rfl⟩
          · cases h
  | admitting generation tree todo jobs draft =>
      simp only [advanceSeal] at h
      split at h
      · cases h
        exact ⟨_, _, rfl⟩
      · cases h
        exact ⟨_, _, rfl⟩
      · split at h
        · cases h
          exact ⟨_, _, rfl⟩
        · cases h

/-- Each step of an adoption adds to what it relies on only what it has just
found or stored. -/
theorem advanceAdopt_sound {bytes : Bytes} {snapshot : Snapshot}
    {unchecked : List FileRecord} {stored : Bool} {next : Call}
    (h : (Call.adopt bytes snapshot unchecked stored).Sound store)
    (hnext : (advanceAdopt db store bytes snapshot unchecked stored).call =
      some next) :
    next.Sound (advanceAdopt db store bytes snapshot unchecked stored).store := by
  obtain ⟨hdecoded, hstored⟩ := h.decoded _ _ _ _ rfl
  cases unchecked with
  | nil =>
      cases stored with
      | true => cases hnext
      | false =>
          cases hnext
          refine ⟨fun digest hdigest => ?_, fun _ _ _ _ heq => ?_⟩
          · rcases mem_relied_adopt.mp hdigest with ⟨_, rfl⟩ | hchecked
            · exact ObjectStore.existsObject_putBytes.mpr (.inr rfl)
            · exact ObjectStore.existsObject_putBytes.mpr
                (.inl (h.resident digest (mem_relied_adopt.mpr (.inr hchecked))))
          · cases heq
            exact ⟨hdecoded, fun _ => List.mem_cons_self⟩
  | cons record unchecked =>
      cases record with
      | hole length =>
          cases hnext
          refine ⟨fun digest hdigest => ?_, fun _ _ _ _ heq => ?_⟩
          · exact h.resident digest
              (mem_relied_adopt.mpr (mem_relied_adopt.mp hdigest))
          · cases heq
            exact ⟨hdecoded, hstored⟩
      | data found length =>
          simp only [advanceAdopt] at hnext ⊢
          split at hnext
          · rename_i hfound
            cases hnext
            rw [if_pos hfound]
            refine ⟨fun digest hdigest => ?_, fun _ _ _ _ heq => ?_⟩
            · rcases mem_relied_adopt.mp hdigest with hmanifest | hchecked
              · exact h.resident digest (mem_relied_adopt.mpr (.inl hmanifest))
              · by_cases hsame : digest = found
                · rw [hsame]
                  exact hfound
                · refine h.resident digest (mem_relied_adopt.mpr (.inr ?_))
                  refine ⟨hchecked.1, fun hmem => ?_⟩
                  rcases List.mem_cons.mp hmem with heq | hrest
                  · exact hsame heq
                  · exact hchecked.2 hrest
            · cases heq
              exact ⟨hdecoded, hstored⟩
          · cases hnext

theorem advanceCall_sound {call next : Call} (h : call.Sound store)
    (hnext : (advanceCall db store call).call = some next) :
    next.Sound (advanceCall db store call).store := by
  cases call with
  | commit name mutations unverified =>
      obtain ⟨rest, rfl⟩ := advanceCommit_call hnext
      exact sound_commit
  | sealing seams name parent retries phase =>
      obtain ⟨_, _, rfl⟩ := advanceSeal_call hnext
      exact sound_sealing
  | adopt bytes snapshot unchecked stored =>
      exact advanceAdopt_sound h hnext

end

namespace World

variable {w : World P} {action : Action}

def Sound (w : World P) : Prop := ∀ call ∈ w.calls, call.Sound w.store

/-- The step is no pass that takes an object an adoption in flight has found
or stored. -/
def SparesAdoptions (w : World P) (action : Action) : Prop :=
  ∀ call ∈ w.calls, ∀ digest ∈ call.relied P, w.Undue digest action

theorem sparesAdoptions_of_ne (h : action ≠ .collect) :
    w.SparesAdoptions action := by
  intro call _ digest _
  cases action with
  | collect => exact absurd rfl h
  | _ => trivial

theorem settle_calls {outcome : Outcome Db} :
    (w.settle outcome).calls = w.calls := by
  cases outcome with
  | ok db => rfl
  | error failure => rfl

theorem step_sound (h : w.Sound) (hspared : w.SparesAdoptions action) :
    (w.step action).Sound := by
  have hold : ∀ call ∈ w.calls, call.Sound (w.step action).store := by
    intro call hcall
    refine (h call hcall).later (fun digest hdigest hexists => ?_)
      fun _ hbytes => step_admitted hbytes
    exact step_existsObject (hspared call hcall digest hdigest) hexists
  have hsame : (w.step action).calls = w.calls → (w.step action).Sound := by
    intro hcalls call hcall
    rw [hcalls] at hcall
    exact hold call hcall
  cases action with
  | createWorkspace name => exact hsame settle_calls
  | deleteWorkspace name => exact hsame settle_calls
  | deleteSnapshot id => exact hsame settle_calls
  | acquireUnlinkedLease name path holder => exact hsame settle_calls
  | acquirePendingSyncLease id holder => exact hsame settle_calls
  | releaseLease lease => exact hsame settle_calls
  | collect =>
      refine hsame ?_
      simp only [step]
      split
      · rfl
      · rfl
  | admitObject bytes => exact hsame rfl
  | beginCommit name mutations =>
      intro call hcall
      simp only [step] at hcall
      split at hcall
      · rcases List.mem_append.mp hcall with hcall | hcall
        · exact hold call hcall
        · rw [List.mem_singleton.mp hcall]
          exact sound_commit
      · exact hold call hcall
  | beginSeal seams name parent =>
      intro call hcall
      rcases List.mem_append.mp hcall with hcall | hcall
      · exact hold call hcall
      · rw [List.mem_singleton.mp hcall]
        exact sound_sealing
  | beginAdopt bytes =>
      intro call hcall
      simp only [step] at hcall
      split at hcall
      · rename_i snapshot hdecoded
        rcases List.mem_append.mp hcall with hcall | hcall
        · exact hold call hcall
        · rw [List.mem_singleton.mp hcall]
          refine ⟨fun digest hdigest => ?_, fun _ _ _ _ heq => ?_⟩
          · obtain ⟨hmem, hunchecked⟩ :=
              (mem_relied_adopt.mp hdigest).resolve_left fun h => by cases h.1
            rw [manifestObjects_eq] at hmem
            exact absurd hmem hunchecked
          · cases heq
            exact ⟨hdecoded, fun h => by cases h⟩
      · exact hold call hcall
  | advance index =>
      cases hindex : w.calls[index]? with
      | none =>
          refine hsame ?_
          simp only [step, hindex]
      | some moved =>
          have hmoved := h moved (List.mem_of_getElem? hindex)
          rw [step_advance hindex] at hold ⊢
          intro call hcall
          simp only [advance] at hcall
          split at hcall
          · rename_i next hnext
            rcases List.mem_or_eq_of_mem_set hcall with hcall | rfl
            · exact hold call hcall
            · exact advanceCall_sound hmoved hnext
          · exact hold call (List.mem_of_mem_eraseIdx hcall)

theorem run_sound (h : w.Sound) {actions : List Action}
    (hspared : ∀ k action, actions[k]? = some action →
      (w.run (actions.take k)).SparesAdoptions action) :
    (w.run actions).Sound := by
  induction actions generalizing w with
  | nil => exact h
  | cons action actions ih =>
      refine ih (step_sound h (hspared 0 action rfl)) fun k later hlater => ?_
      exact hspared (k + 1) later hlater

end World

/-! The walks of the collector and of the usage report. -/

section

variable {db : Db} {store : ObjectStore P} {failure : Failure WorkspaceError}

/-- A walk fails on a manifest that cannot be read. -/
theorem mark_eq_error (h : mark store db = .error failure) :
    ∃ row ∈ db.snapshots,
      readManifestObject store row.1 = .error failure := by
  have hwalk : ∀ ids, markSnapshots store ids = .error failure →
      ∃ id ∈ ids, readManifestObject store id = .error failure := by
    intro ids hids
    induction ids with
    | nil => cases hids
    | cons id ids ih =>
        simp only [markSnapshots] at hids
        cases hread : readManifestObject store id with
        | error found =>
            rw [hread, except_error_bind, Except.error.injEq] at hids
            exact ⟨id, List.mem_cons_self, by rw [hread, hids]⟩
        | ok snapshot =>
            rw [hread, except_ok_bind] at hids
            cases hrest : markSnapshots store ids with
            | error found =>
                rw [hrest, except_error_bind, Except.error.injEq] at hids
                obtain ⟨other, hother, hfailed⟩ := ih (by rw [hrest, hids])
                exact ⟨other, List.mem_cons_of_mem _ hother, hfailed⟩
            | ok rest =>
                rw [hrest, except_ok_bind] at hids
                cases hids
  cases hids : markSnapshots store (db.snapshots.map Prod.fst) with
  | error found =>
      simp only [mark, hids, except_error_bind, Except.error.injEq] at h
      obtain ⟨id, hid, hfailed⟩ := hwalk _ (by rw [hids, h])
      obtain ⟨row, hrow, rfl⟩ := List.mem_map.mp hid
      exact ⟨row, hrow, hfailed⟩
  | ok snapshots =>
      simp only [mark, hids, except_ok_bind] at h
      cases h

theorem collect_eq_error (h : collect store db = .error failure) :
    mark store db = .error failure := by
  cases hmarks : mark store db with
  | error found =>
      simp only [collect, hmarks, except_error_bind, Except.error.injEq] at h
      rw [h]
  | ok marks =>
      simp only [collect, hmarks, except_ok_bind] at h
      cases h

/-- The report reads no manifest that the walk has not read. -/
theorem usage_eq_error (h : usage store db = .error failure) :
    mark store db = .error failure := by
  cases hmarks : mark store db with
  | error found =>
      simp only [usage, hmarks, except_error_bind, Except.error.injEq] at h
      rw [h]
  | ok marks =>
      obtain ⟨hreads, hroots⟩ := mark_eq_ok.mp hmarks
      have hreports : ∃ reports,
          marks.snapshots.mapM (snapshotUsage store marks) = .ok reports := by
        simp only [mapM_eq_ok_iff, exists_forall₂_iff]
        intro root hroot
        rw [hroots] at hroot
        obtain ⟨row, hrow, rfl⟩ := List.mem_map.mp hroot
        obtain ⟨snapshot, hread⟩ := hreads row hrow
        rw [snapshotUsage, hread]
        exact ⟨_, rfl⟩
      obtain ⟨reports, hreports⟩ := hreports
      simp only [usage, hmarks, hreports, except_ok_bind] at h
      cases h

end

namespace World

/-- The snapshot's row is there, and so is all it names. -/
structure Adopted (w : World P) (bytes : Bytes) (snapshot : Snapshot) :
    Prop where
  rooted : ∃ row ∈ w.db.snapshots, row.1 = P.sha256 bytes
  manifest : w.store.openObject (P.sha256 bytes) = some bytes
  objects : ∀ digest ∈ manifestObjects snapshot,
    w.store.existsObject digest = true

variable {w : World P} {bytes : Bytes} {snapshot : Snapshot}

theorem readManifestObject_of_open
    (hdecoded : decode P.unicode bytes = .ok snapshot)
    (hopen : w.store.openObject (P.sha256 bytes) = some bytes) :
    readManifestObject w.store (P.sha256 bytes) = .ok snapshot := by
  simp only [readManifestObject, hopen, hdecoded]
  rfl

theorem Adopted.undue (h : w.Adopted bytes snapshot)
    (hdecoded : decode P.unicode bytes = .ok snapshot) {action : Action}
    {digest : ObjectDigest}
    (hdigest : digest = P.sha256 bytes ∨ digest ∈ manifestObjects snapshot) :
    w.Undue digest action := by
  refine undue_of_rooted fun marks hmarks => ?_
  obtain ⟨_, rfl⟩ := mark_eq_ok.mp hmarks
  obtain ⟨row, hrow, hid⟩ := h.rooted
  have hclosure := closure_of_ok
    (readManifestObject_of_open hdecoded h.manifest)
  have hmem : digest ∈ closure w.store row.1 := by
    rw [hid, hclosure]
    exact List.mem_cons.mpr hdigest
  rw [Mark.isRooted_eq_true, List.mem_flatten]
  exact ⟨_, List.mem_cons_of_mem _ (List.mem_cons_of_mem _ (List.mem_map.mpr
    ⟨_, List.mem_map.mpr ⟨row, hrow, rfl⟩, rfl⟩)), hmem⟩

/-- A row roots its own manifest and all the manifest names. -/
theorem step_adopted (h : w.Adopted bytes snapshot)
    (hdecoded : decode P.unicode bytes = .ok snapshot) {action : Action}
    (hkept : action ≠ .deleteSnapshot (P.sha256 bytes)) :
    (w.step action).Adopted bytes snapshot := by
  obtain ⟨row, hrow, hid⟩ := h.rooted
  refine ⟨⟨row, step_snapshots hrow (by rwa [hid]), hid⟩, ?_, ?_⟩
  · exact step_openObject (h.undue hdecoded (.inl rfl)) h.manifest
  · intro digest hdigest
    exact step_existsObject (h.undue hdecoded (.inr hdigest))
      (h.objects digest hdigest)

theorem run_adopted (h : w.Adopted bytes snapshot)
    (hdecoded : decode P.unicode bytes = .ok snapshot)
    {actions : List Action}
    (hkept : ∀ action ∈ actions, action ≠ .deleteSnapshot (P.sha256 bytes)) :
    (w.run actions).Adopted bytes snapshot := by
  induction actions generalizing w with
  | nil => exact h
  | cons action actions ih =>
      refine ih (step_adopted h hdecoded (hkept action List.mem_cons_self)) ?_
      intro later hlater
      exact hkept later (List.mem_cons_of_mem _ hlater)

/-- The snapshot loads, and a collection or a report that fails does so on
another snapshot. -/
structure Readable (w : World P) (id : SnapshotId) (snapshot : Snapshot) :
    Prop where
  loads : loadSnapshot w.store w.db id = .ok snapshot
  objects : ∀ digest ∈ manifestObjects snapshot,
    w.store.existsObject digest = true
  collects : ∀ failure, TensorFS.collect w.store w.db = .error failure →
    ∃ row ∈ w.db.snapshots, row.1 ≠ id ∧
      readManifestObject w.store row.1 = .error failure
  reports : ∀ failure, usage w.store w.db = .error failure →
    ∃ row ∈ w.db.snapshots, row.1 ≠ id ∧
      readManifestObject w.store row.1 = .error failure

theorem Adopted.readable (h : w.Adopted bytes snapshot)
    (hdecoded : decode P.unicode bytes = .ok snapshot) :
    w.Readable (P.sha256 bytes) snapshot := by
  have hread := readManifestObject_of_open hdecoded h.manifest
  have hother : ∀ failure, mark w.store w.db = .error failure →
      ∃ row ∈ w.db.snapshots, row.1 ≠ P.sha256 bytes ∧
        readManifestObject w.store row.1 = .error failure := by
    intro failure hfailed
    obtain ⟨row, hrow, herror⟩ := mark_eq_error hfailed
    refine ⟨row, hrow, fun hid => ?_, herror⟩
    rw [hid, hread] at herror
    cases herror
  refine ⟨?_, h.objects, fun failure hfailed => ?_, fun failure hfailed => ?_⟩
  · rw [loadSnapshot, readRootedSnapshot, require_of h.rooted, except_ok_bind,
      hread]
  · exact hother failure (collect_eq_error hfailed)
  · exact hother failure (usage_eq_error hfailed)

end World

/-- The manifest of an adoption that has only its row left to insert. -/
def Call.inserting : Call → Option (Bytes × Snapshot)
  | .adopt bytes snapshot [] true => some (bytes, snapshot)
  | _ => none

theorem Call.inserting_eq_some {call : Call} {bytes : Bytes}
    {snapshot : Snapshot} (h : call.inserting = some (bytes, snapshot)) :
    call = .adopt bytes snapshot [] true := by
  unfold inserting at h
  split at h
  · cases h
    rfl
  · cases h

/-- The manifest and every object it names are resident. -/
structure World.Complete (w : World P) (bytes : Bytes) (snapshot : Snapshot) :
    Prop where
  manifest : w.store.existsObject (P.sha256 bytes) = true
  objects : ∀ digest ∈ manifestObjects snapshot,
    w.store.existsObject digest = true

/-- Where no pass takes what an adoption in flight relies on, the row is
inserted over resident objects and stays readable until it is deleted. -/
theorem adopt_complete_of_spared (start : World P) (hidle : start.calls = [])
    (before : List Action)
    (hspared : ∀ k action, before[k]? = some action →
      (start.run (before.take k)).SparesAdoptions action)
    (index : Nat) (call : Call) (bytes : Bytes) (snapshot : Snapshot)
    (hcall : (start.run before).calls[index]? = some call)
    (hinserting : call.inserting = some (bytes, snapshot)) :
    (start.run before).Complete bytes snapshot ∧
      ((start.run before).store.CollisionFree → ∀ after : List Action,
        (∀ action ∈ after, action ≠ .deleteSnapshot (P.sha256 bytes)) →
        (((start.run before).step (.advance index)).run after).Readable
          (P.sha256 bytes) snapshot) := by
  have hcall' := Call.inserting_eq_some hinserting
  subst hcall'
  have hsound : (start.run before).Sound := by
    refine World.run_sound (fun call hmem => ?_) hspared
    rw [hidle] at hmem
    cases hmem
  have hadopt := hsound _ (List.mem_of_getElem? hcall)
  have hmanifest : (start.run before).store.existsObject (P.sha256 bytes) =
      true := hadopt.resident _ (mem_relied_adopt.mpr (.inl ⟨rfl, rfl⟩))
  have hobjects : ∀ digest ∈ manifestObjects snapshot,
      (start.run before).store.existsObject digest = true :=
    fun digest hdigest => hadopt.resident digest
      (mem_relied_adopt.mpr (.inr ⟨hdigest, List.not_mem_nil⟩))
  refine ⟨⟨hmanifest, hobjects⟩, fun hfree after hkept => ?_⟩
  obtain ⟨hdecoded, hadmitted⟩ := hadopt.decoded _ _ _ _ rfl
  obtain ⟨found, hfound⟩ := ObjectStore.existsObject_iff.mp hmanifest
  rw [hfree.open_eq hfound (hadmitted rfl)] at hfound
  have hinserted : ((start.run before).step (.advance index)).Adopted bytes
      snapshot := by
    rw [World.step_advance hcall]
    refine ⟨?_, hfound, hobjects⟩
    rw [(decode_eq_ok.mp hdecoded).2]
    exact insertSnapshot_rooted (start.run before).db _ 0
  exact (World.run_adopted hinserted hdecoded hkept).readable hdecoded

/-! A file's object and a manifest that an interrupted pull has left. -/

namespace InterruptedPull

def platform : Platform := ⟨asciiUnicode, sha256, fun _ => none⟩

def snapshot : Snapshot :=
  ⟨none, [(['f'], .file true (.blob 1 (sha256 [7])))]⟩

def id : SnapshotId := sha256 snapshot.toBytes

def leftover : List Action :=
  [.admitObject [7], .admitObject snapshot.toBytes, .collect, .collect]

/-- The adoption up to its insert. -/
def adopting : List Action :=
  [.beginAdopt snapshot.toBytes, .advance 0, .advance 0]

/-- The third pass runs between the last check and the insert. -/
def collected : World platform :=
  World.run .empty (leftover ++ adopting ++ [.collect])

def adopted : World platform := collected.step (.advance 0)

/-- The adoption of an object that was never in quarantine. -/
def fresh : List Action := .admitObject [7] :: adopting

/-- A pass runs beside it before the insert. -/
def besidePass : List Action := fresh ++ [.collect]

def waiting : World platform := World.run .empty besidePass

theorem besidePass_spared (k : Nat) (action : Action)
    (haction : besidePass[k]? = some action) :
    ((World.empty : World platform).run
      (besidePass.take k)).SparesAdoptions action := by
  unfold besidePass at haction ⊢
  by_cases hfront : k < fresh.length
  · rw [List.getElem?_append_left hfront] at haction
    refine World.sparesAdoptions_of_ne fun hcollect => ?_
    subst hcollect
    simpa [fresh, adopting] using List.mem_of_getElem? haction
  · rw [List.getElem?_append_right (by omega),
      List.getElem?_singleton] at haction
    split at haction
    · rename_i hzero
      cases haction
      have hempty : ((World.empty : World platform).run
          fresh).db.quarantine = [] := by
        decide +kernel
      rw [List.take_append_of_le_length (by omega),
        List.take_of_length_le (by omega)]
      intro call _ digest _ marks _ row hrow
      rw [hempty] at hrow
      cases hrow
    · cases haction

theorem waiting_collisionFree : waiting.store.CollisionFree := by
  have hdecide : ∀ a ∈ waiting.store.admitted,
      ∀ b ∈ waiting.store.admitted, sha256 a = sha256 b → a = b := by
    decide +kernel
  exact fun a ha b hb heq => hdecide a ha b hb heq

end InterruptedPull

/-- The third pass takes the manifest and the object before the row that would
root them is inserted. -/
theorem adopt_over_collected :
    (InterruptedPull.collected.calls[0]?.bind Call.inserting) =
        some (InterruptedPull.snapshot.toBytes, InterruptedPull.snapshot) ∧
      ¬ InterruptedPull.collected.Complete InterruptedPull.snapshot.toBytes
        InterruptedPull.snapshot ∧
      InterruptedPull.adopted.db.snapshots = [(InterruptedPull.id, 0)] ∧
      loadSnapshot InterruptedPull.adopted.store InterruptedPull.adopted.db
        InterruptedPull.id = refuse .snapshotCorrupt ∧
      (collect InterruptedPull.adopted.store InterruptedPull.adopted.db).map
        (fun pass => pass.2.2) = refuse .snapshotCorrupt ∧
      usage InterruptedPull.adopted.store InterruptedPull.adopted.db =
        refuse .snapshotCorrupt := by
  refine ⟨by decide +kernel, fun h => ?_, by decide +kernel⟩
  have hgone : InterruptedPull.collected.store.existsObject
      InterruptedPull.id = false := by
    decide +kernel
  have hmanifest : InterruptedPull.collected.store.existsObject
      InterruptedPull.id = true := h.manifest
  rw [hgone] at hmanifest
  cases hmanifest

theorem adopt_complete_beside_pass :
    InterruptedPull.waiting.Complete InterruptedPull.snapshot.toBytes
        InterruptedPull.snapshot ∧
      ((InterruptedPull.waiting.step (.advance 0)).run [.collect]).Readable
        InterruptedPull.id InterruptedPull.snapshot := by
  have hlast : (InterruptedPull.waiting.calls[0]?.bind Call.inserting) =
      some (InterruptedPull.snapshot.toBytes, InterruptedPull.snapshot) := by
    decide +kernel
  obtain ⟨call, hcall, hinserting⟩ := Option.bind_eq_some_iff.mp hlast
  obtain ⟨hcomplete, hreadable⟩ := adopt_complete_of_spared .empty rfl
    _ InterruptedPull.besidePass_spared 0 call _ _ hcall hinserting
  refine ⟨hcomplete, hreadable InterruptedPull.waiting_collisionFree
    [.collect] fun action haction => ?_⟩
  rw [List.mem_singleton.mp haction]
  intro h
  cases h

end TensorFS
