import TensorFS.Sync.Pull
import TensorFS.Sync.Push
import TensorFS.Tfm1.Bijection

namespace TensorFS.Sync

open Data

/-! Which expired answers end a transfer. -/

/-- The failure of a lease that ran out. -/
def Lapsed : SyncError → Prop
  | .transport (.expired _) => True
  | _ => False

/-- An expired answer to a call behind the declaration that nothing catches: a
resume probe, a report of parts, a completion, or either call of a download. -/
def Uncaught : Event → Prop
  | .packsGranted _ [] (.error (.expired _)) => True
  | .partsReported _ _ _ (.error (.expired _)) => True
  | .completed _ (.error (.expired _)) => True
  | .downloadsGranted _ (.error (.expired _)) => True
  | .downloaded _ (.error (.expired _)) => True
  | _ => False

/-- A program that fails for a lease exactly where an expired answer is left
uncaught. -/
abbrev Honest {α : Type} (m : Transfer α) : Prop :=
  Client.FailsOn Wire.log Uncaught Lapsed m

/-! One call. -/

section

variable {α β : Type} {ask : List Event → Answer α} {event : Answer α → Event}

theorem honest_call (h : ∀ a, ¬ Uncaught (event a)) :
    Honest (call ask event) :=
  fun wire => ⟨[event (ask wire.log)], rfl, by simp [call, h]⟩

/-- A call whose expired answers the program behind it fails on. -/
theorem honest_call_bind {f : Answer α → Transfer β}
    (h : ∀ a, (¬ Uncaught (event a) ∧ Honest (f a)) ∨
      (Uncaught (event a) ∧ ∃ detail,
        f a = Client.fail (.transport (.expired detail)))) :
    Honest (call ask event >>= f) := by
  intro wire
  have hcall : call ask event wire = (.ok (ask wire.log),
      { wire with log := event (ask wire.log) :: wire.log }) := rfl
  rw [Client.bind_of_ok hcall]
  rcases h (ask wire.log) with ⟨hcaught, hrest⟩ | ⟨huncaught, detail, hrest⟩
  · obtain ⟨calls, hlog, hiff⟩ := hrest
      { wire with log := event (ask wire.log) :: wire.log }
    refine ⟨calls ++ [event (ask wire.log)], by rw [hlog]; simp, ?_⟩
    rw [hiff]
    simp [hcaught]
  · rw [hrest]
    exact ⟨[event (ask wire.log)], rfl, by simp [Lapsed, huncaught]⟩

theorem honest_orFail
    (h : ∀ a, Uncaught (event a) ↔ ∃ detail, a = .error (.expired detail)) :
    Honest (call ask event >>= orFail) := by
  refine honest_call_bind fun a => ?_
  match a with
  | .error (.expired detail) => exact .inr ⟨(h _).mpr ⟨detail, rfl⟩, detail, rfl⟩
  | .ok a => exact .inl ⟨by simp [h], .pure a⟩
  | .error (.refused code detail) => exact .inl ⟨by simp [h], .fail id⟩
  | .error (.io detail) => exact .inl ⟨by simp [h], .fail id⟩

end

theorem honest_forM {rows : List α} {f : α → Transfer Unit}
    (h : ∀ row, Honest (f row)) : Honest (rows.forM f) := by
  induction rows with
  | nil => exact .pure ()
  | cons row rows ih => exact (h row).bind fun _ => ih

theorem honest_observe (row : Row) : Honest (observe row) :=
  .update fun _ => rfl

theorem honest_count (f : PushReport → PushReport) : Honest (count f) :=
  .update fun _ => rfl

theorem honest_countPulled (f : PullReport → PullReport) :
    Honest (countPulled f) := .update fun _ => rfl

/-! The push. -/

section

variable {transport : Transport} {disk : List Event → Disk}
  {sha256 : Bytes → Digest} {options : PushOptions} {session : Text}

theorem settle_honest {α : Type} {retry : Text → Transfer (Option α)}
    (h : ∀ detail, Honest (retry detail)) (answer : Answer α) :
    Honest (settle retry answer) := by
  match answer with
  | .ok a => exact .pure (some a)
  | .error (.expired _) => exact .pure none
  | .error (.io detail) => exact h detail
  | .error (.refused code detail) => exact .fail id

theorem attempt_honest {α : Type} {ask : Transfer (Answer α)}
    {exhausted : Nat → Text → SyncError} (hask : Honest ask)
    (hexhausted : ∀ spent detail, ¬ Lapsed (exhausted spent detail))
    (spare spent : Nat) : Honest (attempt ask exhausted spare spent) := by
  induction spare generalizing spent with
  | zero =>
      exact hask.bind fun answer =>
        settle_honest (fun detail => .fail (hexhausted _ _)) answer
  | succ spare ih =>
      exact hask.bind fun answer =>
        settle_honest (fun detail => ih (spent + 1)) answer

/-- A local computation that does not report a lease. -/
abbrev Sound {α : Type} (x : Except SyncError α) : Prop :=
  Client.Refuses (fun error => ¬ Lapsed error) x

theorem openLocal_sound (now : Disk) (digest : ObjectDigest) :
    Sound (openLocal now digest) := .mapError fun _ => id

theorem readPart_sound (now : Disk) (digest : ObjectDigest) (length : UInt64)
    (start take : Nat) : Sound (readPart now digest length start take) := by
  unfold readPart
  split
  · exact .error id
  · split
    · exact .ok []
    · split
      · exact .error id
      · split
        · exact .ok _
        · exact .error id

theorem loadPackMembers_sound (now : Disk) (members : List Row) :
    Sound (loadPackMembers now members) := by
  induction members with
  | nil => exact .ok []
  | cons row members ih =>
      refine (openLocal_sound now row.1).bind fun bytes => ?_
      exact (Client.Refuses.ensure id).bind fun _ =>
        ih.bind fun loaded => .ok _

theorem verifyCanonicalMissing_sound (closure missing : List Row) :
    Sound (verifyCanonicalMissing closure missing) := by
  induction missing generalizing closure with
  | nil => exact .ok ()
  | cons row missing ih =>
      rw [verifyCanonicalMissing]
      split
      · exact .error id
      · exact (Client.Refuses.ensure id).bind fun _ => ih _

theorem verifyLanes_sound (closure missing missingBlobs : List Row)
    (maxPayload : UInt64) :
    Sound (verifyLanes closure missing missingBlobs maxPayload) :=
  (verifyCanonicalMissing_sound _ _).bind fun _ =>
    (verifyCanonicalMissing_sound _ _).bind fun _ =>
      (Client.Refuses.checkAll fun _ => .ensure id).bind fun _ =>
        .checkAll fun _ => .ensure id

theorem local_honest {α : Type} {f : Disk → Except SyncError α}
    (h : ∀ now, Sound (f now)) : Honest (local_ disk f) :=
  (Client.FailsOn.read _).bind fun now => .orFail (h now)

theorem reportLanded_honest (digest : ObjectDigest)
    (landed : List BlobPartReport) :
    Honest (reportLanded transport session digest landed) := by
  unfold reportLanded
  split
  · exact .pure ()
  · refine honest_orFail fun answer => ?_
    match answer with
    | .ok () => simp [Uncaught]
    | .error (.expired detail) => simp [Uncaught]
    | .error (.io detail) => simp [Uncaught]
    | .error (.refused code detail) => simp [Uncaught]

theorem pushParts_honest (grant : BlobGrant) (length : UInt64)
    (parts : List BlobPart) (offset : UInt64) (landed : List BlobPartReport) :
    Honest (pushParts transport disk options session grant length parts offset
      landed) := by
  induction parts generalizing offset landed with
  | nil => exact (reportLanded_honest _ _).bind fun _ => .pure _
  | cons part parts ih =>
      rw [pushParts]
      split
      · exact ih _ _
      · refine (Client.FailsOn.assert _).bind fun _ => ?_
        refine (local_honest fun now => readPart_sound _ _ _ _ _).bind
          fun bytes => ?_
        refine (attempt_honest (honest_call fun _ => id) (fun _ _ => id)
          _ _).bind fun etag => ?_
        cases etag with
        | none => exact (reportLanded_honest _ _).bind fun _ => .pure _
        | some etag => exact (honest_count _).bind fun _ => ih _ _

theorem pushOneBlob_honest (grant : BlobGrant) (length : UInt64) :
    Honest (pushOneBlob transport disk options session grant length) := by
  refine (Client.FailsOn.check id).bind fun _ => ?_
  refine (Client.FailsOn.check id).bind fun _ => ?_
  refine (local_honest fun now => openLocal_sound now _).bind fun bytes => ?_
  exact (Client.FailsOn.check id).bind fun _ => pushParts_honest _ _ _ _ _

theorem pushBlobs_honest (grants : List BlobGrant) (rows : List Row) :
    Honest (pushBlobs transport disk options session grants rows) := by
  induction rows with
  | nil => exact .pure []
  | cons row rows ih =>
      rw [pushBlobs]
      split
      · exact .fail id
      · refine (pushOneBlob_honest _ _).bind fun outcome => ?_
        cases outcome with
        | landed =>
            exact (honest_count _).bind fun _ =>
              (honest_observe _).bind fun _ => ih
        | expired => exact ih.bind fun deferred => .pure _

theorem pushBatch_honest (batch : List Row) :
    Honest (pushBatch transport disk options session batch) := by
  refine (honest_call fun _ => id).bind fun answer => ?_
  match answer with
  | .ok grants => exact pushBlobs_honest _ _
  | .error (.expired detail) => exact .pure batch
  | .error (.io detail) => exact .fail id
  | .error (.refused code detail) => exact .fail id

theorem pushBatches_honest (groups : List (List Row)) :
    Honest (pushBatches transport disk options session groups) := by
  induction groups with
  | nil => exact .pure []
  | cons batch groups ih =>
      exact (pushBatch_honest batch).bind fun deferred =>
        ih.bind fun rest => .pure _

theorem stall_honest {limit : UInt32} {stalled : Nat}
    {error : Nat → SyncError} (h : ¬ Lapsed (error (stalled + 1))) :
    Honest (stall limit stalled error) :=
  (Client.FailsOn.check h).bind fun _ => .pure _

theorem blobRound_honest (turn : List Row × Nat) :
    Honest (blobRound transport disk options session turn) := by
  obtain ⟨pending, stalled⟩ := turn
  rw [blobRound]
  split
  · exact .pure _
  · refine (Client.FailsOn.read _).bind fun before => ?_
    refine (pushBatches_honest _).bind fun deferred => ?_
    refine (honest_count _).bind fun _ => ?_
    refine (Client.FailsOn.read _).bind fun after => ?_
    split
    · exact .pure _
    · exact (stall_honest id).bind fun _ => .pure _

theorem probe_honest : Honest (probe transport session) := by
  refine honest_orFail fun answer => ?_
  match answer with
  | .ok plan => simp [Uncaught]
  | .error (.expired detail) => simp [Uncaught]
  | .error (.io detail) => simp [Uncaught]
  | .error (.refused code detail) => simp [Uncaught]

theorem pushPack_honest (members : List Row) :
    Honest (pushPack transport disk sha256 options session members) := by
  refine (local_honest fun now => loadPackMembers_sound now _).bind
    fun loaded => ?_
  refine (Client.FailsOn.orFail (.mapError fun _ => id)).bind
    fun encoded => ?_
  refine (honest_call fun _ => id).bind fun answer => ?_
  match answer with
  | .error (.expired detail) => exact .pure false
  | .error (.io detail) => exact .fail id
  | .error (.refused code detail) => exact .fail id
  | .ok granted =>
      simp only [uploadGranted]
      split
      · split
        · exact .pure true
        · exact .fail id
      · refine (attempt_honest (honest_call fun _ => id) (fun _ _ => id)
          _ _).bind fun landed => ?_
        cases landed with
        | none => exact .pure false
        | some done =>
            exact (honest_count _).bind fun _ =>
              (honest_forM honest_observe).bind fun _ => .pure true

theorem pushPacks_honest (groups : List (List Row)) :
    Honest (pushPacks transport disk sha256 options session groups) := by
  induction groups with
  | nil => exact .pure ()
  | cons members groups ih =>
      refine (pushPack_honest members).bind fun goOn => ?_
      cases goOn with
      | false => exact .pure ()
      | true => exact ih

theorem replanRound_honest (closure : List Row) (maxPayload : UInt64)
    (turn : List Row × Nat) :
    Honest (replanRound transport disk sha256 options session closure
      maxPayload turn) := by
  obtain ⟨missing, stalled⟩ := turn
  rw [replanRound]
  split
  · exact .pure _
  · refine (pushPacks_honest _).bind fun _ => ?_
    refine (honest_count _).bind fun _ => ?_
    refine probe_honest.bind fun refreshed => ?_
    refine (Client.FailsOn.orFail (verifyLanes_sound _ _ _ _)).bind fun _ => ?_
    split
    · exact .pure _
    · exact (stall_honest id).bind fun _ => .pure _

theorem completeRound_honest (turn : UInt64 × Nat) :
    Honest (completeRound transport options session turn) := by
  obtain ⟨admitted, stalls⟩ := turn
  refine (honest_count _).bind fun _ => honest_call_bind fun answer => ?_
  match answer with
  | .error (.expired detail) => exact .inr ⟨trivial, detail, rfl⟩
  | .ok .promoted => exact .inl ⟨id, .pure _⟩
  | .ok (.failed code) => exact .inl ⟨id, .fail id⟩
  | .error (.refused code detail) => exact .inl ⟨id, .fail id⟩
  | .error (.io detail) =>
      exact .inl ⟨id, (stall_honest id).bind fun _ => .pure _⟩
  | .ok (.incomplete code promoted total) =>
      refine .inl ⟨id, ?_⟩
      dsimp only
      split
      · exact .pure _
      · exact (stall_honest id).bind fun _ => .pure _

theorem pushLargeObjects_honest (fuel : Nat) (closure : List Row)
    (maxPayload : UInt64) (missing missingBlobs : List Row) :
    Honest (pushLargeObjects transport disk options session fuel closure
      maxPayload missing missingBlobs) := by
  unfold pushLargeObjects
  split
  · exact .pure _
  · refine (Client.FailsOn.rounds blobRound_honest _ _).bind fun _ => ?_
    refine probe_honest.bind fun refreshed => ?_
    refine (Client.FailsOn.orFail (verifyLanes_sound _ _ _ _)).bind fun _ => ?_
    split
    · exact .pure _
    · exact .fail id

theorem completePush_honest (fuel : Nat) :
    Honest (completePush transport options fuel session) :=
  (Client.FailsOn.rounds completeRound_honest _ _).bind fun _ => .read _

theorem pushMissing_honest (fuel : Nat) (closure : List Row)
    (maxPayload : UInt64) (missing : List Row) :
    Honest (pushMissing transport disk sha256 options fuel session closure
      maxPayload missing) :=
  (Client.FailsOn.rounds (replanRound_honest _ _) _ _).bind fun _ =>
    completePush_honest fuel

theorem pushLanes_honest (fuel : Nat) (closure : List Row) (plan : SyncPlan) :
    Honest (pushLanes transport disk sha256 options fuel closure plan) :=
  (Client.FailsOn.orFail (verifyLanes_sound _ _ _ _)).bind fun _ =>
    (pushLargeObjects_honest _ _ _ _ _).bind fun _ =>
      pushMissing_honest _ _ _ _

theorem pushDeclared_honest (fuel : Nat) (closure : List Row)
    (plan : SyncPlan) :
    Honest (pushDeclared transport disk sha256 options fuel closure plan) :=
  (honest_count _).bind fun _ => (honest_forM honest_observe).bind fun _ =>
    pushLanes_honest _ _ _

end

/-! The pull. -/

section

variable {transport : Transport} {shelf : Shelf} {U : Unicode}
  {sha256 : Bytes → Digest}

theorem storing_honest {α : Type} (f : List Event → Except StoreError α) :
    Honest (storing f) :=
  (Client.FailsOn.read _).bind fun _ => .orFail (.mapError fun _ => id)

theorem downloadGrants_honest (digests : List ObjectDigest) :
    Honest (downloadGrants transport digests) := by
  refine honest_orFail fun answer => ?_
  match answer with
  | .ok grants => simp [Uncaught]
  | .error (.expired detail) => simp [Uncaught]
  | .error (.io detail) => simp [Uncaught]
  | .error (.refused code detail) => simp [Uncaught]

theorem findGrant_honest (grants : List DownloadGrant)
    (digest : ObjectDigest) : Honest (findGrant grants digest) := by
  unfold findGrant
  split
  · exact .fail id
  · exact .pure _

/-- A download's answer goes to `admitAnswer`, which lets an expired one through. -/
theorem download_admit_honest {grant : DownloadGrant}
    {retry : Text → Transfer Unit} (h : ∀ detail, Honest (retry detail)) :
    Honest (download transport grant >>= admitAnswer shelf sha256 grant retry) := by
  refine honest_call_bind fun answer => ?_
  match answer with
  | .error (.expired detail) => exact .inr ⟨trivial, detail, rfl⟩
  | .error (.io detail) => exact .inl ⟨id, h detail⟩
  | .error (.refused code detail) => exact .inl ⟨id, .fail id⟩
  | .ok bytes =>
      exact .inl ⟨id, (storing_honest _).bind fun _ => storing_honest _⟩

theorem downloadAndAdmit_honest (grant : DownloadGrant) (spare : Nat) :
    Honest (downloadAndAdmit transport shelf sha256 grant spare) := by
  induction spare with
  | zero =>
      exact (storing_honest _).bind fun _ =>
        download_admit_honest fun _ => .fail id
  | succ spare ih =>
      exact (storing_honest _).bind fun _ => download_admit_honest fun _ => ih

theorem fetchManifest_honest (id : SnapshotId) :
    Honest (fetchManifest transport sha256 id) := by
  refine (downloadGrants_honest _).bind fun grants => ?_
  refine (findGrant_honest _ _).bind fun grant => ?_
  refine honest_call_bind fun answer => ?_
  match answer with
  | .error (.expired detail) => exact .inr ⟨trivial, detail, rfl⟩
  | .error (.io detail) => exact .inl ⟨False.elim, .fail False.elim⟩
  | .error (.refused code detail) => exact .inl ⟨False.elim, .fail False.elim⟩
  | .ok bytes =>
      exact .inl ⟨False.elim, (Client.FailsOn.pure bytes).bind fun bytes =>
        (Client.FailsOn.check False.elim).bind fun _ => .pure bytes⟩

theorem loadManifest_honest (id : SnapshotId) :
    Honest (loadManifest transport shelf sha256 id) := by
  unfold loadManifest
  split
  · exact .pure _
  · exact fetchManifest_honest id
  · exact .fail False.elim

theorem fetchObject_honest (grants : List DownloadGrant) (row : Row) :
    Honest (fetchObject transport shelf sha256 grants row) :=
  (findGrant_honest _ _).bind fun grant =>
    (downloadAndAdmit_honest grant _).bind fun _ =>
      (honest_countPulled _).bind fun _ => honest_observe row

theorem pullSnapshot_honest (id : SnapshotId) :
    Honest (pullSnapshot transport shelf U sha256 id) := by
  refine (loadManifest_honest id).bind fun bytes => ?_
  refine (Client.FailsOn.orFail (.mapError fun _ => False.elim)).bind
    fun snapshot => ?_
  refine (honest_forM fun row => (honest_countPulled _).bind fun _ =>
    honest_observe row).bind fun _ => ?_
  refine (honest_forM fun batch => (downloadGrants_honest _).bind
    fun grants => honest_forM (fetchObject_honest grants)).bind fun _ => ?_
  refine (Client.FailsOn.read _).bind fun log => ?_
  exact (Client.FailsOn.orFail (.mapError fun _ => False.elim)).bind
    fun _ => .read _

end

/-- The transfer ended for a lease that ran out. -/
def EndsLapsed {α : Type} (result : Except (Stop SyncError) α) : Prop :=
  ∃ detail, result = .error (.failed (.transport (.expired detail)))

theorem lapsed_iff {error : SyncError} :
    Lapsed error ↔ ∃ detail, error = .transport (.expired detail) := by
  cases error with
  | transport error => cases error <;> simp [Lapsed]
  | _ => simp [Lapsed]

/-- What a transfer logs from a clean start decides whether it ends for a
lease. -/
theorem Honest.ends {α : Type} {m : Transfer α} (h : Honest m) {wire : Wire}
    (hclean : ∀ event ∈ wire.log, ¬ Uncaught event) :
    EndsLapsed (m wire).1 ↔ ∃ event ∈ (m wire).2.log, Uncaught event := by
  obtain ⟨calls, hlog, hiff⟩ := h wire
  have hcalls : (∃ event ∈ calls ++ wire.log, Uncaught event) ↔
      ∃ event ∈ calls, Uncaught event := by
    constructor
    · rintro ⟨event, hmem, huncaught⟩
      rcases List.mem_append.mp hmem with hmem | hmem
      · exact ⟨event, hmem, huncaught⟩
      · exact absurd huncaught (hclean event hmem)
    · rintro ⟨event, hmem, huncaught⟩
      exact ⟨event, List.mem_append_left _ hmem, huncaught⟩
  rw [hlog, hcalls, ← hiff]
  constructor
  · rintro ⟨detail, hrun⟩
    exact ⟨_, hrun, trivial⟩
  · rintro ⟨error, hrun, hlapsed⟩
    obtain ⟨detail, rfl⟩ := lapsed_iff.mp hlapsed
    exact ⟨detail, hrun⟩

/-- A push whose declaration is accepted goes on behind it. -/
theorem pushSnapshot_declared {transport : Transport}
    {disk : List Event → Disk} {sha256 : Bytes → Digest}
    {options : PushOptions} {fuel : Nat} {snapshot : SnapshotId}
    {expectedHead : Option SnapshotId} {decoded : Snapshot} {plan : SyncPlan}
    (hplan : transport.declare [] decoded.toBytes expectedHead = .ok plan) :
    pushSnapshot transport disk sha256 options fuel snapshot expectedHead
        (.ok decoded) {} =
      (Client.check (plan.snapshotId = snapshot)
          (.identityMismatch snapshot plan.snapshotId) >>= fun _ =>
        pushDeclared transport disk sha256 options fuel
          (dataClosure decoded) plan)
        { log := [.declared decoded.toBytes expectedHead (.ok plan)] } := by
  have hcall : call (transport.declare · decoded.toBytes expectedHead)
      (.declared decoded.toBytes expectedHead) {} = (.ok (.ok plan),
        { log := [.declared decoded.toBytes expectedHead (.ok plan)] }) := by
    rw [call, hplan]
  have hdecoded : (Client.orFail (Except.mapError SyncError.workspace
      (.ok decoded : Outcome Snapshot)) : Transfer Snapshot) {} =
        (.ok decoded, {}) := rfl
  rw [pushSnapshot, Client.bind_of_ok hdecoded, Client.bind_of_ok hcall]
  rfl

/-- A push behind an accepted declaration, and a pull, end for a lease exactly
where an expired answer meets a call that nothing replans. -/
theorem lapses_iff_uncaught (transport : Transport) (disk : List Event → Disk)
    (shelf : Shelf) (U : Unicode) (sha256 : Bytes → Digest)
    (options : PushOptions) (fuel : Nat) (snapshot : SnapshotId)
    (expectedHead : Option SnapshotId) :
    (∀ decoded plan,
      transport.declare [] decoded.toBytes expectedHead = .ok plan →
        let run := pushSnapshot transport disk sha256 options fuel snapshot
          expectedHead (.ok decoded) {}
        EndsLapsed run.1 ↔ ∃ event ∈ run.2.log, Uncaught event) ∧
      let run := pullSnapshot transport shelf U sha256 snapshot {}
      EndsLapsed run.1 ↔ ∃ event ∈ run.2.log, Uncaught event := by
  refine ⟨fun decoded plan hplan => ?_, ?_⟩
  · dsimp only
    rw [pushSnapshot_declared hplan]
    refine Honest.ends ((Client.FailsOn.check id).bind fun _ =>
      pushDeclared_honest _ _ _) ?_
    simp [Uncaught]
  · exact (pullSnapshot_honest snapshot).ends (by simp)

/-! A remote whose leases all run out. -/

namespace Expiring

def snapshot : Snapshot := ⟨none, []⟩

def id : SnapshotId := TensorFS.sha256 snapshot.toBytes

def plan : SyncPlan where
  snapshotId := id
  session := []
  have_ := []
  missing := []
  missingBlobs := []
  maxPackPayload := 0

def transport : Transport where
  declare _ _ _ := .ok plan
  packGrants _ _ _ := .error (.expired [])
  uploadPack _ _ _ := .error (.expired [])
  blobGrants _ _ _ := .error (.expired [])
  uploadBlobPart _ _ _ := .error (.expired [])
  reportBlobParts _ _ _ _ := .error (.expired [])
  complete _ _ := .error (.expired [])
  downloadGrants _ _ := .error (.expired [])
  download _ _ := .error (.expired [])

def disk : List Event → Disk := fun _ digest => .error (.missing digest)

def shelf : Shelf where
  loadSnapshot id := .error (.refused (.unknownSnapshot id))
  exists_ _ := false
  writer _ := .ok ()
  install _ _ := .ok ()
  adoptSnapshot _ _ := .ok ()

end Expiring

theorem expired_answers_fail :
    decode asciiUnicode Expiring.snapshot.toBytes = .ok Expiring.snapshot ∧
      EndsLapsed (pushSnapshot Expiring.transport Expiring.disk sha256 {} 1
        Expiring.id none (.ok Expiring.snapshot) {}).1 ∧
      EndsLapsed (pullSnapshot Expiring.transport Expiring.shelf asciiUnicode
        sha256 Expiring.id {}).1 :=
  ⟨by decide +kernel, ⟨[], by decide +kernel⟩, ⟨[], by decide +kernel⟩⟩

theorem lapses_iff_uncaught_expiring :
    ∃ event ∈ (pushSnapshot Expiring.transport Expiring.disk sha256 {} 1
      Expiring.id none (.ok Expiring.snapshot) {}).2.log, Uncaught event :=
  ((lapses_iff_uncaught Expiring.transport Expiring.disk Expiring.shelf
    asciiUnicode sha256 {} 1 Expiring.id none).1 Expiring.snapshot
      Expiring.plan rfl).mp ⟨[], by decide +kernel⟩

end TensorFS.Sync
