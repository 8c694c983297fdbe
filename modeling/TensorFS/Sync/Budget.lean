import TensorFS.Sync.Expiry
import TensorFS.Sync.Packs

namespace TensorFS.Sync

open Data

/-! How many calls a push makes to a remote that keeps to what it has said. -/

def reportedParts (digest : ObjectDigest) : Event → List UInt32
  | .partsReported _ reported parts (.ok ()) =>
      if reported = digest then parts.map BlobPartReport.partNumber else []
  | _ => []

/-- The parts of a blob whose report the remote has accepted. -/
def accepted (digest : ObjectDigest) (log : List Event) : List UInt32 :=
  log.flatMap (reportedParts digest)

/-- What the last declaration or resume probe listed as missing. -/
def lastMissing : List Event → Option (List Row)
  | [] => none
  | .declared _ _ (.ok plan) :: _ => some plan.missing
  | .packsGranted _ [] (.ok plan) :: _ => some plan.missing
  | _ :: before => lastMissing before

section

variable (options : PushOptions) (layout : ObjectDigest → List UInt32)
  (total : UInt64)

/-- An answer that takes nothing back: a probe lists no more than the one
before it (which only matters where a stall is allowed), a grant has the
blob's own parts and lists those already accepted, and no more objects than
`total` are counted as promoted. -/
def Consistent (before : List Event) : Event → Prop
  | .packsGranted _ [] (.ok plan) =>
      options.maxStalledReplans ≤ 1 ∨
        ∀ missing ∈ lastMissing before, plan.missing.length ≤ missing.length
  | .blobsGranted _ _ (.ok grants) =>
      ∀ grant ∈ grants,
        grant.parts.map BlobPart.partNumber = layout grant.digest ∧
          accepted grant.digest before ⊆ grant.uploadedParts
  | .completed _ (.ok (.incomplete _ promoted _)) => promoted ≤ total
  | _ => True

def Steady : List Event → Prop
  | [] => True
  | event :: before =>
      Consistent options layout total before event ∧ Steady before

instance (before : List Event) (event : Event) :
    Decidable (Consistent options layout total before event) := by
  unfold Consistent
  split <;> infer_instance

def decidableSteady :
    (log : List Event) → Decidable (Steady options layout total log)
  | [] => .isTrue trivial
  | _ :: before =>
      have := decidableSteady before
      inferInstanceAs (Decidable (_ ∧ _))

instance : DecidablePred (Steady options layout total) :=
  decidableSteady options layout total

/-- The calls of one attempted envelope. -/
def PushOptions.attempts (options : PushOptions) : Nat :=
  options.spareAttempts + 1

/-- The calls of one pass over these blobs, the grants apart. -/
def blobCalls (rows : List Row) : Nat :=
  (rows.map fun row => (layout row.1).length * options.attempts + 1).sum

/-- The parts of these blobs. -/
def partCount (rows : List Row) : Nat :=
  (rows.map fun row => (layout row.1).length).sum

/-- The calls of a whole push. -/
def callBound (closure : List Row) : Nat :=
  let objects := closure.length
  let stalls := max 1 options.maxStalledReplans.toNat
  1 + ((partCount layout closure + objects + 1) * stalls *
      (objects + blobCalls options layout closure) + 1 +
    ((objects + 1) * stalls * (objects * (1 + options.attempts) + 1) +
      (total.toNat + 1) * max 1 options.maxCompletionStalls.toNat))

/-- The rounds its longest loop can take. -/
def roundBound (closure : List Row) : Nat :=
  (partCount layout closure + closure.length + 1) *
      max 1 options.maxStalledReplans.toNat +
    (total.toNat + 1) * max 1 options.maxCompletionStalls.toNat

end

/-! What the log remembers. -/

theorem accepted_suffix {digest : ObjectDigest} {before log : List Event}
    (h : before.IsSuffix log) :
    accepted digest before ⊆ accepted digest log := by
  obtain ⟨calls, rfl⟩ := h
  rw [accepted, accepted, List.flatMap_append]
  exact List.subset_append_right _ _

section

variable {options : PushOptions} {layout : ObjectDigest → List UInt32}
  {total : UInt64}

theorem Steady.suffix {before log : List Event}
    (h : Steady options layout total log) (hsuffix : before.IsSuffix log) :
    Steady options layout total before := by
  obtain ⟨calls, rfl⟩ := hsuffix
  induction calls with
  | nil => exact h
  | cons event calls ih => exact ih h.2

theorem Honest.suffix {α : Type} {m : Transfer α} (h : Honest m)
    {wire wire' : Wire} {result : Except (Stop SyncError) α}
    (hrun : m wire = (result, wire')) : wire.log.IsSuffix wire'.log := by
  have hsuffix := Client.FailsOn.suffix h wire
  rwa [hrun] at hsuffix

/-- A steady log was steady before the calls of `m`. -/
theorem Honest.steady {α : Type} {m : Transfer α} (h : Honest m) {wire : Wire}
    (hgood : Steady options layout total (m wire).2.log) :
    Steady options layout total wire.log :=
  hgood.suffix (Client.FailsOn.suffix h wire)

end

/-! The calls of each part of a push. -/

section

variable {enough : Prop} {options : PushOptions}
  {layout : ObjectDigest → List UInt32} {total : UInt64}

/-- At most so many calls, in a run that ends with a steady log. -/
abbrev Calls {α : Type} (enough : Prop) (options : PushOptions)
    (layout : ObjectDigest → List UInt32) (total : UInt64) (cost : Nat)
    (m : Transfer α) : Prop :=
  Client.Within enough (fun wire => Steady options layout total wire.log)
    (fun wire => wire.log.length) cost m

theorem calls_call {α : Type} (ask : List Event → Answer α)
    (event : Answer α → Event) :
    Calls enough options layout total 1 (call ask event) :=
  fun _ hgood => ⟨hgood.2, le_rfl, by simp [call]⟩

theorem calls_count (f : PushReport → PushReport) :
    Calls enough options layout total 0 (count f) :=
  fun _ hgood => ⟨hgood, le_rfl, by simp [count]⟩

theorem calls_observe (row : Row) :
    Calls enough options layout total 0 (observe row) :=
  fun _ hgood => ⟨hgood, le_rfl, by simp [observe]⟩

theorem calls_forM_observe (rows : List Row) :
    Calls enough options layout total 0 (rows.forM observe) := by
  induction rows with
  | nil => exact .pure ()
  | cons row rows ih => exact (calls_observe row).bind fun _ => ih

theorem calls_orFail {α : Type} (answer : Answer α) :
    Calls enough options layout total 0 (orFail answer) := by
  cases answer with
  | ok a => exact .pure a
  | error error => exact .fail _

variable {transport : Transport} {disk : List Event → Disk}
  {sha256 : Bytes → Digest} {session : Text}

theorem calls_local {α : Type} (f : Disk → Except SyncError α) :
    Calls enough options layout total 0 (local_ disk f) :=
  (Client.Within.read _).free fun _ => .orFail _

theorem calls_settle {α : Type} {cost : Nat}
    {retry : Text → Transfer (Option α)}
    (h : ∀ detail, Calls enough options layout total cost (retry detail))
    (answer : Answer α) :
    Calls enough options layout total cost (settle retry answer) := by
  match answer with
  | .ok a => exact .pure (some a)
  | .error (.expired _) => exact .pure none
  | .error (.io detail) => exact h detail
  | .error (.refused code detail) => exact .fail _

theorem calls_attempt {α : Type} {ask : Transfer (Answer α)}
    (hask : Calls enough options layout total 1 ask)
    (exhausted : Nat → Text → SyncError) (spare spent : Nat) :
    Calls enough options layout total (spare + 1)
      (attempt ask exhausted spare spent) := by
  induction spare generalizing spent with
  | zero => exact hask.last (calls_settle fun _ => .fail _)
  | succ spare ih =>
      exact hask.bind_le (calls_settle fun _ => ih (spent + 1)) (by omega)

theorem calls_reportLanded (digest : ObjectDigest)
    (landed : List BlobPartReport) :
    Calls enough options layout total 1
      (reportLanded transport session digest landed) := by
  unfold reportLanded
  split
  · exact .pure ()
  · exact (calls_call _ _).bind fun _ => calls_orFail _

theorem calls_pushParts (grant : BlobGrant) (length : UInt64)
    (parts : List BlobPart) (offset : UInt64) (landed : List BlobPartReport) :
    Calls enough options layout total (parts.length * options.attempts + 1)
      (pushParts transport disk options session grant length parts offset
        landed) := by
  induction parts generalizing offset landed with
  | nil => exact (calls_reportLanded _ _).then_pure.mono (by omega)
  | cons part parts ih =>
      rw [List.length_cons, Nat.succ_mul, pushParts]
      split
      · exact (ih _ _).mono (by omega)
      · refine (Client.Within.assert _).free fun _ => ?_
        refine (calls_local _).free fun bytes => ?_
        refine (calls_attempt (calls_call _ _) _ _ _).bind_le (fun etag => ?_)
          (show options.attempts + (parts.length * options.attempts + 1) ≤ _
            by omega)
        cases etag with
        | none => exact (calls_reportLanded _ _).then_pure.mono (by omega)
        | some etag => exact (calls_count _).free fun _ => ih _ _

theorem calls_pushOneBlob (grant : BlobGrant) (length : UInt64) :
    Calls enough options layout total
      (grant.parts.length * options.attempts + 1)
      (pushOneBlob transport disk options session grant length) :=
  (Client.Within.check _ _).free fun _ =>
    (Client.Within.check _ _).free fun _ =>
      (calls_local _).free fun _ =>
        (Client.Within.check _ _).free fun _ => calls_pushParts _ _ _ _ _

/-- The grants have the parts of their blobs. -/
def Fits (layout : ObjectDigest → List UInt32) (grants : List BlobGrant) :
    Prop :=
  ∀ grant ∈ grants,
    grant.parts.map BlobPart.partNumber = layout grant.digest

theorem calls_pushBlobs {grants : List BlobGrant} (hfits : Fits layout grants)
    (rows : List Row) :
    Calls enough options layout total (blobCalls options layout rows)
      (pushBlobs transport disk options session grants rows) := by
  induction rows with
  | nil => exact .pure []
  | cons row rows ih =>
      have hsum : blobCalls options layout (row :: rows) =
          ((layout row.1).length * options.attempts + 1) +
            blobCalls options layout rows := by simp [blobCalls]
      rw [hsum, pushBlobs]
      split
      · exact .fail _
      · rename_i grant hfound
        have hdigest : grant.digest = row.1 := by
          simpa using List.find?_some hfound
        have hcount : grant.parts.length = (layout row.1).length := by
          rw [← hdigest, ← hfits grant (List.mem_of_find?_eq_some hfound),
            List.length_map]
        rw [← hcount]
        refine (calls_pushOneBlob _ _).bind fun outcome => ?_
        cases outcome with
        | landed =>
            exact (calls_count _).free fun _ =>
              (calls_observe _).free fun _ => ih
        | expired => exact ih.then_pure

/-- The program behind a call may use that the answer is consistent. -/
theorem calls_answer {α β : Type} {ask : List Event → Answer α}
    {event : Answer α → Event} {f : Answer α → Transfer β} {cost : Nat}
    (hf : ∀ answer before, Consistent options layout total before
      (event answer) → Calls enough options layout total cost (f answer))
    (hback : ∀ answer, Honest (f answer)) :
    Calls enough options layout total (1 + cost) (call ask event >>= f) := by
  intro wire
  refine (calls_call ask event wire).bind ?_ fun answer wire' hgood =>
    (hback answer).steady hgood
  intro answer wire' hcall hgood
  cases hcall
  exact hf _ _ hgood.1 _

theorem calls_pushBatch (batch : List Row) :
    Calls enough options layout total (1 + blobCalls options layout batch)
      (pushBatch transport disk options session batch) := by
  refine calls_answer (fun answer before hconsistent => ?_) fun answer => ?_
  · match answer with
    | .error (.expired detail) => exact .pure batch
    | .error (.io detail) => exact .fail _
    | .error (.refused code detail) => exact .fail _
    | .ok grants =>
        exact calls_pushBlobs (fun grant hgrant => (hconsistent grant hgrant).1)
          batch
  · match answer with
    | .ok grants => exact pushBlobs_honest _ _
    | .error (.expired detail) => exact .pure batch
    | .error (.io detail) => exact .fail id
    | .error (.refused code detail) => exact .fail id

theorem calls_pushBatches (groups : List (List Row)) :
    Calls enough options layout total
      (groups.length + blobCalls options layout groups.flatten)
      (pushBatches transport disk options session groups) := by
  induction groups with
  | nil => exact .pure []
  | cons batch groups ih =>
      have hsum : blobCalls options layout (batch :: groups).flatten =
          blobCalls options layout batch +
            blobCalls options layout groups.flatten := by simp [blobCalls]
      rw [hsum, List.length_cons]
      exact (calls_pushBatch batch).bind_le (fun _ => ih.then_pure) (by omega)

theorem calls_stall (limit : UInt32) (stalled : Nat)
    (error : Nat → SyncError) :
    Calls enough options layout total 0 (stall limit stalled error) :=
  (Client.Within.check _ _).then_pure

theorem calls_probe :
    Calls enough options layout total 1 (probe transport session) :=
  (calls_call _ _).bind fun _ => calls_orFail _

theorem calls_pushPack (members : List Row) :
    Calls enough options layout total (1 + options.attempts)
      (pushPack transport disk sha256 options session members) := by
  refine (calls_local _).free fun loaded => ?_
  refine (Client.Within.orFail _).free fun encoded => ?_
  refine (calls_call _ _).bind fun answer => ?_
  match answer with
  | .error (.expired detail) => exact .pure false
  | .error (.io detail) => exact .fail _
  | .error (.refused code detail) => exact .fail _
  | .ok granted =>
      simp only [uploadGranted]
      split
      · split
        · exact .pure true
        · exact .fail _
      · refine (calls_attempt (calls_call _ _) _ _ _).last fun landed => ?_
        cases landed with
        | none => exact .pure false
        | some done =>
            exact (calls_count _).free fun _ =>
              (calls_forM_observe _).then_pure

theorem calls_pushPacks (groups : List (List Row)) :
    Calls enough options layout total
      (groups.length * (1 + options.attempts))
      (pushPacks transport disk sha256 options session groups) := by
  induction groups with
  | nil => exact .pure ()
  | cons members groups ih =>
      rw [List.length_cons, Nat.succ_mul]
      refine (calls_pushPack members).bind_le (fun goOn => ?_)
        (Nat.add_comm _ _).le
      cases goOn with
      | false => exact .pure ()
      | true => exact ih

theorem calls_completeRound (turn : UInt64 × Nat) :
    Calls enough options layout total 1
      (completeRound transport options session turn) := by
  obtain ⟨admitted, stalls⟩ := turn
  refine (calls_count _).free fun _ => (calls_call _ _).last fun answer => ?_
  match answer with
  | .ok .promoted => exact .pure _
  | .ok (.failed code) => exact .fail _
  | .error (.expired detail) => exact .fail _
  | .error (.refused code detail) => exact .fail _
  | .error (.io detail) => exact (calls_stall _ _ _).then_pure
  | .ok (.incomplete code promoted total) =>
      dsimp only
      split
      · exact .pure _
      · exact (calls_stall _ _ _).then_pure

end

/-! What a pass over blobs lands. -/

/-- Some part of these blobs was not accepted before, and is now. -/
def Fresh (layout : ObjectDigest → List UInt32) (rows : List Row)
    (before log : List Event) : Prop :=
  ∃ row ∈ rows, ∃ number ∈ layout row.1,
    number ∉ accepted row.1 before ∧ number ∈ accepted row.1 log

/-- From one state to a later one: a part that lands was not accepted at the
`origin`. -/
structure Moved (options : PushOptions) (layout : ObjectDigest → List UInt32)
    (total : UInt64) (rows : List Row) (origin : List Event)
    (wire wire' : Wire) : Prop where
  grows : wire.log.IsSuffix wire'.log
  fresh : origin.IsSuffix wire.log → Steady options layout total wire'.log →
    wire.report.blobParts < wire'.report.blobParts →
      Fresh layout rows origin wire'.log

section

variable {options : PushOptions} {layout : ObjectDigest → List UInt32}
  {total : UInt64} {rows : List Row} {origin : List Event}

instance : Std.Refl (Moved options layout total rows origin) where
  refl _ := ⟨List.suffix_refl _, fun _ _ h => absurd h (lt_irrefl _)⟩

instance : IsTrans Wire (Moved options layout total rows origin) where
  trans first middle last hfirst hlast := by
    refine ⟨hfirst.grows.trans hlast.grows, fun horigin hsteady hlanded => ?_⟩
    rcases Nat.lt_or_ge first.report.blobParts middle.report.blobParts with
      hlt | hge
    · obtain ⟨row, hrow, number, hnumber, hbefore, hafter⟩ :=
        hfirst.fresh horigin (hsteady.suffix hlast.grows) hlt
      exact ⟨row, hrow, number, hnumber, hbefore,
        accepted_suffix hlast.grows hafter⟩
    · exact hlast.fresh (horigin.trans hfirst.grows) hsteady (by omega)

/-- A part of the program that counts no landed part. -/
theorem Honest.moves {α : Type} {m : Transfer α} (h : Honest m)
    (hkeeps : Client.Keeps (fun wire => wire.report.blobParts) m) :
    Client.Reaches (Moved options layout total rows origin) m := by
  intro wire a wire' hrun
  have hsame := hkeeps wire
  rw [hrun] at hsame
  dsimp only at hsame
  exact ⟨h.suffix hrun, fun _ _ hlanded => absurd hlanded (by omega)⟩

end

section

variable {transport : Transport} {disk : List Event → Disk}
  {options : PushOptions} {session : Text}

theorem call_keeps {α γ : Type} (ask : List Event → Answer α)
    (event : Answer α → Event) (f : PushReport → γ) :
    Client.Keeps (fun wire => f wire.report) (call ask event) := fun _ => rfl

theorem attempt_keeps {α γ : Type} {ask : Transfer (Answer α)} {f : Wire → γ}
    (hask : Client.Keeps f ask) (exhausted : Nat → Text → SyncError)
    (spare spent : Nat) :
    Client.Keeps f (attempt ask exhausted spare spent) := by
  have hsettle : ∀ retry : Text → Transfer (Option α),
      (∀ detail, Client.Keeps f (retry detail)) →
        ∀ answer, Client.Keeps f (settle retry answer) := by
    intro retry hretry answer
    match answer with
    | .ok a => exact .pure (some a)
    | .error (.expired _) => exact .pure none
    | .error (.io detail) => exact hretry detail
    | .error (.refused code detail) => exact .fail _
  induction spare generalizing spent with
  | zero => exact hask.bind (hsettle _ fun _ => .fail _)
  | succ spare ih => exact hask.bind (hsettle _ fun _ => ih (spent + 1))

theorem local_eq_ok {α : Type} {f : Disk → Except SyncError α} {a : α}
    {wire wire' : Wire} (h : local_ disk f wire = (.ok a, wire')) :
    wire' = wire := by
  obtain ⟨now, middle, hread, hrest⟩ := Client.bind_eq_ok.mp h
  cases hread
  exact (Client.orFail_eq_ok.mp hrest).2

/-- A call whose answer is passed on. -/
theorem asked_eq_ok {α : Type} {ask : List Event → Answer α}
    {event : Answer α → Event} {a : α} {wire wire' : Wire}
    (h : (call ask event >>= orFail) wire = (.ok a, wire')) :
    ask wire.log = .ok a ∧
      wire' = { wire with log := event (.ok a) :: wire.log } := by
  obtain ⟨answer, middle, hcall, hrest⟩ := Client.bind_eq_ok.mp h
  have hanswer : ask wire.log = answer := by
    cases hcall
    rfl
  cases answer with
  | error error => cases hrest
  | ok found =>
      cases hrest
      rw [call, hanswer] at hcall
      cases hcall
      exact ⟨hanswer, rfl⟩

theorem reportLanded_eq_ok {digest : ObjectDigest}
    {landed : List BlobPartReport} {wire wire' : Wire} {u : Unit}
    (h : reportLanded transport session digest landed wire = (.ok u, wire')) :
    wire'.report = wire.report ∧
      ∀ report ∈ landed, report.partNumber ∈ accepted digest wire'.log := by
  unfold reportLanded at h
  split at h
  · rename_i hnone
    cases h
    exact ⟨rfl, by simp [hnone]⟩
  · obtain ⟨-, rfl⟩ := asked_eq_ok h
    refine ⟨rfl, fun report hreport => ?_⟩
    simp only [accepted, List.flatMap_cons, reportedParts, if_true]
    exact List.mem_append_left _ (List.mem_map_of_mem hreport)

/-- What the parts of one grant land: nothing the grant lists as uploaded. -/
theorem pushParts_lands {grant : BlobGrant} {length : UInt64}
    {parts : List BlobPart} {offset : UInt64} {landed : List BlobPartReport}
    {outcome : BlobOutcome} {wire wire' : Wire}
    (h : pushParts transport disk options session grant length parts offset
      landed wire = (.ok outcome, wire')) :
    (∀ report ∈ landed,
      report.partNumber ∈ accepted grant.digest wire'.log) ∧
      (wire.report.blobParts < wire'.report.blobParts →
        ∃ number ∈ parts.map BlobPart.partNumber,
          number ∉ grant.uploadedParts ∧
            number ∈ accepted grant.digest wire'.log) := by
  induction parts generalizing offset landed wire with
  | nil =>
      obtain ⟨u, middle, hreport, hrest⟩ := Client.bind_eq_ok.mp h
      obtain ⟨hsame, hall⟩ := reportLanded_eq_ok hreport
      cases hrest
      exact ⟨hall, fun hlanded => absurd hlanded (by rw [hsame]; omega)⟩
  | cons part parts ih =>
      rw [pushParts] at h
      split at h
      · obtain ⟨hall, hfresh⟩ := ih h
        refine ⟨hall, fun hlanded => ?_⟩
        obtain ⟨number, hnumber, hnew⟩ := hfresh hlanded
        exact ⟨number, List.mem_cons_of_mem _ hnumber, hnew⟩
      · rename_i hnew
        obtain ⟨u, start, hsize, hpart⟩ := Client.bind_eq_ok.mp h
        rw [(Client.assert_eq_ok.mp hsize).2] at hpart
        obtain ⟨bytes, first, hread, hupload⟩ := Client.bind_eq_ok.mp hpart
        rw [local_eq_ok hread] at hupload
        obtain ⟨etag, middle, hattempt, hbehind⟩ :=
          Client.bind_eq_ok.mp hupload
        have hkeeps : middle.report = wire.report := by
          have hrun := attempt_keeps (call_keeps
            (transport.uploadBlobPart · part bytes)
            (.partUploaded part bytes) fun report => report)
            (fun spent _ => .blobPartAttemptsExhausted grant.digest spent)
            options.spareAttempts 0 wire
          rw [uploadBlobPart] at hattempt
          rwa [hattempt] at hrun
        cases etag with
        | none =>
            obtain ⟨u, last, hreport, hrest⟩ := Client.bind_eq_ok.mp hbehind
            obtain ⟨hsame, hall⟩ := reportLanded_eq_ok hreport
            cases hrest
            exact ⟨hall, fun hlanded => absurd hlanded
              (by rw [hsame, hkeeps]; omega)⟩
        | some etag =>
            obtain ⟨u, counted, hcount, hrest⟩ :=
              Client.bind_eq_ok.mp hbehind
            obtain ⟨hall, -⟩ := ih hrest
            refine ⟨fun report hreport =>
              hall report (List.mem_append_left _ hreport), fun _ => ?_⟩
            exact ⟨part.partNumber, List.mem_cons_self, hnew, hall
              ⟨part.partNumber, etag⟩
              (List.mem_append_right _ List.mem_cons_self)⟩

variable {layout : ObjectDigest → List UInt32} {total : UInt64}
  {all : List Row} {origin : List Event}

theorem pushOneBlob_moves {grant : BlobGrant} {row : Row} (hrow : row ∈ all)
    (hdigest : grant.digest = row.1)
    (hfits : grant.parts.map BlobPart.partNumber = layout grant.digest)
    (hresumes : accepted grant.digest origin ⊆ grant.uploadedParts) :
    Client.Reaches (Moved options layout total all origin)
      (pushOneBlob transport disk options session grant row.2) := by
  intro wire outcome wire' hrun
  refine ⟨(pushOneBlob_honest _ _).suffix hrun, fun _ _ hlanded => ?_⟩
  simp only [pushOneBlob, Client.bind_eq_ok, Client.check_eq_ok] at hrun
  obtain ⟨_, _, ⟨-, rfl⟩, _, _, ⟨-, rfl⟩, bytes, _, hopen, _, _, ⟨-, rfl⟩,
    hparts⟩ := hrun
  obtain rfl := local_eq_ok hopen
  obtain ⟨number, hnumber, hnew, haccepted⟩ :=
    (pushParts_lands hparts).2 hlanded
  rw [hfits] at hnumber
  rw [hdigest] at hnumber haccepted
  exact ⟨row, hrow, number, hnumber,
    fun hbefore => hnew (hresumes (hdigest ▸ hbefore)), haccepted⟩

theorem pushBlobs_moves {grants : List BlobGrant} {rows : List Row}
    (hrows : rows ⊆ all) (hfits : Fits layout grants)
    (hresumes : ∀ grant ∈ grants,
      accepted grant.digest origin ⊆ grant.uploadedParts) :
    Client.Reaches (Moved options layout total all origin)
      (pushBlobs transport disk options session grants rows) := by
  induction rows with
  | nil => exact .still fun _ => rfl
  | cons row rows ih =>
      have ih := ih fun other hother => hrows (List.mem_cons_of_mem _ hother)
      rw [pushBlobs]
      split
      · intro wire deferred wire' hrun
        cases hrun
      · rename_i grant hfound
        have hmem := List.mem_of_find?_eq_some hfound
        have hdigest : grant.digest = row.1 := by
          simpa using List.find?_some hfound
        refine (pushOneBlob_moves (hrows List.mem_cons_self) hdigest
          (hfits grant hmem) (hresumes grant hmem)).bind fun outcome => ?_
        cases outcome with
        | landed =>
            refine ((honest_count _).moves fun _ => rfl).bind fun _ => ?_
            exact ((honest_observe row).moves fun _ => rfl).bind fun _ => ih
        | expired => exact ih.bind fun _ => .still fun _ => rfl

theorem pushBlobs_sublist {grants : List BlobGrant} {rows deferred : List Row}
    {wire wire' : Wire}
    (h : pushBlobs transport disk options session grants rows wire =
      (.ok deferred, wire')) : deferred.Sublist rows := by
  induction rows generalizing wire deferred with
  | nil =>
      cases h
      exact List.Sublist.refl _
  | cons row rows ih =>
      cases hfound : grants.find? fun grant => grant.digest = row.1 with
      | none =>
          rw [pushBlobs, hfound] at h
          cases h
      | some grant =>
          rw [pushBlobs, hfound] at h
          obtain ⟨outcome, first, -, hrest⟩ := Client.bind_eq_ok.mp h
          cases outcome with
          | landed =>
              obtain ⟨_, second, -, hrest⟩ := Client.bind_eq_ok.mp hrest
              obtain ⟨_, third, -, hrest⟩ := Client.bind_eq_ok.mp hrest
              exact (ih hrest).cons _
          | expired =>
              obtain ⟨later, second, hlater, hrest⟩ :=
                Client.bind_eq_ok.mp hrest
              cases hrest
              exact (ih hlater).cons_cons _

theorem pushBatch_moves {batch : List Row} (hrows : batch ⊆ all) :
    Client.Reaches (Moved options layout total all origin)
      (pushBatch transport disk options session batch) := by
  intro wire deferred wire' hrun
  refine ⟨(pushBatch_honest _).suffix hrun, fun horigin hsteady hlanded => ?_⟩
  obtain ⟨answer, middle, hcall, hrest⟩ := Client.bind_eq_ok.mp hrun
  have hmiddle : middle = { wire with
      log := Event.blobsGranted session (batch.map Prod.fst) answer ::
        wire.log } := by
    cases hcall
    rfl
  match answer with
  | .error (.expired detail) =>
      cases hrest
      subst hmiddle
      exact absurd hlanded (lt_irrefl _)
  | .error (.io detail) => cases hrest
  | .error (.refused code detail) => cases hrest
  | .ok grants =>
      have hback := (pushBlobs_honest _ _).suffix hrest
      rw [hmiddle] at hback
      have hconsistent := (hsteady.suffix hback).1
      subst hmiddle
      refine (pushBlobs_moves hrows
        (fun grant hgrant => (hconsistent grant hgrant).1)
        (fun grant hgrant => ?_) _ deferred wire' hrest).fresh ?_ hsteady
          hlanded
      · exact List.Subset.trans (accepted_suffix horigin)
          (hconsistent grant hgrant).2
      · exact horigin.trans (List.suffix_cons _ _)

theorem pushBatch_sublist {batch deferred : List Row} {wire wire' : Wire}
    (h : pushBatch transport disk options session batch wire =
      (.ok deferred, wire')) : deferred.Sublist batch := by
  obtain ⟨answer, middle, -, hrest⟩ := Client.bind_eq_ok.mp h
  match answer with
  | .ok grants => exact pushBlobs_sublist hrest
  | .error (.io detail) => cases hrest
  | .error (.refused code detail) => cases hrest
  | .error (.expired detail) =>
      cases hrest
      exact List.Sublist.refl _

theorem pushBatches_moves {groups : List (List Row)}
    (hrows : groups.flatten ⊆ all) :
    Client.Reaches (Moved options layout total all origin)
      (pushBatches transport disk options session groups) := by
  induction groups with
  | nil => exact .still fun _ => rfl
  | cons batch groups ih =>
      obtain ⟨hbatch, hrest⟩ := List.append_subset.mp hrows
      exact (pushBatch_moves hbatch).bind fun _ =>
        (ih hrest).bind fun _ => .still fun _ => rfl

theorem pushBatches_sublist {groups : List (List Row)} {deferred : List Row}
    {wire wire' : Wire}
    (h : pushBatches transport disk options session groups wire =
      (.ok deferred, wire')) : deferred.Sublist groups.flatten := by
  induction groups generalizing wire deferred with
  | nil =>
      cases h
      exact List.Sublist.refl _
  | cons batch groups ih =>
      obtain ⟨first, middle, hfirst, hrest⟩ := Client.bind_eq_ok.mp h
      obtain ⟨rest, last, hrest, hend⟩ := Client.bind_eq_ok.mp hrest
      cases hend
      exact (pushBatch_sublist hfirst).append (ih hrest)

end

/-! The measure of the blob lane. -/

/-- The parts of these blobs that the remote has yet to accept. -/
def unlanded (layout : ObjectDigest → List UInt32) (rows : List Row)
    (log : List Event) : Nat :=
  (rows.map fun row =>
    ((layout row.1).filter fun number => number ∉ accepted row.1 log).length).sum

theorem filter_not_mem_le {numbers before after : List UInt32}
    (h : before ⊆ after) :
    (numbers.filter fun number => number ∉ after) =
      (numbers.filter fun number => number ∉ before).filter fun number =>
        number ∉ after := by
  rw [List.filter_filter]
  refine List.filter_congr fun number _ => ?_
  rcases Decidable.em (number ∈ after) with hin | hout
  · simp [hin]
  · have hnever : number ∉ before := fun hbefore => hout (h hbefore)
    simp [hout, hnever]

theorem unlanded_le {layout : ObjectDigest → List UInt32} {rows : List Row}
    {before log : List Event} (h : before.IsSuffix log) :
    unlanded layout rows log ≤ unlanded layout rows before := by
  refine List.sum_le_sum fun row _ => ?_
  rw [filter_not_mem_le (accepted_suffix h)]
  exact List.length_filter_le _ _

theorem unlanded_lt {layout : ObjectDigest → List UInt32} {rows : List Row}
    {before log : List Event} (h : before.IsSuffix log)
    (hfresh : Fresh layout rows before log) :
    unlanded layout rows log < unlanded layout rows before := by
  obtain ⟨row, hrow, number, hnumber, hbefore, hafter⟩ := hfresh
  refine List.sum_lt_sum _ _ (fun other _ => ?_) ⟨row, hrow, ?_⟩
  · rw [filter_not_mem_le (accepted_suffix h)]
    exact List.length_filter_le _ _
  · rw [filter_not_mem_le (accepted_suffix h),
      List.length_filter_lt_length_iff_exists]
    exact ⟨number, List.mem_filter.mpr ⟨hnumber, by simpa using hbefore⟩,
      by simpa using hafter⟩

theorem unlanded_le_partCount (layout : ObjectDigest → List UInt32)
    (rows : List Row) (log : List Event) :
    unlanded layout rows log ≤ partCount layout rows :=
  List.sum_le_sum fun _ _ => List.length_filter_le _ _

end TensorFS.Sync
