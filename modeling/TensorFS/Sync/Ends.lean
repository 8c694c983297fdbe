import TensorFS.Sync.Budget

namespace TensorFS.Sync

open Data

/-! Every loop of a push ends, while the remote takes nothing back. -/

section

variable {options : PushOptions} {layout : ObjectDigest → List UInt32}
  {total : UInt64}

theorem blobCalls_le {rows all : List Row} (h : rows.Sublist all) :
    blobCalls options layout rows ≤ blobCalls options layout all :=
  (h.map _).sum_le_sum fun _ _ => Nat.zero_le _

theorem partCount_le {rows all : List Row} (h : rows.Sublist all) :
    partCount layout rows ≤ partCount layout all :=
  (h.map _).sum_le_sum fun _ _ => Nat.zero_le _

theorem length_le_flatten {α : Type} {groups : List (List α)}
    (h : ∀ group ∈ groups, group ≠ []) :
    groups.length ≤ groups.flatten.length := by
  induction groups with
  | nil => exact le_rfl
  | cons group groups ih =>
      obtain ⟨hgroup, hrest⟩ := List.forall_mem_cons.mp h
      have hpos := List.length_pos_iff.mpr hgroup
      have := ih hrest
      rw [List.length_cons, List.flatten_cons, List.length_append]
      omega

variable {transport : Transport} {disk : List Event → Disk}
  {sha256 : Bytes → Digest} {session : Text}

theorem stall_eq_ok {limit : UInt32} {stalled next : Nat}
    {error : Nat → SyncError} {wire wire' : Wire}
    (h : stall limit stalled error wire = (.ok next, wire')) :
    stalled + 1 < limit.toNat ∧ next = stalled + 1 ∧ wire' = wire := by
  obtain ⟨u, middle, hcheck, hrest⟩ := Client.bind_eq_ok.mp h
  obtain ⟨hlimit, rfl⟩ := Client.check_eq_ok.mp hcheck
  cases hrest
  exact ⟨hlimit, rfl, rfl⟩

/-! The blob lane. -/

/-- What is left to the blob lane: parts to accept and blobs to finish. -/
def blobsLeft (layout : ObjectDigest → List UInt32) (blobs : List Row) :
    List Row × Nat → Wire → Nat
  | (pending, _), wire => unlanded layout blobs wire.log + pending.length

def blobMeasure (options : PushOptions)
    (layout : ObjectDigest → List UInt32) (blobs : List Row)
    (turn : List Row × Nat) (wire : Wire) : Nat :=
  Client.budget options.maxStalledReplans.toNat
    (blobsLeft layout blobs turn wire) turn.2

theorem blobRound_within {blobs : List Row} {turn : List Row × Nat}
    (hturn : turn.1.Sublist blobs) :
    Calls True options layout total
      (blobs.length + blobCalls options layout blobs)
      (blobRound transport disk options session turn) := by
  obtain ⟨pending, stalled⟩ := turn
  rw [blobRound]
  split
  · exact .pure _
  · have hgroups := length_batches_le blobGrantBatch pending
    have hflatten := flatten_batches (show 0 < blobGrantBatch by decide) pending
    have hcalls : blobCalls options layout pending ≤
        blobCalls options layout blobs := blobCalls_le hturn
    have hlength : pending.length ≤ blobs.length := hturn.length_le
    refine (Client.Within.read _).free fun before => ?_
    refine ((calls_pushBatches _).mono ?_).last fun deferred => ?_
    · rw [hflatten]
      omega
    refine (calls_count _).free fun _ => ?_
    refine (Client.Within.read _).free fun after => ?_
    split
    · exact .pure _
    · exact (calls_stall _ _ _).then_pure

theorem blobRound_descends (blobs : List Row) :
    Client.Descends (fun wire => Steady options layout total wire.log)
      (fun wire => wire.log.length)
      (blobs.length + blobCalls options layout blobs)
      (fun turn _ => turn.1.Sublist blobs) (blobMeasure options layout blobs)
      (blobRound transport disk options session) where
  within turn wire hturn := blobRound_within hturn wire
  descends := by
    rintro ⟨pending, stalled⟩ wire ⟨deferred, next⟩ wire' hturn hrun hsteady
    rw [blobRound] at hrun
    split at hrun
    · cases hrun
    · rw [Client.bind_eq_ok] at hrun
      obtain ⟨before, first, hbefore, hrun⟩ := hrun
      cases hbefore
      rw [Client.bind_eq_ok] at hrun
      obtain ⟨found, middle, hpass, hrun⟩ := hrun
      rw [Client.bind_eq_ok] at hrun
      obtain ⟨u, counted, hcount, hrun⟩ := hrun
      cases hcount
      rw [Client.bind_eq_ok] at hrun
      obtain ⟨after, last, hafter, hrun⟩ := hrun
      cases hafter
      have hflatten := flatten_batches
        (show 0 < blobGrantBatch by decide) pending
      have hsublist := pushBatches_sublist hpass
      rw [hflatten] at hsublist
      have hmoved : Moved options layout total blobs wire.log wire middle :=
        pushBatches_moves (by rw [hflatten]; exact hturn.subset) _ _ _ hpass
      have hfewer : unlanded layout blobs middle.log ≤
          unlanded layout blobs wire.log := unlanded_le hmoved.grows
      have hlength := hsublist.length_le
      split at hrun
      · rename_i hprogress
        cases hrun
        refine ⟨hsublist.trans hturn, Client.budget_progress ?_⟩
        dsimp only [blobsLeft]
        rcases hprogress with hlanded | hshorter
        · have hless := unlanded_lt hmoved.grows
            (hmoved.fresh (List.suffix_refl _) hsteady hlanded)
          omega
        · omega
      · rw [Client.bind_eq_ok] at hrun
        obtain ⟨next, stalled', hstall, hrun⟩ := hrun
        obtain ⟨hlimit, rfl, rfl⟩ := stall_eq_ok hstall
        cases hrun
        refine ⟨hsublist.trans hturn, Client.budget_stall ?_ hlimit⟩
        dsimp only [blobsLeft]
        omega

/-! The packs. -/

/-- A part of the push without a probe leaves the last view of the missing set
alone. -/
abbrev KeepsView {α : Type} (m : Transfer α) : Prop :=
  Client.Keeps (fun wire => lastMissing wire.log) m

theorem forM_observe_keeps {γ : Type} {f : Wire → γ}
    (h : ∀ row, Client.Keeps f (observe row)) (rows : List Row) :
    Client.Keeps f (rows.forM observe) := by
  induction rows with
  | nil => exact .pure ()
  | cons row rows ih => exact (h row).bind fun _ => ih

theorem pushPack_keepsView (members : List Row) :
    KeepsView (pushPack transport disk sha256 options session members) := by
  refine ((Client.Keeps.read _).bind fun _ => .orFail _).bind fun loaded => ?_
  refine (Client.Keeps.orFail _).bind fun encoded => ?_
  have hcall : ∀ claim, KeepsView (call (transport.packGrants · session [claim])
      (.packsGranted session [claim])) := by
    intro claim wire
    simp [call, lastMissing]
  refine (hcall _).bind fun answer => ?_
  rcases answer with fault | granted
  · cases fault with
    | expired detail => exact .pure false
    | io detail => exact .fail _
    | refused code detail => exact .fail _
  · simp only [uploadGranted]
    split
    · split
      · exact .pure true
      · exact .fail _
    · have hupload : ∀ grant, KeepsView (uploadPack transport grant encoded) :=
        fun grant wire => by simp [uploadPack, call, lastMissing]
      refine (attempt_keeps (hupload _) _ _ _).bind fun landed => ?_
      cases landed with
      | none => exact .pure false
      | some done =>
          have hcount : ∀ f, KeepsView (count f) := fun _ _ => rfl
          exact (hcount _).bind fun _ =>
            (forM_observe_keeps (fun _ _ => rfl) _).bind fun _ => .pure true

theorem pushPacks_keepsView (groups : List (List Row)) :
    KeepsView (pushPacks transport disk sha256 options session groups) := by
  induction groups with
  | nil => exact .pure ()
  | cons members groups ih =>
      refine (pushPack_keepsView members).bind fun goOn => ?_
      cases goOn with
      | false => exact .pure ()
      | true => exact ih

/-- What the loop over the missing set knows: a lane of the closure, which the
last probe or the declaration has stated. -/
structure Owed (closure : List Row) (maxPayload : UInt64)
    (missing : List Row) (wire : Wire) : Prop where
  order : missing.Sublist closure
  packed : ∀ row ∈ missing, row.2 ≤ maxPayload
  stated : lastMissing wire.log = some missing

theorem Owed.groups_le {closure missing : List Row} {maxPayload : UInt64}
    {wire : Wire} (h : Owed closure maxPayload missing wire)
    (hbound : maxPayload.toNat ≤ Tfp1.maxPackPayload) :
    (packGroups maxPayload missing).length ≤ closure.length := by
  obtain ⟨hflatten, hpacked⟩ := packGroups_packed hbound h.packed
  calc (packGroups maxPayload missing).length
      ≤ (packGroups maxPayload missing).flatten.length :=
        length_le_flatten fun group hgroup => (hpacked group hgroup).nonempty
    _ = missing.length := by rw [hflatten]
    _ ≤ closure.length := h.order.length_le

theorem probe_eq_ok {refreshed : GrantsPlan} {wire wire' : Wire}
    (h : probe transport session wire = (.ok refreshed, wire')) :
    wire' = { wire with
      log := .packsGranted session [] (.ok refreshed) :: wire.log } :=
  (asked_eq_ok h).2

/-- The cost of one pass over the packs. -/
def packCalls (options : PushOptions) (closure : List Row) : Nat :=
  closure.length * (1 + options.attempts) + 1

theorem replanRound_descends {closure : List Row} {maxPayload : UInt64}
    (hbound : maxPayload.toNat ≤ Tfp1.maxPackPayload) :
    Client.Descends (fun wire => Steady options layout total wire.log)
      (fun wire => wire.log.length) (packCalls options closure)
      (fun turn wire => Owed closure maxPayload turn.1 wire)
      (fun turn _ => Client.budget options.maxStalledReplans.toNat
        turn.1.length turn.2)
      (replanRound transport disk sha256 options session closure
        maxPayload) where
  within := by
    rintro ⟨missing, stalled⟩ wire howed
    have hgroups := howed.groups_le hbound
    have hcost : (packGroups maxPayload missing).length *
        (1 + options.attempts) + 1 ≤ packCalls options closure :=
      Nat.succ_le_succ (Nat.mul_le_mul_right _ hgroups)
    rw [replanRound]
    split
    · exact Client.Within.pure _ _
    · refine (Client.Within.mono ((calls_pushPacks _).bind
        fun _ => ?_) hcost) wire
      refine (calls_count _).free fun _ => calls_probe.last fun refreshed => ?_
      refine (Client.Within.orFail _).free fun _ => ?_
      split
      · exact .pure _
      · exact (calls_stall _ _ _).then_pure
  descends := by
    rintro ⟨missing, stalled⟩ wire ⟨missing', next⟩ wire' howed hrun hsteady
    rw [replanRound] at hrun
    split at hrun
    · cases hrun
    · rw [Client.bind_eq_ok] at hrun
      obtain ⟨u, first, hpacks, hrun⟩ := hrun
      rw [Client.bind_eq_ok] at hrun
      obtain ⟨v, counted, hcount, hrun⟩ := hrun
      cases hcount
      rw [Client.bind_eq_ok] at hrun
      obtain ⟨refreshed, probed, hprobe, hrun⟩ := hrun
      rw [Client.bind_eq_ok] at hrun
      obtain ⟨w, verified, hverify, hrun⟩ := hrun
      obtain ⟨hlanes, rfl⟩ := Client.orFail_eq_ok.mp hverify
      have hlanes := verifyLanes_ok hlanes
      have hprobe := probe_eq_ok hprobe
      have hview : lastMissing first.log = some missing := by
        have hkeeps : KeepsView (pushPacks transport disk sha256 options session
            (packGroups maxPayload missing)) := pushPacks_keepsView _
        have hsame := hkeeps wire
        rw [hpacks] at hsame
        exact hsame.trans howed.stated
      have howes : Owed closure maxPayload refreshed.missing verified :=
        ⟨hlanes.packOrder, hlanes.packed, by rw [hprobe]; rfl⟩
      split at hrun
      · rename_i hshorter
        cases hrun
        exact ⟨howes, Client.budget_progress hshorter⟩
      · rw [Client.bind_eq_ok] at hrun
        obtain ⟨stalled', last, hstall, hrun⟩ := hrun
        obtain ⟨hlimit, rfl, rfl⟩ := stall_eq_ok hstall
        cases hrun
        refine ⟨howes, Client.budget_stall ?_ hlimit⟩
        rw [hprobe] at hsteady
        rcases hsteady.1 with hfew | hshrinks
        · have hfew := UInt32.le_iff_toNat_le.mp hfew
          have hone : (1 : UInt32).toNat = 1 := rfl
          omega
        · exact hshrinks missing hview

/-! Completion. -/

theorem completeRound_descends :
    Client.Descends (fun wire => Steady options layout total wire.log)
      (fun wire => wire.log.length) 1 (fun _ _ => True)
      (fun turn _ => Client.budget options.maxCompletionStalls.toNat
        (total.toNat - turn.1.toNat) turn.2)
      (completeRound transport options session) where
  within turn wire _ := calls_completeRound turn wire
  descends := by
    rintro ⟨admitted, stalls⟩ wire ⟨admitted', next⟩ wire' - hrun hsteady
    rw [completeRound, Client.bind_eq_ok] at hrun
    obtain ⟨u, counted, hcount, hrun⟩ := hrun
    cases hcount
    rw [Client.bind_eq_ok] at hrun
    obtain ⟨answer, called, hcall, hrun⟩ := hrun
    have hlog : called.log = .completed session answer :: wire.log := by
      cases hcall
      rfl
    match answer with
    | .ok .promoted => cases hrun
    | .ok (.failed code) => cases hrun
    | .error (.expired detail) => cases hrun
    | .error (.refused code detail) => cases hrun
    | .error (.io detail) =>
        rw [Client.bind_eq_ok] at hrun
        obtain ⟨stalls', last, hstall, hrun⟩ := hrun
        obtain ⟨hlimit, rfl, rfl⟩ := stall_eq_ok hstall
        cases hrun
        exact ⟨trivial, Client.budget_stall le_rfl hlimit⟩
    | .ok (.incomplete code promoted _) =>
        dsimp only at hrun
        split at hrun
        · rename_i hmore
          cases hrun
          rw [hlog] at hsteady
          have hmost : admitted' ≤ total := hsteady.1
          rw [UInt64.le_iff_toNat_le] at hmost
          rw [UInt64.lt_iff_toNat_lt] at hmore
          refine ⟨trivial, Client.budget_progress ?_⟩
          dsimp only
          omega
        · rw [Client.bind_eq_ok] at hrun
          obtain ⟨stalls', last, hstall, hrun⟩ := hrun
          obtain ⟨hlimit, rfl, rfl⟩ := stall_eq_ok hstall
          cases hrun
          exact ⟨trivial, Client.budget_stall le_rfl hlimit⟩

/-! The whole push. -/

/-- At most so many calls behind one state of a push. -/
abbrev CallsAt {α : Type} (enough : Prop) (options : PushOptions)
    (layout : ObjectDigest → List UInt32) (total : UInt64) (cost : Nat)
    (m : Transfer α) (wire : Wire) : Prop :=
  Client.WithinAt enough (fun wire => Steady options layout total wire.log)
    (fun wire => wire.log.length) cost m wire

theorem completePush_calls {enough : Prop} {fuel : Nat}
    (henough : enough →
      (total.toNat + 1) * max 1 options.maxCompletionStalls.toNat ≤ fuel) :
    Calls enough options layout total
      ((total.toNat + 1) * max 1 options.maxCompletionStalls.toNat)
      (completePush transport options fuel session) := by
  have hrounds : Calls enough options layout total
      ((total.toNat + 1) * max 1 options.maxCompletionStalls.toNat * 1)
      (Client.rounds (completeRound transport options session) fuel (0, 0)) :=
    fun wire => (completeRound_descends.rounds
      (fun fuel turn wire hgood => Honest.steady
        (Client.FailsOn.rounds completeRound_honest fuel turn) hgood)
      trivial (Client.budget_le _ _ _)).weaken henough
  rw [Nat.mul_one] at hrounds
  exact hrounds.last fun _ => .read _

theorem pushMissing_calls {enough : Prop} {fuel : Nat} {closure : List Row}
    {maxPayload : UInt64} {missing : List Row} {wire : Wire}
    (hbound : maxPayload.toNat ≤ Tfp1.maxPackPayload)
    (howed : Owed closure maxPayload missing wire)
    (hreplans : enough → (closure.length + 1) *
      max 1 options.maxStalledReplans.toNat ≤ fuel)
    (hstalls : enough →
      (total.toNat + 1) * max 1 options.maxCompletionStalls.toNat ≤ fuel) :
    CallsAt enough options layout total
      ((closure.length + 1) * max 1 options.maxStalledReplans.toNat *
          packCalls options closure +
        (total.toNat + 1) * max 1 options.maxCompletionStalls.toNat)
      (pushMissing transport disk sha256 options fuel session closure
        maxPayload missing) wire := by
  have hstart : Client.budget options.maxStalledReplans.toNat missing.length 0 <
      (closure.length + 1) * max 1 options.maxStalledReplans.toNat :=
    (Client.budget_le _ _ _).trans_le
      (Nat.mul_le_mul_right _ (Nat.succ_le_succ howed.order.length_le))
  have hloop : CallsAt enough options layout total
      ((closure.length + 1) * max 1 options.maxStalledReplans.toNat *
        packCalls options closure)
      (Client.rounds (replanRound transport disk sha256 options session closure
        maxPayload) fuel (missing, 0)) wire :=
    ((replanRound_descends hbound).rounds
      (fun fuel turn wire hgood => Honest.steady
        (Client.FailsOn.rounds (replanRound_honest _ _) fuel turn) hgood)
      howed hstart).weaken hreplans
  exact hloop.bind
    (fun _ wire' _ _ => completePush_calls hstalls wire')
    fun _ _ hgood => (completePush_honest fuel).steady hgood

/-- The rounds that the blob lane can take. -/
def blobRounds (options : PushOptions)
    (layout : ObjectDigest → List UInt32) (closure : List Row) : Nat :=
  (partCount layout closure + closure.length + 1) *
    max 1 options.maxStalledReplans.toNat

theorem pushBlobLane_calls {enough : Prop} {fuel : Nat}
    {closure blobs : List Row} (hblobs : blobs.Sublist closure)
    (henough : enough → blobRounds options layout closure ≤ fuel) :
    Calls enough options layout total
      (blobRounds options layout closure *
        (closure.length + blobCalls options layout closure))
      (pushBlobLane transport disk options session fuel blobs) := by
  intro wire
  have hparts : partCount layout blobs ≤ partCount layout closure :=
    partCount_le hblobs
  have hunlanded := unlanded_le_partCount layout blobs wire.log
  have hlength := hblobs.length_le
  have hcalls : blobCalls options layout blobs ≤
      blobCalls options layout closure := blobCalls_le hblobs
  have hstart : blobMeasure options layout blobs (blobs, 0) wire <
      blobRounds options layout closure := by
    refine (Client.budget_le _ _ _).trans_le (Nat.mul_le_mul_right _ ?_)
    dsimp only [blobsLeft]
    omega
  have hloop : CallsAt enough options layout total
      (blobRounds options layout closure *
        (blobs.length + blobCalls options layout blobs))
      (pushBlobLane transport disk options session fuel blobs) wire :=
    ((blobRound_descends blobs).rounds
      (fun fuel turn wire hgood => Honest.steady
        (Client.FailsOn.rounds blobRound_honest fuel turn) hgood)
      (List.Sublist.refl blobs) hstart).weaken henough
  exact hloop.mono (Nat.mul_le_mul_left _ (by omega))

theorem pushLargeObjects_calls {enough : Prop} {fuel : Nat}
    {closure missing missingBlobs : List Row} {maxPayload : UInt64}
    (hblobs : missingBlobs.Sublist closure)
    (henough : enough → blobRounds options layout closure ≤ fuel) :
    Calls enough options layout total
      (blobRounds options layout closure *
        (closure.length + blobCalls options layout closure) + 1)
      (pushLargeObjects transport disk options session fuel closure
        maxPayload missing missingBlobs) := by
  unfold pushLargeObjects
  split
  · exact .pure _
  · refine (pushBlobLane_calls hblobs henough).bind fun _ => ?_
    refine calls_probe.last fun refreshed => ?_
    refine (Client.Within.orFail _).free fun _ => ?_
    split
    · exact .pure _
    · exact .fail _

/-- What is missing behind the blob lane is a lane of the closure. -/
theorem pushLargeObjects_owed {fuel : Nat}
    {closure missing missingBlobs found : List Row} {maxPayload : UInt64}
    {wire wire' : Wire} (howed : Owed closure maxPayload missing wire)
    (hrun : pushLargeObjects transport disk options session fuel closure
      maxPayload missing missingBlobs wire = (.ok found, wire')) :
    Owed closure maxPayload found wire' := by
  unfold pushLargeObjects at hrun
  split at hrun
  · cases hrun
    exact howed
  · rw [Client.bind_eq_ok] at hrun
    obtain ⟨u, first, -, hrun⟩ := hrun
    rw [Client.bind_eq_ok] at hrun
    obtain ⟨refreshed, probed, hprobe, hrun⟩ := hrun
    rw [Client.bind_eq_ok] at hrun
    obtain ⟨w, verified, hverify, hrun⟩ := hrun
    obtain ⟨hlanes, rfl⟩ := Client.orFail_eq_ok.mp hverify
    have hlanes := verifyLanes_ok hlanes
    have hprobe := probe_eq_ok hprobe
    cases hblobs : refreshed.missingBlobs with
    | nil =>
        rw [hblobs] at hrun
        cases hrun
        exact ⟨hlanes.packOrder, hlanes.packed, by rw [hprobe]; rfl⟩
    | cons row rest =>
        rw [hblobs] at hrun
        cases hrun

theorem pushLanes_calls {enough : Prop} {fuel : Nat} {closure : List Row}
    {plan : SyncPlan} {wire : Wire}
    (hstated : lastMissing wire.log = some plan.missing)
    (henough : enough → roundBound options layout total closure ≤ fuel) :
    CallsAt enough options layout total
      (blobRounds options layout closure *
          (closure.length + blobCalls options layout closure) + 1 +
        ((closure.length + 1) * max 1 options.maxStalledReplans.toNat *
            packCalls options closure +
          (total.toNat + 1) * max 1 options.maxCompletionStalls.toNat))
      (pushLanes transport disk sha256 options fuel closure plan) wire := by
  have hround : roundBound options layout total closure =
      blobRounds options layout closure +
        (total.toNat + 1) * max 1 options.maxCompletionStalls.toNat := rfl
  have hreplans : (closure.length + 1) * max 1 options.maxStalledReplans.toNat ≤
      blobRounds options layout closure :=
    Nat.mul_le_mul_right _ (by omega)
  refine Client.WithinAt.mono ((Client.Within.orFail _ wire).bind ?_
    fun _ wire' hgood => Honest.steady
      ((pushLargeObjects_honest _ _ _ _ _).bind fun _ =>
        pushMissing_honest _ _ _ _) hgood) (Nat.zero_add _).le
  intro u verified hverify _
  obtain ⟨hlanes, rfl⟩ := Client.orFail_eq_ok.mp hverify
  have hlanes := verifyLanes_ok hlanes
  refine (pushLargeObjects_calls hlanes.blobOrder
    (fun h => by have := henough h; omega) verified).bind ?_
      fun _ wire' hgood => (pushMissing_honest _ _ _ _).steady hgood
  intro found wire' hrun _
  exact pushMissing_calls (payloadBound_le _)
    (pushLargeObjects_owed ⟨hlanes.packOrder, hlanes.packed, hstated⟩ hrun)
    (fun h => by have := henough h; omega) fun h => by have := henough h; omega

theorem observeResident_log (closure : List Row) (held : List ObjectDigest)
    (wire : Wire) :
    (observeResident closure held wire).2.log = wire.log :=
  forM_observe_keeps (fun _ _ => rfl) _ wire

theorem observeResident_calls {enough : Prop} (closure : List Row)
    (held : List ObjectDigest) :
    Calls enough options layout total 0 (observeResident closure held) :=
  calls_forM_observe _

theorem pushDeclared_calls {enough : Prop} {fuel : Nat} {closure : List Row}
    {plan : SyncPlan} {wire : Wire}
    (hstated : lastMissing wire.log = some plan.missing)
    (henough : enough → roundBound options layout total closure ≤ fuel) :
    CallsAt enough options layout total
      (blobRounds options layout closure *
          (closure.length + blobCalls options layout closure) + 1 +
        ((closure.length + 1) * max 1 options.maxStalledReplans.toNat *
            packCalls options closure +
          (total.toNat + 1) * max 1 options.maxCompletionStalls.toNat))
      (pushDeclared transport disk sha256 options fuel closure plan) wire := by
  refine Client.WithinAt.mono ((calls_count _ wire).bind ?_
    fun _ wire' hgood => Honest.steady
      ((honest_forM honest_observe).bind fun _ => pushLanes_honest _ _ _)
        hgood) (Nat.zero_add _).le
  intro u counted hcount _
  cases hcount
  refine Client.WithinAt.mono ((observeResident_calls _ _ _).bind ?_
    fun _ wire' hgood => (pushLanes_honest _ _ _).steady hgood)
      (Nat.zero_add _).le
  intro v observed hobserve _
  have hlog := observeResident_log closure plan.have_ { wire with
    report := { wire.report with
      skippedRemoteResident := plan.have_.length } }
  rw [hobserve] at hlog
  exact pushLanes_calls (by rw [hlog]; exact hstated) henough

/-- While the remote takes nothing back, a push makes no more calls than its
closure, the granted parts, its options and the promoted total allow, and ends
once its loops may run for as many rounds. -/
theorem push_ends (transport : Transport) (disk : List Event → Disk)
    (sha256 : Bytes → Digest) (options : PushOptions) (fuel : Nat)
    (snapshot : SnapshotId) (expectedHead : Option SnapshotId)
    (decoded : Snapshot) (layout : ObjectDigest → List UInt32)
    (total : UInt64)
    (hsteady : Steady options layout total (pushSnapshot transport disk sha256
      options fuel snapshot expectedHead (.ok decoded) {}).2.log) :
    (pushSnapshot transport disk sha256 options fuel snapshot expectedHead
        (.ok decoded) {}).2.log.length ≤
      callBound options layout total (dataClosure decoded) ∧
      (roundBound options layout total (dataClosure decoded) ≤ fuel →
        (pushSnapshot transport disk sha256 options fuel snapshot expectedHead
          (.ok decoded) {}).1 ≠ .error .unfinished) := by
  cases hdeclare : transport.declare [] decoded.toBytes expectedHead with
  | error error =>
      have hrun : pushSnapshot transport disk sha256 options fuel snapshot
          expectedHead (.ok decoded) {} =
            (.error (.failed (.transport error)),
              { log := [.declared decoded.toBytes expectedHead
                (.error error)] }) := by
        simp [pushSnapshot, Client.bind_run, Except.mapError, call, hdeclare,
          orFail]
      rw [hrun]
      exact ⟨Nat.le_add_right 1 _, by simp⟩
  | ok plan =>
      rw [pushSnapshot_declared hdeclare] at hsteady ⊢
      have hcalls : CallsAt
          (roundBound options layout total (dataClosure decoded) ≤ fuel)
          options layout total
          (0 + (callBound options layout total (dataClosure decoded) - 1))
          (Client.check (plan.snapshotId = snapshot)
              (.identityMismatch snapshot plan.snapshotId) >>= fun _ =>
            pushDeclared transport disk sha256 options fuel
              (dataClosure decoded) plan)
          { log := [.declared decoded.toBytes expectedHead (.ok plan)] } := by
        refine (Client.Within.check _ _ _).bind ?_
          fun _ _ hgood => (pushDeclared_honest _ _ _).steady hgood
        intro u middle hcheck _
        obtain ⟨-, rfl⟩ := Client.check_eq_ok.mp hcheck
        rw [callBound, Nat.add_sub_cancel_left]
        exact pushDeclared_calls rfl id
      obtain ⟨-, hcost, hends⟩ := hcalls hsteady
      have hone : 1 ≤ callBound options layout total (dataClosure decoded) :=
        Nat.le_add_right 1 _
      exact ⟨hcost.trans (by simp only [List.length_singleton]; omega), hends⟩

end

/-! A remote that forgets the parts it has accepted: the second part of a blob
always expires, and no grant lists the first as uploaded. -/

namespace Forgetful

def object : ObjectDigest := TensorFS.sha256 [7, 7]

def snapshot : Snapshot := ⟨none, [(['a'], .file false (.blob 2 object))]⟩

def id : SnapshotId := TensorFS.sha256 snapshot.toBytes

def part (number : UInt32) : BlobPart where
  partNumber := number
  sizeBytes := 1
  url := []
  headers := []

def grant : BlobGrant where
  digest := object
  length := 2
  stagingKey := []
  uploadId := []
  partSize := 1
  parts := [part 1, part 2]
  uploadedParts := []

def plan : SyncPlan where
  snapshotId := id
  session := []
  have_ := []
  missing := []
  missingBlobs := [(object, 2)]
  maxPackPayload := 1

def transport : Transport where
  declare _ _ _ := .ok plan
  packGrants _ _ _ := .error (.expired [])
  uploadPack _ _ _ := .error (.expired [])
  blobGrants _ _ _ := .ok [grant]
  uploadBlobPart _ part _ :=
    if part.partNumber = 1 then .ok [] else .error (.expired [])
  reportBlobParts _ _ _ _ := .ok ()
  complete _ _ := .error (.expired [])
  downloadGrants _ _ := .error (.expired [])
  download _ _ := .error (.expired [])

def disk : List Event → Disk := fun _ _ => .ok [7, 7]

/-- The answers of one round, the newest first. -/
def round : List Event :=
  [.partsReported [] object [⟨1, []⟩] (.ok ()),
    .partUploaded (part 2) [7] (.error (.expired [])),
    .partUploaded (part 1) [7] (.ok []),
    .blobsGranted [] [object] (.ok [grant])]

/-- One part more has landed. -/
def landed (calls : List Event) (wire : Wire) : Wire :=
  { wire with
    log := calls ++ wire.log
    report := { wire.report with blobParts := wire.report.blobParts + 1 } }

theorem pushOneBlob_run (wire : Wire) :
    pushOneBlob transport disk {} [] grant 2 wire =
      (.ok .expired, landed (round.take 3) wire) := rfl

theorem pushBlobs_run (wire : Wire) :
    pushBlobs transport disk {} [] [grant] [(object, 2)] wire =
      (.ok [(object, 2)], landed (round.take 3) wire) := by
  have hfind : [grant].find? (fun grant => grant.digest = object) =
      some grant := List.find?_cons_of_pos (by simp [grant])
  rw [pushBlobs, hfind]
  exact Client.bind_of_ok (pushOneBlob_run wire)

theorem pushBatches_run (wire : Wire) :
    pushBatches transport disk {} [] (batches blobGrantBatch [(object, 2)])
        wire =
      (.ok [(object, 2)], landed round wire) := by
  have hbatch : pushBatch transport disk {} [] [(object, 2)] wire =
      (.ok [(object, 2)], landed round wire) := pushBlobs_run _
  exact Client.bind_of_ok hbatch

/-- A round ends as it began, but for what it has counted. -/
theorem blobRound_run (wire : Wire) :
    ∃ wire', blobRound transport disk {} [] ([(object, 2)], 0) wire =
        (.ok (.inl ([(object, 2)], 0)), wire') ∧
      wire'.log = round ++ wire.log := by
  let counted : Wire := { landed round wire with
    report := { (landed round wire).report with
      replans := wire.report.replans + 1 } }
  refine ⟨counted, ?_, rfl⟩
  have hread : (Client.read fun wire => wire.report.blobParts : Transfer Nat)
      wire = (.ok wire.report.blobParts, wire) := rfl
  have hcount : count (fun report =>
      { report with replans := report.replans + 1 }) (landed round wire) =
        (.ok (), counted) := rfl
  have hagain : (Client.read fun wire => wire.report.blobParts : Transfer Nat)
      counted = (.ok (wire.report.blobParts + 1), counted) := rfl
  rw [blobRound, if_neg (List.cons_ne_nil _ _), Client.bind_of_ok hread,
    Client.bind_of_ok (pushBatches_run wire), Client.bind_of_ok hcount,
    Client.bind_of_ok hagain, if_pos (.inl (Nat.lt_succ_self _))]
  rfl

theorem blobLane_run (fuel : Nat) (wire : Wire) :
    ∃ wire', pushBlobLane transport disk {} [] fuel [(object, 2)] wire =
        (.error .unfinished, wire') ∧
      wire.log.length + fuel ≤ wire'.log.length := by
  induction fuel generalizing wire with
  | zero => exact ⟨wire, rfl, le_rfl⟩
  | succ fuel ih =>
      obtain ⟨middle, hround, hlog⟩ := blobRound_run wire
      obtain ⟨wire', hrest, hlength⟩ := ih middle
      refine ⟨wire', ?_, ?_⟩
      · rw [pushBlobLane, Client.rounds, Client.bind_of_ok hround]
        exact hrest
      · have hfour : round.length = 4 := rfl
        rw [hlog, List.length_append] at hlength
        omega

end Forgetful

/-- However many rounds its loops may take, a push to the forgetful remote has
not ended, and its calls are beyond every bound. -/
theorem push_never_ends :
    decode asciiUnicode Forgetful.snapshot.toBytes = .ok Forgetful.snapshot ∧
      ∀ fuel,
        (pushSnapshot Forgetful.transport Forgetful.disk sha256 {} fuel
            Forgetful.id none (.ok Forgetful.snapshot) {}).1 =
          .error .unfinished ∧
        fuel ≤ (pushSnapshot Forgetful.transport Forgetful.disk sha256 {} fuel
          Forgetful.id none (.ok Forgetful.snapshot) {}).2.log.length := by
  refine ⟨by decide +kernel, fun fuel => ?_⟩
  let start : Wire :=
    { log := [.declared Forgetful.snapshot.toBytes none (.ok Forgetful.plan)] }
  obtain ⟨wire', hlane, hlength⟩ := Forgetful.blobLane_run fuel start
  have hdeclare : Forgetful.transport.declare [] Forgetful.snapshot.toBytes
      none = .ok Forgetful.plan := rfl
  have hcheck : (Client.check (Forgetful.plan.snapshotId = Forgetful.id)
      (.identityMismatch Forgetful.id Forgetful.plan.snapshotId) :
        Transfer Unit) start = (.ok (), start) := Client.check_of _ _ rfl
  have hcount : count (fun report => { report with
      skippedRemoteResident := Forgetful.plan.have_.length }) start =
        (.ok (), start) := rfl
  have hheld : observeResident (dataClosure Forgetful.snapshot)
      Forgetful.plan.have_ start = (.ok (), start) := rfl
  have hverify : (Client.orFail (verifyLanes (dataClosure Forgetful.snapshot)
      Forgetful.plan.missing Forgetful.plan.missingBlobs
        (payloadBound Forgetful.plan.maxPackPayload)) : Transfer Unit) start =
          (.ok (), start) := by
    rw [show verifyLanes (dataClosure Forgetful.snapshot)
      Forgetful.plan.missing Forgetful.plan.missingBlobs
        (payloadBound Forgetful.plan.maxPackPayload) = .ok () by
          decide +kernel]
    rfl
  have hlarge : pushLargeObjects Forgetful.transport Forgetful.disk {}
      Forgetful.plan.session fuel (dataClosure Forgetful.snapshot)
      (payloadBound Forgetful.plan.maxPackPayload) Forgetful.plan.missing
      Forgetful.plan.missingBlobs start = (.error .unfinished, wire') := by
    rw [pushLargeObjects, if_neg (show Forgetful.plan.missingBlobs ≠ [] from
      List.cons_ne_nil _ _)]
    exact Client.bind_of_error hlane
  have hrun : pushSnapshot Forgetful.transport Forgetful.disk sha256 {} fuel
      Forgetful.id none (.ok Forgetful.snapshot) {} =
        (.error .unfinished, wire') := by
    rw [pushSnapshot_declared hdeclare, Client.bind_of_ok hcheck, pushDeclared,
      Client.bind_of_ok hcount, Client.bind_of_ok hheld, pushLanes,
      Client.bind_of_ok hverify]
    exact Client.bind_of_error hlarge
  rw [hrun]
  exact ⟨rfl, (Nat.le_add_left _ _).trans hlength⟩

/-! A remote whose first grant of either lane expires, and whose first
completion is not the last. -/

namespace Replanning

def packed : ObjectDigest := TensorFS.sha256 [5]
def large : ObjectDigest := TensorFS.sha256 [7, 7]

def snapshot : Snapshot :=
  ⟨none, [(['a'], .file false (.blob 1 packed)),
    (['b'], .file false (.blob 2 large))]⟩

def id : SnapshotId := TensorFS.sha256 snapshot.toBytes

def part (number : UInt32) : BlobPart where
  partNumber := number
  sizeBytes := 1
  url := []
  headers := []

def grant (uploaded : List UInt32) : BlobGrant where
  digest := large
  length := 2
  stagingKey := []
  uploadId := []
  partSize := 1
  parts := [part 1, part 2]
  uploadedParts := uploaded

def plan : SyncPlan where
  snapshotId := id
  session := []
  have_ := []
  missing := [(packed, 1)]
  missingBlobs := [(large, 2)]
  maxPackPayload := 1

def reported : Event → Bool
  | .partsReported .. => true
  | _ => false

def stored : Event → Bool
  | .packUploaded _ _ (.ok ()) => true
  | _ => false

def tried : Event → Bool
  | .packUploaded .. => true
  | _ => false

def asked : Event → Bool
  | .completed .. => true
  | _ => false

def transport : Transport where
  declare _ _ _ := .ok plan
  packGrants log _ claims := .ok
    { grants := claims.map fun claim => ⟨claim.sha256, [], [], []⟩
      stagedPacks := []
      missing := if log.any stored then [] else [(packed, 1)]
      missingBlobs := [] }
  uploadPack log _ _ := if log.any tried then .ok () else .error (.expired [])
  blobGrants log _ _ := .ok [grant (if log.any reported then [1] else [])]
  uploadBlobPart log part _ :=
    if part.partNumber = 2 ∧ log.any reported = false then
      .error (.expired [])
    else .ok []
  reportBlobParts _ _ _ _ := .ok ()
  complete log _ :=
    if log.any asked then .ok .promoted else .ok (.incomplete [] 1 2)
  downloadGrants _ _ := .error (.expired [])
  download _ _ := .error (.expired [])

def disk : List Event → Disk := fun _ digest =>
  .ok (if digest = packed then [5] else [7, 7])

def layout (digest : ObjectDigest) : List UInt32 :=
  if digest = large then [1, 2] else []

end Replanning

/-- One pack and one blob land, each on a second plan. -/
theorem push_ends_replanning :
    (pushSnapshot Replanning.transport Replanning.disk TensorFS.sha256 {} 200
        Replanning.id none (.ok Replanning.snapshot) {}).1 = .ok
      { uploadedObjects := 2, uploadedBytes := 3, packs := 1, blobs := 1,
        blobParts := 2, completeAttempts := 2, replans := 4 } ∧
    (pushSnapshot Replanning.transport Replanning.disk TensorFS.sha256 {} 200
        Replanning.id none (.ok Replanning.snapshot) {}).2.log.length ≤
      callBound {} Replanning.layout 1 (dataClosure Replanning.snapshot) ∧
    (pushSnapshot Replanning.transport Replanning.disk TensorFS.sha256 {} 200
        Replanning.id none (.ok Replanning.snapshot) {}).1 ≠
      .error .unfinished := by
  obtain ⟨hrounds, hreport⟩ :
      roundBound {} Replanning.layout 1 (dataClosure Replanning.snapshot) ≤
          200 ∧
        (pushSnapshot Replanning.transport Replanning.disk TensorFS.sha256 {}
            200 Replanning.id none (.ok Replanning.snapshot) {}).1 = .ok
          { uploadedObjects := 2, uploadedBytes := 3, packs := 1, blobs := 1,
            blobParts := 2, completeAttempts := 2, replans := 4 } := by
    decide +kernel
  obtain ⟨hcalls, hends⟩ := push_ends Replanning.transport Replanning.disk
    TensorFS.sha256 {} 200 Replanning.id none Replanning.snapshot
    Replanning.layout 1 (by decide +kernel)
  exact ⟨hreport, hcalls, hends hrounds⟩

end TensorFS.Sync
