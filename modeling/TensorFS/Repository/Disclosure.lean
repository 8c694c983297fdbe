import TensorFS.Repository.Promotable

namespace TensorFS.Go

open Data

/-! What a plan tells about objects its publisher may not claim. -/

/-- A gate that denies these candidates and no others. -/
def ClaimGate.Denies (gate : ClaimGate) (denied : Set Ref) : Prop :=
  ∀ candidates, ∃ refused, gate candidates = .ok refused ∧
    ∀ ref, ref ∈ refused ↔ ref ∈ candidates ∧ ref ∈ denied

/-- Two answers that speak about the same objects and differ at most on the
denied ones. -/
def Residency.AgreeOutside (denied : Set Ref) (left right : Residency) : Prop :=
  (∀ ref, (left.find? ref).isSome = (right.find? ref).isSome) ∧
    ∀ ref, ref ∉ denied → left.find? ref = right.find? ref

/-- A store that fails alike or answers alike outside the denied objects, and
signs alike. -/
structure Store.AgreeOutside (denied : Set Ref) (left right : Store) :
    Prop where
  residency : ∀ objects, (∃ reason, left.residency objects = .error reason ∧
      right.residency objects = .error reason) ∨
    ∃ answer other, left.residency objects = .ok answer ∧
      right.residency objects = .ok other ∧ answer.AgreeOutside denied other
  presignPut : left.presignPut = right.presignPut

/-- Residents and grants are the declared objects, each once. -/
structure Plan.Partitions (plan : Plan) (manifest : Manifest) : Prop where
  haves : plan.haves.Nodup
  need : (plan.need.map fun grant => grant.planned.object.digest).Nodup
  disjoint : ∀ ref ∈ plan.haves,
    ref ∉ plan.need.map fun grant => grant.planned.object.digest
  declared : ∀ ref,
    (ref ∈ plan.haves ∨
        ref ∈ plan.need.map fun grant => grant.planned.object.digest) ↔
      ∃ object ∈ manifest.objects, object.digest = ref

theorem Plan.Splits.partitions {plan : Plan} {manifest : Manifest}
    {objects : List Object} {shown : Ref → Bool}
    (h : plan.Splits objects shown)
    (hdistinct : Distinct manifest.objects objects) :
    plan.Partitions manifest := by
  have hperm := h.perm
  rw [Plan.pendingObjects, List.map_map] at hperm
  have hnodup := hperm.nodup_iff.mpr hdistinct.nodup
  rw [List.nodup_append] at hnodup
  refine ⟨hnodup.1, hnodup.2.1, fun ref hmem hneed =>
    hnodup.2.2 ref hmem ref hneed rfl, fun ref => ?_⟩
  rw [← List.mem_append]
  refine (hperm.mem_iff (a := ref)).trans ?_
  simp only [List.mem_map, hdistinct.mem]

/-! The same answers lead to the same plan. -/

theorem Residency.length_eq {left right : Residency}
    (h : ∀ ref, (left.find? ref).isSome = (right.find? ref).isSome) :
    left.entries.length = right.entries.length := by
  have hkeys : (left.entries.map Prod.fst).Perm
      (right.entries.map Prod.fst) := by
    rw [List.perm_ext_iff_of_nodup left.keys right.keys]
    intro ref
    have hiff := h ref
    rw [Bool.eq_iff_iff] at hiff
    simpa [Residency.find?, findRow_isSome] using hiff
  simpa using hkeys.length_eq

theorem requireCompleteResidency_congr {left right : Residency}
    (h : ∀ ref, (left.find? ref).isSome = (right.find? ref).isSome)
    (objects : List Object) :
    requireCompleteResidency objects left =
      requireCompleteResidency objects right := by
  simp only [requireCompleteResidency, Residency.length_eq h, h]

/-- What the gate denies is not shown, whether it was resident or not. -/
theorem unclaimable_shown {p : Planner} {gate : ClaimGate} {denied : Set Ref}
    (hclaims : p.claims = some gate) (hgate : gate.Denies denied)
    (resident : Ref → Bool) (order : List Ref) :
    ∃ refused, p.unclaimable resident order = .ok refused ∧
      ∀ ref ∈ order, (resident ref && ref ∉ refused) = true ↔
        resident ref = true ∧ ref ∉ denied := by
  obtain ⟨refused, hrefused, hdenies⟩ := hgate (order.filter resident)
  have hclaimed : checkAll (fun ref =>
      ensure (resident ref = true) (PlanFault.claimed ref)) refused =
        .ok () := by
    rw [checkAll_eq_ok]
    intro ref hmem
    exact ensure_of (List.mem_filter.mp ((hdenies ref).mp hmem).1).2
  refine ⟨refused, ?_, fun ref hmem => ?_⟩
  · rw [Planner.unclaimable, hclaims]
    simp only [hrefused, Except.mapError, except_ok_bind, hclaimed]
  · rw [Bool.and_eq_true, decide_eq_true_eq, hdenies, List.mem_filter]
    tauto

theorem answer_congr {p : Planner} {left right : Store}
    (hpresign : left.presignPut = right.presignPut) {sessionID : Text}
    {manifest : Manifest} {declaredBytes : Int64} {objects : List Object}
    {shown other : Ref → Bool}
    (h : ∀ ref ∈ objects.map Object.digest, shown ref = other ref) :
    p.answer left sessionID manifest declaredBytes objects shown =
      p.answer right sessionID manifest declaredBytes objects other := by
  have hkept : (objects.map Object.digest).filter shown =
      (objects.map Object.digest).filter other := List.filter_congr h
  have hpending : objects.filter (fun object => ¬ shown object.digest) =
      objects.filter fun object => ¬ other object.digest := by
    apply List.filter_congr
    intro object hmem
    rw [h _ (List.mem_map_of_mem hmem)]
  have hgrant : p.grantOne left = p.grantOne right := by
    unfold Planner.grantOne
    rw [hpresign]
  simp only [Planner.answer, hkept, hpending, hgrant]

theorem planWith_congr {p : Planner} {gate : ClaimGate} {denied : Set Ref}
    {left right : Store} (hclaims : p.claims = some gate)
    (hgate : gate.Denies denied) (h : left.AgreeOutside denied right)
    (decode : Bytes → Option WireManifest) (toLower : Text → Text)
    (sessionID : Text) (manifest : Manifest) :
    p.planWith decode toLower left sessionID manifest =
      p.planWith decode toLower right sessionID manifest := by
  unfold Planner.planWith
  refine except_bind_congr fun validated => except_bind_congr fun _ =>
    except_bind_congr fun walked => ?_
  obtain ⟨declaredBytes, objects⟩ := walked
  rcases h.residency objects with ⟨reason, hleft, hright⟩ |
    ⟨answer, other, hleft, hright, hkeys, houtside⟩
  · dsimp only
    rw [hleft, hright]
    rfl
  · simp only [hleft, hright, Except.mapError, except_ok_bind,
      requireCompleteResidency_congr hkeys]
    refine except_bind_congr fun _ => ?_
    obtain ⟨refused, hrefused, hshown⟩ := unclaimable_shown hclaims hgate
      answer.resident (objects.map Object.digest)
    obtain ⟨refusedOther, hrefusedOther, hshownOther⟩ := unclaimable_shown
      hclaims hgate other.resident (objects.map Object.digest)
    rw [hrefused, hrefusedOther, except_ok_bind, except_ok_bind]
    refine answer_congr h.presignPut fun ref hmem => ?_
    rw [Bool.eq_iff_iff, hshown ref hmem, hshownOther ref hmem]
    refine and_congr_left fun hout => ?_
    rw [Residency.resident, Residency.resident, houtside ref hout]

/-- Two stores that differ only on objects the publisher is denied, without one
of them leaving such an object out, are given the same plan or the same
refusal; and every plan divides the declared objects into residents and
grants. -/
theorem plan_discloses_nothing {p : Planner} {gate : ClaimGate}
    {denied : Set Ref} {left right : Store} (hgate : gate.Denies denied)
    (h : left.AgreeOutside denied right)
    {decode : Bytes → Option WireManifest} {manifest : Manifest}
    (hdecode : ReadsBack decode manifest) (toLower : Text → Text)
    (sessionID : Text) :
    Planner.plan { p with store := some left, claims := some gate } decode
        toLower sessionID manifest =
      Planner.plan { p with store := some right, claims := some gate } decode
        toLower sessionID manifest ∧
      ∀ (planner : Planner) (plan : Plan),
        planner.plan decode toLower sessionID manifest = .ok plan →
          plan.Partitions manifest := by
  constructor
  · exact planWith_congr (p := { p with store := some left, claims := some gate })
      rfl hgate h decode toLower sessionID manifest
  · intro planner plan hplan
    obtain ⟨validated, hvalidated, hreturns⟩ := plan_returns hplan
    obtain ⟨-, -, -, rfl⟩ := (validateManifest_eq_ok hdecode).mp hvalidated
    obtain ⟨objects, shown, hdistinct, -, hsplits⟩ := hreturns.splits
    obtain ⟨hhaves, hneed, hdisjoint, hdeclared⟩ :=
      hsplits.partitions hdistinct
    refine ⟨hhaves, hneed, hdisjoint, fun ref => (hdeclared ref).trans ?_⟩
    simp only [manifest.sorted_objects_perm.mem_iff]

/-! One object, denied to everyone. -/

def blobRef : Ref := .ofDigest emptyBlobDigest

def blobGate : ClaimGate := fun candidates =>
  .ok (candidates.filter fun ref => ref = blobRef)

theorem blobGate_denies : blobGate.Denies {blobRef} := fun candidates =>
  ⟨_, rfl, fun ref => by simp⟩

/-- A store whose answer is this one whatever it is asked. -/
def answering (answer : Residency) : Store :=
  { emptyStore with residency := fun _ => .ok answer }

def blobAnswer (resident : Bool) : Residency := ⟨[(blobRef, resident)], by simp⟩

def gatedPlanner (store : Store) : Planner :=
  { openPlanner .zero with store := some store, claims := some blobGate }

theorem blobAnswer_find? (resident : Bool) (ref : Ref) :
    (blobAnswer resident).find? ref =
      if ref = blobRef then some resident else none := by
  by_cases heq : blobRef = ref
  · simp [Residency.find?, findRow, blobAnswer, heq]
  · simp [Residency.find?, findRow, blobAnswer, heq, Ne.symm heq]

/-- Holding the denied object or not makes no difference. -/
theorem plan_discloses_nothing_blob :
    (gatedPlanner (answering (blobAnswer true))).plan (readBlob 3) id ['s']
        (blobManifest 3) =
      (gatedPlanner (answering (blobAnswer false))).plan (readBlob 3) id ['s']
        (blobManifest 3) := by
  have hagree : (blobAnswer true).AgreeOutside {blobRef} (blobAnswer false) := by
    refine ⟨fun ref => ?_, fun ref hne => ?_⟩
    · rw [blobAnswer_find?, blobAnswer_find?]
      split <;> rfl
    · have hother : ref ≠ blobRef := hne
      rw [blobAnswer_find?, blobAnswer_find?, if_neg hother, if_neg hother]
  have hstores : (answering (blobAnswer true)).AgreeOutside {blobRef}
      (answering (blobAnswer false)) :=
    ⟨fun _ => .inr ⟨_, _, rfl, rfl, hagree⟩, rfl⟩
  exact (plan_discloses_nothing (p := openPlanner .zero) blobGate_denies
    hstores (fun _ _ => rfl) id ['s']).1

def emptyAnswer : Residency := ⟨[], by simp⟩

/-- Leaving it out does: the answers differ on a denied object only, and the
planner returns a plan for the one and refuses the other. -/
theorem omission_disclosed :
    blobGate.Denies {blobRef} ∧
      (∀ ref, ref ∉ ({blobRef} : Set Ref) →
        (blobAnswer false).find? ref = emptyAnswer.find? ref) ∧
      (gatedPlanner (answering (blobAnswer false))).plan (readBlob 3) id ['s']
          (blobManifest 3) ≠
        (gatedPlanner (answering emptyAnswer)).plan (readBlob 3) id ['s']
          (blobManifest 3) := by
  refine ⟨blobGate_denies, fun ref hne => ?_, ?_⟩
  · have hother : ref ≠ blobRef := hne
    rw [blobAnswer_find?, if_neg hother]
    rfl
  · have hplanned : ∃ plan,
        (gatedPlanner (answering (blobAnswer false))).plan (readBlob 3) id
          ['s'] (blobManifest 3) = .ok plan := by
      simp only [Planner.plan, Planner.planWith, gatedPlanner, openPlanner,
        blob_validated (by decide) small_admitted]
      exact ⟨_, rfl⟩
    have hrefused : (gatedPlanner (answering emptyAnswer)).plan (readBlob 3)
        id ['s'] (blobManifest 3) = .error (.incomplete 0 1) := by
      simp only [Planner.plan, Planner.planWith, gatedPlanner, openPlanner,
        blob_validated (by decide) small_admitted]
      rfl
    obtain ⟨plan, hplanned⟩ := hplanned
    rw [hplanned, hrefused]
    intro h
    cases h

end TensorFS.Go
