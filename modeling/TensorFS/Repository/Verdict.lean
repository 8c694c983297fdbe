import TensorFS.Data.Pool
import TensorFS.Repository.Promotable

namespace TensorFS.Go

open Data

/-! Confirming every destination: one inspection an object, by workers that run
side by side. -/

def defaultPromotionParallel : Int := 8

structure StoredObject where
  present : Bool
  sizeBytes : Int64
  checksum : Option Ref
  deriving DecidableEq

/-- What a store may answer about a key; it always answers something. -/
structure PromotionStore where
  answers : Text → Except Text StoredObject → Prop
  answered : ∀ key, ∃ answer, answers key answer

structure Promoter where
  store : Option PromotionStore
  objectPrefix : Text
  parallel : Int

inductive ObjectFault where
  | cancelled
  | inspection (reason : Text)
  | absent
  | absentAt (place : String)
  | size (place : String) (found expected : Int64)
  | noChecksum (place : String)
  | checksum (place : String) (found expected : Ref)
  deriving DecidableEq

structure PromotionResult where
  resident : Bool
  err : Option ObjectFault
  deriving DecidableEq

structure PromotionReport where
  objects : Nat
  resident : Nat
  checksumConfirmed : Nat
  failed : List Ref
  errors : List (Ref × ObjectFault)
  deriving DecidableEq

def PromotionReport.complete (r : PromotionReport) : Bool :=
  r.failed.length = 0 && r.checksumConfirmed = r.objects &&
    r.resident = r.objects

def requireStoredObject (state : StoredObject) (object : PlannedObject)
    (place : String) : Except ObjectFault Unit := do
  ensure (state.present = true) (.absentAt place)
  ensure (state.sizeBytes = object.object.sizeBytes)
    (.size place state.sizeBytes object.object.sizeBytes)
  match state.checksum with
  | none => .error (.noChecksum place)
  | some checksum =>
      ensure (checksum = object.object.digest)
        (.checksum place checksum object.object.digest)

/-- A worker's result once the store has been asked. -/
def promoteOne (object : PlannedObject) (answer : Except Text StoredObject) :
    PromotionResult :=
  match answer with
  | .error reason => ⟨false, some (.inspection reason)⟩
  | .ok state =>
      if state.present = false then ⟨false, some .absent⟩
      else
        match requireStoredObject state object "resident" with
        | .error fault => ⟨false, some fault⟩
        | .ok () => ⟨true, none⟩

/-- A worker's result when it finds the context cancelled. -/
def unasked : PromotionResult := ⟨false, some .cancelled⟩

def PromotionReport.add (report : PromotionReport) (object : PlannedObject)
    (result : PromotionResult) : PromotionReport :=
  match result.err with
  | some fault =>
      { report with
        failed := report.failed ++ [object.object.digest]
        errors := report.errors ++ [(object.object.digest, fault)] }
  | none =>
      if result.resident then
        { report with
          resident := report.resident + 1
          checksumConfirmed := report.checksumConfirmed + 1 }
      else report

def tally (objects : List PlannedObject)
    (result : Fin objects.length → PromotionResult) : PromotionReport :=
  (List.finRange objects.length).foldl
    (fun report index => report.add (objects.get index) (result index))
    ⟨objects.length, 0, 0, [], []⟩

abbrev PromotionPool (objects : List PlannedObject) : Type :=
  Pool objects.length (Except Text StoredObject) PromotionResult

/-- The results once the workers are done; what was never sent gets the
context's error. -/
def collected {objects : List PlannedObject} (s : PromotionPool objects)
    (index : Fin objects.length) : PromotionResult :=
  let result := (s.results index).getD ⟨false, none⟩
  if index < s.sent then result
  else { result with err := if s.cancelled then some .cancelled else none }

namespace Promoter

variable (p : Promoter) (objects : List PlannedObject)

def workers : Nat :=
  (min (if p.parallel ≤ 0 then defaultPromotionParallel else p.parallel)
    objects.length).toNat

/-- One step of the workers, the sender or the context. -/
def Step (store : PromotionStore) :
    PromotionPool objects → PromotionPool objects → Prop :=
  Pool.Step (fun index answer =>
      store.answers (objects.get index).uploadKey answer)
    (fun index answer => promoteOne (objects.get index) answer) unasked

/-- The calls a pool has made, by key. -/
def inspections {objects : List PlannedObject} (s : PromotionPool objects) :
    List (Text × Except Text StoredObject) :=
  s.log.map fun call => ((objects.get call.1).uploadKey, call.2)

/-- A promotion, with the store calls it made.  The context may be cancelled
from the start or at any step. -/
inductive Promotes (decode : Bytes → Option WireManifest) (p : Promoter)
    (plan : Plan) : List (Text × Except Text StoredObject) →
      Except PromotionFault PromotionReport → Prop where
  | noStore (hstore : p.store = none) :
      Promotes decode p plan [] (.error .storeRequired)
  | refused {store fault} (hstore : p.store = some store)
      (hplan : validatePromotionPlan decode plan
        (promotionPrefix p.objectPrefix plan) = .error fault) :
      Promotes decode p plan [] (.error fault)
  | empty {store} (hstore : p.store = some store)
      (hplan : validatePromotionPlan decode plan
        (promotionPrefix p.objectPrefix plan) = .ok []) :
      Promotes decode p plan [] (.ok ⟨0, 0, 0, [], []⟩)
  | ran {store objects cancelled final} (hstore : p.store = some store)
      (hplan : validatePromotionPlan decode plan
        (promotionPrefix p.objectPrefix plan) = .ok objects)
      (hobjects : objects ≠ [])
      (hrun : Relation.ReflTransGen (Step objects store)
        (.start (p.workers objects) cancelled) final)
      (hfinished : final.Finished) :
      Promotes decode p plan (inspections final)
        (.ok (tally objects (collected final)))

end Promoter

/-! The verdict on one object. -/

/-- A store's answer that settles an object. -/
def Confirms (state : StoredObject) (object : Object) : Prop :=
  state.present = true ∧ state.sizeBytes = object.sizeBytes ∧
    state.checksum = some object.digest

theorem requireStoredObject_eq_ok {state : StoredObject}
    {object : PlannedObject} {place : String} :
    requireStoredObject state object place = .ok () ↔
      Confirms state object.object := by
  simp only [requireStoredObject, except_bind_eq_ok, ensure_eq_ok,
    exists_unit, Confirms]
  cases state.checksum <;> simp

theorem promoteOne_ok {object : PlannedObject} {state : StoredObject}
    (h : Confirms state object.object) :
    promoteOne object (.ok state) = ⟨true, none⟩ := by
  simp only [promoteOne, h.1, Bool.true_eq_false, if_false,
    requireStoredObject_eq_ok.mpr h]

theorem promoteOne_err {object : PlannedObject}
    {answer : Except Text StoredObject} :
    (promoteOne object answer).err = none ↔
      ∃ state, answer = .ok state ∧ Confirms state object.object := by
  cases answer with
  | error reason => simp [promoteOne]
  | ok state =>
      have hiff := @requireStoredObject_eq_ok state object "resident"
      simp only [Except.ok.injEq, exists_eq_left']
      constructor
      · intro h
        unfold promoteOne at h
        split at h
        · cases h
        · rename_i hok
          cases hok
          split at h
          · cases h
          · split at h
            · cases h
            · rename_i hchecked
              exact hiff.mp hchecked
      · intro h
        rw [promoteOne_ok h]

theorem promoteOne_resident {object : PlannedObject}
    {answer : Except Text StoredObject}
    (h : (promoteOne object answer).err = none) :
    (promoteOne object answer).resident = true := by
  obtain ⟨state, rfl, hstate⟩ := promoteOne_err.mp h
  rw [promoteOne_ok hstate]

/-! The tally. -/

section Tally

variable {objects : List PlannedObject}
  {result : Fin objects.length → PromotionResult}

theorem tally_fold (indices : List (Fin objects.length))
    (report : PromotionReport)
    (hresident : ∀ index, (result index).err = none →
      (result index).resident = true) :
    let after := indices.foldl (fun report index =>
      report.add (objects.get index) (result index)) report
    after.objects = report.objects ∧
      after.failed = report.failed ++
        (indices.filter fun index => (result index).err.isSome).map
          (fun index => (objects.get index).object.digest) ∧
      after.resident = report.resident +
        indices.countP (fun index => (result index).err.isNone) ∧
      after.checksumConfirmed = report.checksumConfirmed +
        indices.countP (fun index => (result index).err.isNone) := by
  induction indices generalizing report with
  | nil => simp
  | cons index indices ih =>
      obtain ⟨hobjects, hfailed, hcount, hconfirmed⟩ :=
        ih (report.add (objects.get index) (result index))
      rw [List.foldl_cons]
      refine ⟨hobjects.trans ?_, hfailed.trans ?_, hcount.trans ?_,
        hconfirmed.trans ?_⟩ <;>
        unfold PromotionReport.add <;>
        cases herr : (result index).err with
        | none => simp [herr, hresident index herr, add_assoc, add_comm 1]
        | some fault => simp [herr]

theorem tally_spec (hresident : ∀ index, (result index).err = none →
      (result index).resident = true) :
    (tally objects result).objects = objects.length ∧
      (tally objects result).failed =
        ((List.finRange objects.length).filter fun index =>
          (result index).err.isSome).map
            (fun index => (objects.get index).object.digest) ∧
      (tally objects result).resident = (List.finRange objects.length).countP
        (fun index => (result index).err.isNone) ∧
      (tally objects result).checksumConfirmed =
        (List.finRange objects.length).countP
          (fun index => (result index).err.isNone) := by
  have h := tally_fold (List.finRange objects.length)
    ⟨objects.length, 0, 0, [], []⟩ hresident
  simp only [List.nil_append, zero_add] at h
  exact h

theorem tally_complete (hresident : ∀ index, (result index).err = none →
      (result index).resident = true) :
    (tally objects result).complete = true ↔
      ∀ index, (result index).err = none := by
  obtain ⟨hobjects, hfailed, hcount, hconfirmed⟩ := tally_spec hresident
  have hlength : (List.finRange objects.length).length = objects.length :=
    List.length_finRange
  simp only [PromotionReport.complete, hobjects, hfailed, hcount,
    hconfirmed, Bool.and_eq_true, decide_eq_true_eq, List.length_map,
    List.length_eq_zero_iff, List.filter_eq_nil_iff]
  constructor
  · intro h index
    simpa using h.1.1 index (List.mem_finRange index)
  · intro h
    have hall : (List.finRange objects.length).countP (fun index =>
        (result index).err.isNone) = objects.length := by
      refine (List.countP_eq_length.mpr ?_).trans hlength
      intro index _
      simp [h index]
    exact ⟨⟨fun index _ => by simp [h index], hall⟩, hall⟩

theorem mem_tally_failed (hresident : ∀ index, (result index).err = none →
      (result index).resident = true) {ref : Ref} :
    ref ∈ (tally objects result).failed ↔
      ∃ index, (result index).err ≠ none ∧
        (objects.get index).object.digest = ref := by
  obtain ⟨-, hfailed, -, -⟩ := tally_spec hresident
  simp only [hfailed, List.mem_map, List.mem_filter, List.mem_finRange,
    true_and, Option.isSome_iff_ne_none]

theorem get_inj (hnodup : (objects.map fun planned =>
      planned.object.digest).Nodup) {left right : Fin objects.length}
    (h : (objects.get left).object.digest =
      (objects.get right).object.digest) : left = right := by
  have hiff := @List.Nodup.getElem_inj_iff _ _ hnodup left (by simp) right
    (by simp)
  exact Fin.ext (hiff.mp (by simpa using h))

theorem tally_failed_nodup (hresident : ∀ index, (result index).err = none →
      (result index).resident = true)
    (hnodup : (objects.map fun planned => planned.object.digest).Nodup) :
    (tally objects result).failed.Nodup := by
  obtain ⟨-, hfailed, -, -⟩ := tally_spec hresident
  rw [hfailed]
  exact ((List.nodup_finRange _).filter _).map_on
    fun left _ right _ heq => get_inj hnodup heq

end Tally

/-! The end of a schedule. -/

section Schedule

variable {p : Promoter} {objects : List PlannedObject}
  {store : PromotionStore} {cancelled : Bool} {final : PromotionPool objects}

/-- What holds of every pool a promotion can get to. -/
theorem schedule_inv
    (hrun : Relation.ReflTransGen (Promoter.Step objects store)
      (.start (p.workers objects) cancelled) final) :
    Pool.Inv (fun index answer => promoteOne (objects.get index) answer)
      unasked final :=
  Pool.inv_run hrun (Pool.inv_start _ _)

theorem workers_pos (hobjects : objects ≠ []) : 0 < p.workers objects := by
  have hlength := List.length_pos_iff.mpr hobjects
  unfold Promoter.workers defaultPromotionParallel
  split <;> omega

theorem collected_err
    (hrun : Relation.ReflTransGen (Promoter.Step objects store)
      (.start (p.workers objects) cancelled) final)
    (hobjects : objects ≠ []) (hfinished : final.Finished)
    (index : Fin objects.length) :
    ((collected final index).err = none ↔
        ∃ state, (index, .ok state) ∈ final.log ∧
          Confirms state (objects.get index).object) ∧
      ((collected final index).err = none →
        (collected final index).resident = true) := by
  have hinv := schedule_inv hrun
  have hworkers : final.workers ≠ [] := by
    have hlength := Pool.workers_length_run hrun
    rw [Pool.start, List.length_replicate] at hlength
    have hpos : 0 < p.workers objects := workers_pos hobjects
    intro hnil
    rw [hnil, List.length_nil] at hlength
    omega
  obtain ⟨hstopped, hresults⟩ := hinv.finished hfinished hworkers
  have hlogged {state : StoredObject} (hmem : (index, .ok state) ∈ final.log)
      (hstate : Confirms state (objects.get index).object) :
      final.results index = some ⟨true, none⟩ := by
    rw [hinv.logged index _ hmem, promoteOne_ok hstate]
  by_cases hsent : index < final.sent
  · obtain ⟨result, hresult⟩ := hresults index hsent
    have hcollected : collected final index = result := by
      rw [collected, hresult, if_pos hsent]
      rfl
    rw [hcollected]
    rcases hinv.judged index result hresult with rfl | ⟨answer, hmem, rfl⟩
    · refine ⟨⟨nofun, ?_⟩, nofun⟩
      intro h
      obtain ⟨state, hmem, hstate⟩ := h
      rw [hlogged hmem hstate] at hresult
      cases hresult
    · refine ⟨⟨?_, ?_⟩, promoteOne_resident⟩
      · intro herr
        obtain ⟨state, rfl, hstate⟩ := promoteOne_err.mp herr
        exact ⟨state, hmem, hstate⟩
      · intro h
        obtain ⟨state, hother, hstate⟩ := h
        rw [hlogged hother hstate, Option.some.injEq] at hresult
        rw [← hresult]
  · have hunsent := hinv.unsent index (not_lt.mp hsent)
    have hcancelled : final.cancelled = true := by
      rcases hstopped with hall | hcancelled
      · exact absurd index.isLt (by omega)
      · exact hcancelled
    have hcollected : collected final index = ⟨false, some .cancelled⟩ := by
      rw [collected, hunsent, if_neg hsent, hcancelled]
      rfl
    rw [hcollected]
    refine ⟨⟨nofun, ?_⟩, nofun⟩
    intro h
    obtain ⟨state, hmem, hstate⟩ := h
    rw [hlogged hmem hstate] at hunsent
    cases hunsent

end Schedule

/-! Keys tell objects apart. -/

theorem Ref.hex_length {ref : Ref} (h : ref.hex ≠ []) :
    ref.hex.length = 64 := by
  rcases ref.hex_ok with hnil | ⟨digest, hhex⟩
  · exact absurd hnil h
  · have hpairs (bytes : Bytes) : (hexEncode bytes).length = 2 * bytes.length := by
      induction bytes with
      | nil => rfl
      | cons b bytes ih =>
          rw [hexEncode, List.flatMap_cons, List.length_append,
            List.length_cons]
          simp only [hexEncode] at ih
          rw [ih]
          simp
          omega
    rw [hhex, hpairs, digest.size]

/-- A key ends in the whole digest. -/
theorem uploadKey_suffix {objectPrefix key : Text} {ref : Ref}
    (h : uploadKey objectPrefix ref = .ok key) :
    ref.hex.length = 64 ∧ ∃ front, key = front ++ ref.hex := by
  simp only [uploadKey, Ref.objectKey, except_bind_eq_ok, ensure_eq_ok,
    exists_unit, Except.ok.injEq] at h
  obtain ⟨-, hhex, rfl⟩ := h
  exact ⟨Ref.hex_length hhex, _, List.append_cons _ _ _⟩

theorem uploadKey_injective {objectPrefix key : Text} {left right : Ref}
    (hleft : uploadKey objectPrefix left = .ok key)
    (hright : uploadKey objectPrefix right = .ok key) : left = right := by
  obtain ⟨hlength, front, rfl⟩ := uploadKey_suffix hleft
  obtain ⟨hother, back, heq⟩ := uploadKey_suffix hright
  have hhex := List.append_inj_right' heq (hlength.trans hother.symm)
  cases left
  cases right
  cases hhex
  rfl

/-! The verdict on a plan. -/

/-- The residents and grants are the declared objects, each once, with their
sizes and keys. -/
structure Lists (plan : Plan) (objectPrefix : Text) : Prop where
  nodup : (plan.haves ++ plan.pendingObjects.map fun planned =>
    planned.object.digest).Nodup
  declared : ∀ ref, (ref ∈ plan.haves ++ plan.pendingObjects.map fun planned =>
    planned.object.digest) ↔ ∃ object ∈ plan.manifest.objects,
      object.digest = ref
  sizes : ∀ planned ∈ plan.pendingObjects,
    planned.object ∈ plan.manifest.objects
  keys : ∀ planned ∈ plan.pendingObjects,
    uploadKey objectPrefix planned.object.digest = .ok planned.uploadKey

/-- The object was inspected at its recomputed key and found as declared. -/
def Confirmed (log : List (Text × Except Text StoredObject))
    (objectPrefix : Text) (object : Object) : Prop :=
  ∃ key state, uploadKey objectPrefix object.digest = .ok key ∧
    (key, .ok state) ∈ log ∧ Confirms state object

structure Verdict (plan : Plan) (objectPrefix : Text)
    (log : List (Text × Except Text StoredObject))
    (outcome : Except PromotionFault PromotionReport) : Prop where
  refused : ∀ fault, outcome = .error fault → log = []
  listed : ¬ Lists plan objectPrefix → ∃ fault, outcome = .error fault
  complete : ∀ report, outcome = .ok report → (report.complete = true ↔
    ∀ object ∈ plan.manifest.objects, Confirmed log objectPrefix object)
  failed : ∀ report, outcome = .ok report → report.failed.Nodup ∧
    ∀ ref, ref ∈ report.failed ↔ ∃ object ∈ plan.manifest.objects,
      object.digest = ref ∧ ¬ Confirmed log objectPrefix object

section Promotion

variable {decode : Bytes → Option WireManifest} {plan : Plan}
  {declared : List Object} {objectPrefix : Text}
  {objects : List PlannedObject}

theorem declared_distinct (hdecode : ReadsBack decode plan.manifest)
    (h : declaredObjects decode plan.manifest = .ok declared) :
    Distinct plan.manifest.objects declared := by
  obtain ⟨_, hvalidated, hfound⟩ := declaredObjects_eq_ok.mp h
  obtain ⟨-, -, -, rfl⟩ := (validateManifest_eq_ok hdecode).mp hvalidated
  have hnone : Distinct [] [] := ⟨List.nodup_nil, fun _ => Iff.rfl⟩
  have hdistinct := declareObjects_distinct hnone hfound
  refine ⟨hdistinct.nodup, fun object => (hdistinct.mem object).trans ?_⟩
  exact plan.manifest.sorted_objects_perm.mem_iff

theorem WorkList.digests_nodup (h : WorkList plan declared objectPrefix objects)
    (hdeclared : (declared.map Object.digest).Nodup) :
    (objects.map fun planned => planned.object.digest).Nodup :=
  ((perm_declared_iff hdeclared h.recomputed).mp h.all).1

theorem WorkList.mem_iff (h : WorkList plan declared objectPrefix objects)
    (hdistinct : Distinct plan.manifest.objects declared) {object : Object} :
    object ∈ plan.manifest.objects ↔
      ∃ index, (objects.get index).object = object := by
  rw [← hdistinct.mem, ← h.all.mem_iff, List.mem_map]
  constructor
  · intro hgiven
    obtain ⟨planned, hmem, heq⟩ := hgiven
    obtain ⟨index, rfl⟩ := List.mem_iff_get.mp hmem
    exact ⟨index, heq⟩
  · intro hgiven
    obtain ⟨index, heq⟩ := hgiven
    exact ⟨_, List.get_mem _ _, heq⟩

/-- Only a plan that lists the declared objects becomes a work list. -/
theorem WorkList.lists (h : WorkList plan declared objectPrefix objects)
    (hdistinct : Distinct plan.manifest.objects declared) :
    Lists plan objectPrefix := by
  obtain ⟨residents, hobjects, hhaves⟩ := h.listed
  have hdigests : objects.map (fun planned => planned.object.digest) =
      plan.haves ++ plan.pendingObjects.map fun planned =>
        planned.object.digest := by
    rw [hobjects, List.map_append, hhaves]
  have hpending : ∀ planned ∈ plan.pendingObjects,
      Recomputed declared objectPrefix planned := fun planned hmem =>
    h.recomputed planned (hobjects ▸ List.mem_append_right _ hmem)
  refine ⟨hdigests ▸ h.digests_nodup hdistinct.nodup, fun ref => ?_,
    fun planned hmem => (hdistinct.mem _).mp (hpending planned hmem).1,
    fun planned hmem => (hpending planned hmem).2⟩
  rw [← hdigests, List.mem_map]
  constructor
  · intro hgiven
    obtain ⟨planned, hmem, heq⟩ := hgiven
    exact ⟨planned.object, (hdistinct.mem _).mp (h.recomputed planned hmem).1,
      heq⟩
  · intro hgiven
    obtain ⟨object, hmem, heq⟩ := hgiven
    obtain ⟨index, rfl⟩ := (h.mem_iff hdistinct).mp hmem
    exact ⟨_, List.get_mem _ _, heq⟩

/-- The calls made for one object are the calls at its key. -/
theorem confirmed_iff (h : WorkList plan declared objectPrefix objects)
    (hdeclared : (declared.map Object.digest).Nodup)
    (final : PromotionPool objects) (index : Fin objects.length) :
    Confirmed (Promoter.inspections final) objectPrefix
        (objects.get index).object ↔
      ∃ state, (index, .ok state) ∈ final.log ∧
        Confirms state (objects.get index).object := by
  have hkey (other : Fin objects.length) := (h.recomputed _
    (List.get_mem objects other)).2
  constructor
  · intro hgiven
    obtain ⟨key, state, hown, hmem, hstate⟩ := hgiven
    obtain ⟨⟨other, answer⟩, hcall, heq⟩ := List.mem_map.mp hmem
    obtain ⟨hother, rfl⟩ := Prod.mk.inj heq
    have hdigest := uploadKey_injective (hother ▸ hkey other) hown
    have hindex := get_inj (h.digests_nodup hdeclared) hdigest
    exact ⟨state, hindex ▸ hcall, hstate⟩
  · intro hgiven
    obtain ⟨state, hcall, hstate⟩ := hgiven
    exact ⟨_, state, hkey index, List.mem_map_of_mem hcall, hstate⟩

/-- Nothing is called before a refusal. -/
theorem verdict_error (fault : PromotionFault) :
    Verdict plan objectPrefix [] (.error fault) :=
  ⟨fun _ _ => rfl, fun _ => ⟨fault, rfl⟩, nofun, nofun⟩

theorem verdict_tally (h : WorkList plan declared objectPrefix objects)
    (hdistinct : Distinct plan.manifest.objects declared)
    {final : PromotionPool objects}
    (herr : ∀ index, (collected final index).err = none ↔
      ∃ state, (index, .ok state) ∈ final.log ∧
        Confirms state (objects.get index).object)
    (hresident : ∀ index, (collected final index).err = none →
      (collected final index).resident = true) :
    Verdict plan objectPrefix (Promoter.inspections final)
      (.ok (tally objects (collected final))) := by
  have hconfirmed (index : Fin objects.length) :
      (collected final index).err = none ↔
        Confirmed (Promoter.inspections final) objectPrefix
          (objects.get index).object :=
    (herr index).trans (confirmed_iff h hdistinct.nodup final index).symm
  refine ⟨nofun, fun hnot => absurd (h.lists hdistinct) hnot, ?_, ?_⟩
  · intro report hreport
    rw [← Except.ok.inj hreport, tally_complete hresident]
    constructor
    · intro hall object hmem
      obtain ⟨index, rfl⟩ := (h.mem_iff hdistinct).mp hmem
      exact (hconfirmed index).mp (hall index)
    · intro hall index
      exact (hconfirmed index).mpr
        (hall _ ((h.mem_iff hdistinct).mpr ⟨index, rfl⟩))
  · intro report hreport
    rw [← Except.ok.inj hreport]
    refine ⟨tally_failed_nodup hresident (h.digests_nodup hdistinct.nodup),
      fun ref => ?_⟩
    rw [mem_tally_failed hresident]
    constructor
    · intro hgiven
      obtain ⟨index, hfailed, hdigest⟩ := hgiven
      exact ⟨_, (h.mem_iff hdistinct).mpr ⟨index, rfl⟩, hdigest,
        mt (hconfirmed index).mpr hfailed⟩
    · intro hgiven
      obtain ⟨object, hmem, hdigest, hunconfirmed⟩ := hgiven
      obtain ⟨index, rfl⟩ := (h.mem_iff hdistinct).mp hmem
      exact ⟨index, mt (hconfirmed index).mp hunconfirmed, hdigest⟩

theorem promotes_verdict {p : Promoter}
    {log : List (Text × Except Text StoredObject)}
    {outcome : Except PromotionFault PromotionReport}
    (hdecode : ReadsBack decode plan.manifest)
    (h : Promoter.Promotes decode p plan log outcome) :
    Verdict plan (promotionPrefix p.objectPrefix plan) log outcome := by
  cases h with
  | noStore hstore => exact verdict_error _
  | refused hstore hplan => exact verdict_error _
  | empty hstore hplan =>
      obtain ⟨-, declared, hdeclared, hlist⟩ :=
        validatePromotionPlan_eq_ok.mp hplan
      have hdistinct := declared_distinct hdecode hdeclared
      have hnone : Verdict plan (promotionPrefix p.objectPrefix plan)
          (Promoter.inspections (.start 0 false : PromotionPool []))
          (.ok (tally [] (collected (.start 0 false)))) :=
        verdict_tally hlist hdistinct nofun nofun
      exact hnone
  | ran hstore hplan hobjects hrun hfinished =>
      obtain ⟨-, declared, hdeclared, hlist⟩ :=
        validatePromotionPlan_eq_ok.mp hplan
      have hdistinct := declared_distinct hdecode hdeclared
      have hcollected := collected_err hrun hobjects hfinished
      exact verdict_tally hlist hdistinct
        (fun index => (hcollected index).1) fun index => (hcollected index).2

/-- No plan leaves its promotion without an outcome. -/
theorem promotes_exists (decode : Bytes → Option WireManifest) (p : Promoter)
    (plan : Plan) :
    ∃ log outcome, Promoter.Promotes decode p plan log outcome := by
  cases hstore : p.store with
  | none => exact ⟨_, _, .noStore hstore⟩
  | some store =>
      cases hplan : validatePromotionPlan decode plan
          (promotionPrefix p.objectPrefix plan) with
      | error fault => exact ⟨_, _, .refused hstore hplan⟩
      | ok objects =>
          by_cases hobjects : objects = []
          · exact ⟨_, _, .empty hstore (hobjects ▸ hplan)⟩
          · obtain ⟨final, hrun, hfinished⟩ : ∃ final,
                Relation.ReflTransGen (Promoter.Step objects store)
                  (.start (p.workers objects) false) final ∧
                final.Finished :=
              Pool.exists_finished
                (fun index => store.answered (objects.get index).uploadKey)
                (Pool.inv_start _ _)
            exact ⟨_, _, .ran hstore hplan hobjects hrun hfinished⟩

end Promotion

/-- Every promotion comes to an end, whatever its workers, its store and its
context do, and its verdict is exact. -/
theorem promotion_verdict {decode : Bytes → Option WireManifest}
    {p : Promoter} {plan : Plan} (hdecode : ReadsBack decode plan.manifest) :
    (∃ log outcome, Promoter.Promotes decode p plan log outcome) ∧
      (∀ store objects, WellFounded fun next s : PromotionPool objects =>
        Promoter.Step objects store s next) ∧
      (∀ store objects cancelled s, Relation.ReflTransGen
        (Promoter.Step objects store) (.start (p.workers objects) cancelled) s →
          s.Finished ∨ ∃ next, Promoter.Step objects store s next) ∧
      ∀ log outcome, Promoter.Promotes decode p plan log outcome →
        Verdict plan (promotionPrefix p.objectPrefix plan) log outcome := by
  refine ⟨promotes_exists decode p plan, fun store objects =>
    Pool.wellFounded_step, ?_, fun _ _ h => promotes_verdict hdecode h⟩
  intro store objects cancelled s hrun
  by_cases hfinished : s.Finished
  · exact .inl hfinished
  · exact .inr (Pool.progress
      (fun index => store.answered (objects.get index).uploadKey)
      (schedule_inv hrun) hfinished)

/-- A store that has everything it is asked for. -/
def fullStore : PromotionStore where
  answers _ answer :=
    answer = .ok ⟨true, 3, some (.ofDigest emptyBlobDigest)⟩
  answered _ := ⟨_, rfl⟩

def blobPlan : Plan :=
  ⟨['s'], blobManifest 3, [.ofDigest emptyBlobDigest], [], "objects".toList,
    1, 3, 1, 1, 1⟩

theorem promotion_verdict_blob :
    ∃ log outcome, Promoter.Promotes (readBlob 3) ⟨some fullStore, [], 2⟩
        blobPlan log outcome ∧
      Verdict blobPlan (promotionPrefix [] blobPlan) log outcome := by
  obtain ⟨⟨log, outcome, hpromotes⟩, -, -, hverdict⟩ :=
    @promotion_verdict (readBlob 3) ⟨some fullStore, [], 2⟩ blobPlan
      fun _ _ => rfl
  exact ⟨log, outcome, hpromotes, hverdict log outcome hpromotes⟩

end TensorFS.Go
