import TensorFS.Repository.Declaration

namespace TensorFS.Go

open Data

/-! Planning an upload: what a publisher may claim, and a grant for the rest. -/

/-- The scalar values trimmed off both ends of a text. -/
def isSpace (c : Char) : Bool :=
  c ∈ ['\t', '\n', '\x0b', '\x0c', '\r', ' ', '\u0085', '\u00a0', '\u1680',
    '\u2028', '\u2029', '\u202f', '\u205f', '\u3000'] ||
    ('\u2000' ≤ c && c ≤ '\u200a')

def trimSpace (text : Text) : Text :=
  (text.dropWhile isSpace).rdropWhile isSpace

def isSessionStart (c : Char) : Bool :=
  ('a' ≤ c && c ≤ 'z') || ('0' ≤ c && c ≤ '9')

/-- `^[a-z0-9][a-z0-9._-]{0,63}$`. -/
def sessionPattern : Text → Bool
  | [] => false
  | first :: rest =>
      isSessionStart first && rest.length ≤ 63 &&
        rest.all fun c => isSessionStart c || c ∈ ['.', '_', '-']

def defaultObjectPrefix : Text := "objects".toList

/-- Times and durations are nanoseconds. -/
def defaultGrantTTL : Int := 30 * 60 * 10 ^ 9

/-- The difference of two times saturates. -/
def timeSub (deadline now : Int) : Int :=
  max (-2 ^ 63) (min (2 ^ 63 - 1) (deadline - now))

structure PlannedObject where
  object : Object
  uploadKey : Text
  deriving DecidableEq

structure Grant where
  planned : PlannedObject
  url : Text
  headers : List (Text × Text)
  expiresAt : Int
  deriving DecidableEq

structure Plan where
  sessionID : Text
  manifest : Manifest
  haves : List Ref
  need : List Grant
  objectPrefix : Text
  declaredFiles : Nat
  declaredBytes : Int64
  distinctObjects : Nat
  examinedObjects : Nat
  residentObjects : Nat
  deriving DecidableEq

def Plan.pendingObjects (plan : Plan) : List PlannedObject :=
  plan.need.map Grant.planned

/-- A store's answer about the objects it was asked for. -/
structure Residency where
  entries : List (Ref × Bool)
  keys : (entries.map Prod.fst).Nodup

namespace Residency

def find? (answer : Residency) (ref : Ref) : Option Bool :=
  (findRow Prod.fst answer.entries ref).map Prod.snd

def resident (answer : Residency) (ref : Ref) : Bool :=
  (answer.find? ref).getD false

end Residency

structure Store where
  residency : List Object → Except Text Residency
  presignPut : Text → PlannedObject → Int →
    Except Text (Text × List (Text × Text))

def ClaimGate : Type := List Ref → Except Text (List Ref)

/-- The clock reads `now`, the planner's own or the machine's. -/
structure Planner where
  store : Option Store
  claims : Option ClaimGate
  limits : Limits
  objectPrefix : Text
  grantTTL : Int
  grantExpiry : Option (Int64 → Except Text Int)
  now : Int

inductive PlanFault where
  | storeRequired
  | declaration (fault : DeclarationFault)
  | sessionID
  | residency (reason : Text)
  | incomplete (answered asked : Nat)
  | unknown (digest : Ref)
  | claimGate (reason : Text)
  | claimed (digest : Ref)
  | expiry (reason : Text)
  | pastDeadline
  | key (fault : Ref.KeyFault)
  | grant (digest : Ref) (reason : Text)
  | emptyURL (digest : Ref)
  deriving DecidableEq

/-- The prefix a planner or a plan names, or else the default. -/
def effectivePrefix (objectPrefix otherwise : Text) : Text :=
  if trimSpace objectPrefix = [] then otherwise else trimSpace objectPrefix

def requireCompleteResidency (objects : List Object) (answer : Residency) :
    Except PlanFault Unit := do
  ensure (answer.entries.length = objects.length)
    (.incomplete answer.entries.length objects.length)
  checkAll (fun object => ensure ((answer.find? object.digest).isSome)
    (.unknown object.digest)) objects

/-- The final destination of an object, for the planner and the promoter. -/
def uploadKey (objectPrefix : Text) (ref : Ref) : Except Ref.KeyFault Text :=
  ref.objectKey objectPrefix

namespace Planner

variable (p : Planner)

/-- The resident objects the publisher is not shown. -/
def unclaimable (resident : Ref → Bool) (order : List Ref) :
    Except PlanFault (List Ref) :=
  match p.claims with
  | none => .ok []
  | some gate => do
      let denied ← (gate (order.filter resident)).mapError .claimGate
      checkAll (fun ref => ensure (resident ref) (.claimed ref)) denied
      .ok denied

/-- How long the grants live. -/
def lifetime (needBytes : Int64) : Except PlanFault Int :=
  let ttl := if p.grantTTL ≤ 0 then defaultGrantTTL else p.grantTTL
  match p.grantExpiry with
  | none => .ok ttl
  | some expiry =>
      if 0 < needBytes then do
        let deadline ← (expiry needBytes).mapError .expiry
        let ttl := timeSub deadline p.now
        ensure (0 < ttl) .pastDeadline
        .ok ttl
      else .ok ttl

def grantOne (store : Store) (sessionID objectPrefix : Text) (ttl : Int)
    (object : Object) : Except PlanFault Grant := do
  let key ← (uploadKey objectPrefix object.digest).mapError .key
  let planned : PlannedObject := ⟨object, key⟩
  let (url, headers) ←
    (store.presignPut sessionID planned ttl).mapError (.grant object.digest)
  ensure (trimSpace url ≠ []) (.emptyURL object.digest)
  .ok ⟨planned, url, headers, p.now + ttl⟩

/-- What is left once it is known which objects the publisher is shown. -/
def answer (store : Store) (sessionID : Text) (manifest : Manifest)
    (declaredBytes : Int64) (objects : List Object) (shown : Ref → Bool) :
    Except PlanFault Plan := do
  let objectPrefix := effectivePrefix p.objectPrefix defaultObjectPrefix
  let kept := (objects.map Object.digest).filter shown
  let pending := objects.filter fun object => ¬ shown object.digest
  let needBytes ← (pending.foldlM (fun total object =>
    checkedAdd total object.sizeBytes "missing object size") 0).mapError
      .declaration
  let ttl ← p.lifetime needBytes
  let need ← pending.mapM (p.grantOne store sessionID objectPrefix ttl)
  .ok {
    sessionID, manifest, need, objectPrefix, declaredBytes
    haves := kept.mergeSort fun left right => left.render ≤ right.render
    declaredFiles := manifest.files.length
    distinctObjects := objects.length
    examinedObjects := objects.length
    residentObjects := kept.length }

variable (decode : Bytes → Option WireManifest) (toLower : Text → Text)

def planWith (store : Store) (sessionID : Text) (manifest : Manifest) :
    Except PlanFault Plan := do
  let manifest ←
    (validateManifest decode manifest p.limits).mapError .declaration
  let sessionID := toLower (trimSpace sessionID)
  ensure (sessionPattern sessionID) .sessionID
  let (declaredBytes, objects) ← (walkFiles (fun total file =>
    checkedAdd total file.sizeBytes "declared repository size") 0 []
      manifest.files).mapError .declaration
  let answer ← (store.residency objects).mapError .residency
  requireCompleteResidency objects answer
  let unclaimable ←
    p.unclaimable answer.resident (objects.map Object.digest)
  p.answer store sessionID manifest declaredBytes objects fun ref =>
    answer.resident ref && ref ∉ unclaimable

/-- The objects a publisher holds are kept, the others granted. -/
def plan (sessionID : Text) (manifest : Manifest) : Except PlanFault Plan :=
  match p.store with
  | none => .error .storeRequired
  | some store => p.planWith decode toLower store sessionID manifest

end Planner

/-! What a returned plan says. -/

theorem grantOne_eq_ok {p : Planner} {store : Store}
    {sessionID objectPrefix : Text} {ttl : Int} {object : Object}
    {grant : Grant} (h : p.grantOne store sessionID objectPrefix ttl object =
      .ok grant) :
    grant.planned.object = object ∧
      uploadKey objectPrefix object.digest = .ok grant.planned.uploadKey := by
  simp only [Planner.grantOne, except_bind_eq_ok, mapError_eq_ok,
    ensure_eq_ok, exists_unit, Except.ok.injEq] at h
  obtain ⟨key, hkey, ⟨url, headers⟩, -, -, rfl⟩ := h
  exact ⟨rfl, hkey⟩

/-- A returned plan keeps what its publisher is shown and grants the rest, at
the final keys. -/
structure Plan.Splits (plan : Plan) (objects : List Object)
    (shown : Ref → Bool) : Prop where
  haves : plan.haves.Perm ((objects.map Object.digest).filter shown)
  need : plan.pendingObjects.map PlannedObject.object =
    objects.filter fun object => ¬ shown object.digest
  keys : ∀ planned ∈ plan.pendingObjects,
    uploadKey plan.objectPrefix planned.object.digest = .ok planned.uploadKey

/-- Residents and grants are the distinct objects between them. -/
theorem Plan.Splits.perm {plan : Plan} {objects : List Object}
    {shown : Ref → Bool} (h : plan.Splits objects shown) :
    (plan.haves ++ plan.pendingObjects.map fun planned =>
      planned.object.digest).Perm (objects.map Object.digest) := by
  have hneed : plan.pendingObjects.map (fun planned =>
      planned.object.digest) =
      (objects.map Object.digest).filter fun ref => !shown ref := by
    rw [List.filter_map]
    have hdigests := congrArg (List.map Object.digest) h.need
    rw [List.map_map] at hdigests
    simpa [Function.comp_def] using hdigests
  rw [hneed]
  exact (h.haves.append_right _).trans (List.filter_append_perm shown _)

theorem mapM_grantOne {p : Planner} {store : Store}
    {sessionID objectPrefix : Text} {ttl : Int} {objects : List Object}
    {need : List Grant}
    (h : objects.mapM (p.grantOne store sessionID objectPrefix ttl) =
      .ok need) :
    (need.map Grant.planned).map PlannedObject.object = objects ∧
      ∀ planned ∈ need.map Grant.planned,
        uploadKey objectPrefix planned.object.digest =
          .ok planned.uploadKey := by
  have hall := mapM_except_eq_ok h
  clear h
  induction hall with
  | nil => simp
  | cons hhead _ ih =>
      obtain ⟨hobject, hkey⟩ := grantOne_eq_ok hhead
      refine ⟨by rw [List.map_cons, List.map_cons, hobject, ih.1], ?_⟩
      rw [List.map_cons, List.forall_mem_cons]
      exact ⟨hobject ▸ hkey, ih.2⟩

theorem answer_splits {p : Planner} {store : Store} {sessionID : Text}
    {manifest : Manifest} {declaredBytes : Int64} {objects : List Object}
    {shown : Ref → Bool} {plan : Plan}
    (h : p.answer store sessionID manifest declaredBytes objects shown =
      .ok plan) :
    plan.Splits objects shown ∧ plan.manifest = manifest ∧
      plan.sessionID = sessionID ∧
      plan.objectPrefix =
        effectivePrefix p.objectPrefix defaultObjectPrefix := by
  simp only [Planner.answer, except_bind_eq_ok, Except.ok.injEq] at h
  obtain ⟨_, -, ttl, -, need, hneed, rfl⟩ := h
  obtain ⟨hobjects, hkeys⟩ := mapM_grantOne hneed
  exact ⟨⟨List.mergeSort_perm _ _, hobjects, hkeys⟩, rfl, rfl, rfl⟩

/-- The plan of a planner that returns one. -/
structure Planner.Returns (p : Planner) (manifest : Manifest)
    (plan : Plan) : Prop where
  session : sessionPattern plan.sessionID = true
  objectPrefix : plan.objectPrefix =
    effectivePrefix p.objectPrefix defaultObjectPrefix
  declared : plan.manifest = manifest
  splits : ∃ objects shown, Distinct manifest.objects objects ∧
    manifest.objects.foldlM declareObject [] = .ok objects ∧
    plan.Splits objects shown

variable {p : Planner} {decode : Bytes → Option WireManifest}
  {toLower : Text → Text}

theorem plan_returns {sessionID : Text} {manifest : Manifest} {plan : Plan}
    (h : p.plan decode toLower sessionID manifest = .ok plan) :
    ∃ validated, validateManifest decode manifest p.limits = .ok validated ∧
      p.Returns validated plan := by
  unfold Planner.plan at h
  split at h
  · cases h
  rename_i store _
  simp only [Planner.planWith, except_bind_eq_ok, mapError_eq_ok,
    ensure_eq_ok, exists_unit, Prod.exists] at h
  obtain ⟨validated, hvalidated, hsession, declaredBytes, objects,
    hwalk, answer, -, -, unclaimable, -, hanswer⟩ := h
  obtain ⟨hsplits, hmanifest, hid, hbegins⟩ := answer_splits hanswer
  exact ⟨validated, hvalidated, ⟨hid ▸ hsession, hbegins, hmanifest,
    objects, _, walkFiles_distinct hwalk, (walkFiles_eq_ok.mp hwalk).2,
    hsplits⟩⟩

end TensorFS.Go
