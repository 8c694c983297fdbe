import TensorFS.Repository.Promoter

namespace TensorFS.Go

open Data

/-! Which plans can be promoted. -/

theorem dropWhile_of_begins {p : Char → Bool} {front text : Text}
    (hbegins : front <+: text) (h : text.dropWhile p = text) :
    front.dropWhile p = front := by
  cases front with
  | nil => rfl
  | cons c front =>
      obtain ⟨rest, rfl⟩ := hbegins
      rw [List.cons_append, List.dropWhile_cons] at h
      rw [List.dropWhile_cons]
      split at h
      · have hlength := congrArg List.length h
        have hle := (List.dropWhile_suffix p (l := front ++ rest)).length_le
        rw [List.length_cons] at hlength
        omega
      · rename_i hp
        rw [if_neg hp]

theorem trimSpace_trimSpace (text : Text) :
    trimSpace (trimSpace text) = trimSpace text := by
  have htrimmed : (text.dropWhile isSpace).dropWhile isSpace =
      text.dropWhile isSpace := List.dropWhile_idempotent isSpace text
  unfold trimSpace
  rw [dropWhile_of_begins (List.rdropWhile_prefix _ _) htrimmed,
    List.rdropWhile_idempotent]

/-- A prefix taken once is taken as it is. -/
theorem effectivePrefix_effectivePrefix (text other : Text) :
    effectivePrefix (effectivePrefix text defaultObjectPrefix) other =
      effectivePrefix text defaultObjectPrefix := by
  have hdefault : trimSpace defaultObjectPrefix = defaultObjectPrefix := by
    decide
  have hkept : trimSpace (effectivePrefix text defaultObjectPrefix) =
      effectivePrefix text defaultObjectPrefix := by
    unfold effectivePrefix
    split
    · exact hdefault
    · exact trimSpace_trimSpace text
  have hne : effectivePrefix text defaultObjectPrefix ≠ [] := by
    unfold effectivePrefix
    split
    · decide
    · assumption
  rw [effectivePrefix, hkept, if_neg hne]

/-- A namespace that object keys can be made under. -/
def UsablePrefix (objectPrefix : Text) : Prop :=
  Ref.checkPrefix (Ref.trimSlashes objectPrefix) = .ok ()

theorem Ref.hex_eq_nil {ref : Ref} : ref.hex = [] ↔ ref = .zero := by
  cases ref
  simp [Ref.zero]

theorem uploadKey_ok_iff {objectPrefix : Text} {ref : Ref} :
    (∃ key, uploadKey objectPrefix ref = .ok key) ↔
      UsablePrefix objectPrefix ∧ ref ≠ .zero := by
  simp [uploadKey, Ref.objectKey, UsablePrefix, Ref.hex_eq_nil]

theorem mem_objects_valid {m : Manifest} (h : ∀ f ∈ m.files, f.Valid)
    {object : Object} (hmem : object ∈ m.objects) :
    object.digest ≠ .zero ∧ 0 ≤ object.sizeBytes.toInt := by
  obtain ⟨f, hf, hobject⟩ := List.mem_flatMap.mp hmem
  have hvalid := h f hf
  unfold File.objects at hobject
  split at hobject
  · rw [List.mem_singleton.mp hobject]
    exact ⟨hvalid.digest, hvalid.size⟩
  · obtain ⟨chunk, hchunk, rfl⟩ := List.mem_map.mp hobject
    obtain ⟨hdigest, hlength, -⟩ := hvalid.chunks chunk hchunk
    exact ⟨hdigest, hlength.le⟩

theorem objects_eq_nil_iff {m : Manifest} : m.objects = [] ↔ m.files = [] := by
  constructor
  · intro h
    cases hfiles : m.files with
    | nil => rfl
    | cons f files =>
        rw [Manifest.objects, hfiles, List.flatMap_cons,
          List.append_eq_nil_iff] at h
        have hnil := h.1
        unfold File.objects at hnil
        split at hnil
        · cases hnil
        · rename_i hne
          exact absurd (List.map_eq_nil_iff.mp hnil) hne
  · intro h
    rw [Manifest.objects, h]
    rfl

theorem readsBack_sorted {decode : Bytes → Option WireManifest}
    {m : Manifest} (h : ReadsBack decode m) : ReadsBack decode m.sorted := by
  intro bytes hbytes
  rw [Manifest.sorted_canonical] at hbytes
  rw [Manifest.sorted_sorted]
  exact h bytes hbytes

variable {p : Planner} {decode : Bytes → Option WireManifest}
  {toLower : Text → Text} {sessionID : Text} {manifest : Manifest}
  {plan : Plan}

/-- The promoter reads the declaration under the default limits. -/
theorem declaredObjects_sorted_ok (hdecode : ReadsBack decode manifest)
    {declared : List Object}
    (h : declaredObjects decode manifest.sorted = .ok declared) :
    Limits.zero.defaults.Admits manifest := by
  obtain ⟨_, hvalidated, -⟩ := declaredObjects_eq_ok.mp h
  obtain ⟨-, -, hadmits, -⟩ :=
    (validateManifest_eq_ok (readsBack_sorted hdecode)).mp hvalidated
  exact admits_sorted_iff.mp hadmits

/-- The residents and grants of a plan, at keys made under a usable prefix,
are the work list. -/
theorem workList_of_splits {objects : List Object} {shown : Ref → Bool}
    (hdistinct : (objects.map Object.digest).Nodup)
    (hsplits : plan.Splits objects shown)
    (hkeys : ∀ object ∈ objects,
      ∃ key, uploadKey plan.objectPrefix object.digest = .ok key) :
    ∃ listed, WorkList plan objects plan.objectPrefix listed := by
  have hresident : ∀ ref ∈ plan.haves, ∃ planned : PlannedObject,
      planned.object.digest = ref ∧
        Recomputed objects plan.objectPrefix planned := by
    intro ref hmem
    obtain ⟨object, hobject, rfl⟩ := List.mem_map.mp
      (List.mem_filter.mp (hsplits.haves.mem_iff.mp hmem)).1
    obtain ⟨key, hkey⟩ := hkeys object hobject
    exact ⟨⟨object, key⟩, rfl, hobject, hkey⟩
  obtain ⟨residents, hresidents⟩ := exists_forall₂_iff.mpr hresident
  obtain ⟨hhaves, hfirst⟩ := forall₂_digest.mp hresidents
  have hsecond : ∀ planned ∈ plan.pendingObjects,
      Recomputed objects plan.objectPrefix planned := by
    intro planned hmem
    have hobject := List.mem_map_of_mem (f := PlannedObject.object) hmem
    rw [hsplits.need] at hobject
    exact ⟨(List.mem_filter.mp hobject).1, hsplits.keys planned hmem⟩
  have hboth : ∀ planned ∈ residents ++ plan.pendingObjects,
      Recomputed objects plan.objectPrefix planned :=
    List.forall_mem_append.mpr ⟨hfirst, hsecond⟩
  have hperm := hsplits.perm
  rw [← hhaves, ← List.map_append] at hperm
  refine ⟨residents ++ plan.pendingObjects, ⟨residents, rfl, hhaves⟩, hboth,
    (perm_declared_iff hdistinct hboth).mpr ⟨hperm.nodup_iff.mpr hdistinct, ?_⟩⟩
  simpa using hperm.length_eq

/-- A plan passes the promoter's checks when its declaration is within the
default limits and, if it declares anything, its prefix can be used.  A planner
with larger limits, or with nothing to grant, does not ask. -/
theorem promotable_iff (hdecode : ReadsBack decode manifest)
    (hplan : p.plan decode toLower sessionID manifest = .ok plan)
    (objectPrefix : Text) :
    (∃ objects, validatePromotionPlan decode plan
        (promotionPrefix objectPrefix plan) = .ok objects) ↔
      Limits.zero.defaults.Admits manifest ∧
        (manifest.files = [] ∨
          UsablePrefix (effectivePrefix p.objectPrefix defaultObjectPrefix)) := by
  obtain ⟨validated, hvalidated, hreturns⟩ := plan_returns hplan
  obtain ⟨⟨bytes, hbytes⟩, _, _, rfl⟩ :=
    (validateManifest_eq_ok hdecode).mp hvalidated
  obtain ⟨objects, shown, hdistinct, hfold, hsplits⟩ := hreturns.splits
  have hbegins : promotionPrefix objectPrefix plan = plan.objectPrefix := by
    rw [promotionPrefix, hreturns.objectPrefix,
      effectivePrefix_effectivePrefix]
  have hvalid : ∀ f ∈ manifest.sorted.files, f.Valid := fun f hmem =>
    (Manifest.canonical_eq_ok.mp hbytes).2.2.1 f
      (manifest.sorted_perm.mem_iff.mp hmem)
  have hdeclared (declared : List Object) :
      declaredObjects decode plan.manifest = .ok declared ↔
        Limits.zero.defaults.Admits manifest ∧ declared = objects := by
    have hvalidate (other : Manifest) :=
      @validateManifest_eq_ok decode manifest.sorted other .zero
        (readsBack_sorted hdecode)
    simp only [declaredObjects_eq_ok, hreturns.declared, hvalidate,
      Manifest.sorted_canonical, Manifest.sorted_sorted, admits_sorted_iff]
    constructor
    · intro h
      obtain ⟨_, ⟨-, -, hadmits, rfl⟩, hfound⟩ := h
      rw [hfold, Except.ok.injEq] at hfound
      exact ⟨hadmits, hfound.symm⟩
    · intro h
      obtain ⟨hadmits, heq⟩ := h
      exact ⟨_, ⟨⟨bytes, hbytes⟩, ⟨objects, hfold⟩, hadmits, rfl⟩, heq ▸ hfold⟩
  rw [hbegins, ← hreturns.objectPrefix]
  simp only [validatePromotionPlan_eq_ok, hreturns.session, true_and,
    hdeclared]
  constructor
  · intro h
    obtain ⟨listed, _, ⟨hadmits, rfl⟩, hlist⟩ := h
    refine ⟨hadmits, ?_⟩
    by_cases hfiles : manifest.files = []
    · exact .inl hfiles
    · have hobjects : manifest.sorted.objects ≠ [] := fun hnil =>
        hfiles (List.perm_nil.mp
          (objects_eq_nil_iff.mp hnil ▸ manifest.sorted_perm.symm))
      obtain ⟨object, hobject⟩ := List.exists_mem_of_ne_nil _ hobjects
      obtain ⟨planned, hplanned, -⟩ := List.mem_map.mp
        (hlist.all.mem_iff.mpr ((hdistinct.mem object).mpr hobject))
      exact .inr (uploadKey_ok_iff.mp
        ⟨_, (hlist.recomputed planned hplanned).2⟩).1
  · intro h
    obtain ⟨hadmits, husable⟩ := h
    have hkeys : ∀ object ∈ objects,
        ∃ key, uploadKey plan.objectPrefix object.digest = .ok key := by
      intro object hmem
      have hobject := (hdistinct.mem object).mp hmem
      rcases husable with hnone | husable
      · have hempty : manifest.sorted.files = [] :=
          List.perm_nil.mp (hnone ▸ manifest.sorted_perm)
        rw [objects_eq_nil_iff.mpr hempty] at hobject
        cases hobject
      · exact uploadKey_ok_iff.mpr
          ⟨husable, (mem_objects_valid hvalid hobject).1⟩
    obtain ⟨listed, hlisted⟩ :=
      workList_of_splits hdistinct.nodup hsplits hkeys
    exact ⟨listed, objects, ⟨hadmits, rfl⟩, hlisted⟩

/-! A single object of any size, planned under any limits. -/

def blobManifest (sizeBytes : Int64) : Manifest :=
  ⟨formatV1, [⟨['w'], sizeBytes, .ofDigest emptyBlobDigest, []⟩], none⟩

/-- A store that holds nothing and signs everything. -/
def emptyStore : Store where
  residency _ := .ok ⟨[(.ofDigest emptyBlobDigest, false)], by simp⟩
  presignPut _ _ _ := .ok ("https://store".toList, [])

def openPlanner (limits : Limits) : Planner :=
  ⟨some emptyStore, none, limits, [], 0, none, 0⟩

def readBlob (sizeBytes : Int64) (_ : Bytes) : Option WireManifest :=
  some (blobManifest sizeBytes).sorted.wire

theorem blob_canonical {sizeBytes : Int64} (h : 0 ≤ sizeBytes.toInt) :
    ∃ bytes, (blobManifest sizeBytes).canonical = .ok bytes := by
  have hpath : PortablePath ['w'] :=
    ⟨by simp, by simp, by simp, by simp, by decide⟩
  refine ⟨_, Manifest.canonical_eq_ok.mpr ⟨rfl, nofun, ?_, ?_, rfl⟩⟩
  · intro f hmem
    rw [List.mem_singleton.mp hmem]
    exact ⟨hpath, Ref.ofDigest_ne_zero _, h, nofun, fun hne => absurd rfl hne, nofun⟩
  · exact List.nodup_singleton _

theorem blob_sorted (sizeBytes : Int64) :
    (blobManifest sizeBytes).sorted = blobManifest sizeBytes := by
  rw [Manifest.sorted, blobManifest,
    Manifest.sortFiles_of_pairwise (List.pairwise_singleton _ _)]

theorem blob_validated {sizeBytes : Int64} {limits : Limits}
    (h : 0 ≤ sizeBytes.toInt)
    (hadmits : limits.defaults.Admits (blobManifest sizeBytes)) :
    validateManifest (readBlob sizeBytes) (blobManifest sizeBytes) limits =
      .ok (blobManifest sizeBytes) := by
  have hdecode : ReadsBack (readBlob sizeBytes) (blobManifest sizeBytes) :=
    fun _ _ => rfl
  rw [validateManifest_eq_ok hdecode, blob_sorted]
  exact ⟨blob_canonical h, ⟨_, rfl⟩, hadmits, rfl⟩

theorem small_admitted : Limits.zero.defaults.Admits (blobManifest 3) :=
  ⟨by decide, by decide, by decide, by decide⟩

/-- Three bytes are planned and promoted. -/
theorem promotable_iff_small :
    ∃ plan, (openPlanner .zero).plan (readBlob 3) id ['s'] (blobManifest 3) =
        .ok plan ∧
      ∃ objects, validatePromotionPlan (readBlob 3) plan
        (promotionPrefix [] plan) = .ok objects := by
  have hplan : ∃ plan, (openPlanner .zero).plan (readBlob 3) id ['s']
      (blobManifest 3) = .ok plan := by
    simp only [Planner.plan, Planner.planWith, openPlanner,
      blob_validated (by decide) small_admitted]
    exact ⟨_, rfl⟩
  obtain ⟨plan, hplan⟩ := hplan
  exact ⟨plan, hplan, (promotable_iff (fun _ _ => rfl) hplan []).mpr
    ⟨small_admitted, .inr rfl⟩⟩

/-- 513 GiB, within a planner's larger limits and past the default ones. -/
def largeBytes : Int64 := Int64.ofNat (513 * 2 ^ 30)

def largeLimits : Limits := ⟨0, 0, Int64.ofNat (2 ^ 50), 0⟩

theorem large_admitted : largeLimits.defaults.Admits (blobManifest largeBytes) :=
  ⟨by decide, by decide, by decide, by decide⟩

/-- The upload is granted, and its promotion refused under every prefix. -/
theorem planned_not_promotable :
    ∃ plan, (openPlanner largeLimits).plan (readBlob largeBytes) id ['s']
        (blobManifest largeBytes) = .ok plan ∧
      ∀ objectPrefix objects, validatePromotionPlan (readBlob largeBytes) plan
        (promotionPrefix objectPrefix plan) ≠ .ok objects := by
  have hplan : ∃ plan, (openPlanner largeLimits).plan (readBlob largeBytes) id
      ['s'] (blobManifest largeBytes) = .ok plan := by
    simp only [Planner.plan, Planner.planWith, openPlanner,
      blob_validated (by decide) large_admitted]
    exact ⟨_, rfl⟩
  obtain ⟨plan, hplan⟩ := hplan
  refine ⟨plan, hplan, fun objectPrefix objects h => ?_⟩
  have hdecode : ReadsBack (readBlob largeBytes) (blobManifest largeBytes) :=
    fun _ _ => rfl
  obtain ⟨validated, hvalidated, hreturns⟩ := plan_returns hplan
  obtain ⟨-, -, -, rfl⟩ := (validateManifest_eq_ok hdecode).mp hvalidated
  obtain ⟨-, declared, hdeclared, -⟩ := validatePromotionPlan_eq_ok.mp h
  rw [hreturns.declared] at hdeclared
  have hadmits := declaredObjects_sorted_ok hdecode hdeclared
  exact absurd (hadmits.fileBytes _ List.mem_cons_self) (by decide)

end TensorFS.Go
