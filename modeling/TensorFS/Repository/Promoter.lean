import TensorFS.Repository.Planner

namespace TensorFS.Go

open Data

/-! Confirming an upload: the plan a client hands back is turned into a work
list that trusts none of it. -/

inductive PromotionFault where
  | storeRequired
  | sessionID
  | manifest (fault : DeclarationFault)
  | undeclaredResident (digest : Ref)
  | undeclaredGrant (digest : Ref)
  | grantSize (digest : Ref) (granted declared : Int64)
  | key (fault : Ref.KeyFault)
  | grantKey (key expected : Text)
  | repeated (digest : Ref)
  | partition (listed declared : Nat)
  deriving DecidableEq

/-- One more entry of the work list, at the key recomputed for it. -/
def addObject (objectPrefix : Text) (objects : List PlannedObject) (ref : Ref)
    (size : Int64) : Except PromotionFault (List PlannedObject) := do
  ensure (ref ∉ objects.map fun planned => planned.object.digest)
    (.repeated ref)
  let key ← (uploadKey objectPrefix ref).mapError .key
  .ok (objects ++ [⟨⟨ref, size⟩, key⟩])

def addResident (declared : List Object) (objectPrefix : Text)
    (objects : List PlannedObject) (ref : Ref) :
    Except PromotionFault (List PlannedObject) :=
  match findRow Object.digest declared ref with
  | none => .error (.undeclaredResident ref)
  | some found => addObject objectPrefix objects ref found.sizeBytes

def addGranted (declared : List Object) (objectPrefix : Text)
    (objects : List PlannedObject) (planned : PlannedObject) :
    Except PromotionFault (List PlannedObject) :=
  match findRow Object.digest declared planned.object.digest with
  | none => .error (.undeclaredGrant planned.object.digest)
  | some found => do
      ensure (found.sizeBytes = planned.object.sizeBytes)
        (.grantSize planned.object.digest planned.object.sizeBytes
          found.sizeBytes)
      let expected ←
        (uploadKey objectPrefix planned.object.digest).mapError .key
      ensure (planned.uploadKey = expected)
        (.grantKey planned.uploadKey expected)
      addObject objectPrefix objects planned.object.digest found.sizeBytes

section

variable (decode : Bytes → Option WireManifest)

/-- The declaration is held to the default limits, whatever it was planned
under. -/
def declaredObjects (manifest : Manifest) :
    Except DeclarationFault (List Object) := do
  let validated ← validateManifest decode manifest .zero
  let (_, objects) ← walkFiles (fun total _ => .ok total) 0 [] validated.files
  .ok objects

def validatePromotionPlan (plan : Plan) (objectPrefix : Text) :
    Except PromotionFault (List PlannedObject) := do
  ensure (sessionPattern plan.sessionID) .sessionID
  let declared ← (declaredObjects decode plan.manifest).mapError .manifest
  let objects ← plan.haves.foldlM (addResident declared objectPrefix) []
  let objects ←
    plan.pendingObjects.foldlM (addGranted declared objectPrefix) objects
  ensure (objects.length = declared.length)
    (.partition objects.length declared.length)
  .ok objects

end

/-- The plan's own namespace wins over the promoter's. -/
def promotionPrefix (objectPrefix : Text) (plan : Plan) : Text :=
  effectivePrefix plan.objectPrefix
    (if objectPrefix = [] then defaultObjectPrefix else objectPrefix)

/-! What the work list holds. -/

/-- A declared object at its recomputed key. -/
def Recomputed (declared : List Object) (objectPrefix : Text)
    (planned : PlannedObject) : Prop :=
  planned.object ∈ declared ∧
    uploadKey objectPrefix planned.object.digest = .ok planned.uploadKey

section

variable {declared : List Object} {objectPrefix : Text}
  {objects next : List PlannedObject}

theorem addObject_eq_ok {ref : Ref} {size : Int64} :
    addObject objectPrefix objects ref size = .ok next ↔
      ref ∉ objects.map (fun planned => planned.object.digest) ∧
        ∃ key, uploadKey objectPrefix ref = .ok key ∧
          next = objects ++ [⟨⟨ref, size⟩, key⟩] := by
  simp only [addObject, except_bind_eq_ok, ensure_eq_ok, exists_unit,
    mapError_eq_ok, Except.ok.injEq, eq_comm (a := next)]

theorem findRow_declared (hdeclared : (declared.map Object.digest).Nodup)
    {object : Object} (h : object ∈ declared) :
    findRow Object.digest declared object.digest = some object :=
  (findRow_eq_some hdeclared).mpr ⟨h, rfl⟩

/-- A step that appends one entry, under a digest not listed yet. -/
def Adds {α : Type} (reads : α → PlannedObject → Prop)
    (add : List PlannedObject → α →
      Except PromotionFault (List PlannedObject)) : Prop :=
  ∀ objects x next, add objects x = .ok next ↔
    ∃ planned, reads x planned ∧
      planned.object.digest ∉
        objects.map (fun planned => planned.object.digest) ∧
      next = objects ++ [planned]

theorem addResident_adds (hdeclared : (declared.map Object.digest).Nodup) :
    Adds (fun ref planned => planned.object.digest = ref ∧
        Recomputed declared objectPrefix planned)
      (addResident declared objectPrefix) := by
  intro objects ref next
  constructor
  · intro h
    unfold addResident at h
    split at h
    · cases h
    · rename_i found hfind
      obtain ⟨hmem, rfl⟩ := findRow_mem hfind
      obtain ⟨hfresh, key, hkey, hnext⟩ := addObject_eq_ok.mp h
      exact ⟨⟨found, key⟩, ⟨rfl, hmem, hkey⟩, hfresh, hnext⟩
  · intro h
    obtain ⟨planned, ⟨rfl, hmem, hkey⟩, hfresh, hnext⟩ := h
    unfold addResident
    rw [findRow_declared hdeclared hmem]
    exact addObject_eq_ok.mpr ⟨hfresh, planned.uploadKey, hkey, hnext⟩

theorem addGranted_adds (hdeclared : (declared.map Object.digest).Nodup) :
    Adds (fun granted planned => planned = granted ∧
        Recomputed declared objectPrefix planned)
      (addGranted declared objectPrefix) := by
  intro objects granted next
  constructor
  · intro h
    unfold addGranted at h
    split at h
    · cases h
    · rename_i found hfind
      obtain ⟨hmem, hdigest⟩ := findRow_mem hfind
      simp only [except_bind_eq_ok, ensure_eq_ok, exists_unit,
        mapError_eq_ok, addObject_eq_ok] at h
      obtain ⟨hsize, expected, hexpected, hgranted, hfresh, key, hkey,
        hnext⟩ := h
      have hobject : found = granted.object := by
        cases found
        cases hdigest
        cases hsize
        rfl
      rw [← hgranted] at hexpected
      rw [hexpected, Except.ok.injEq] at hkey
      refine ⟨granted, ⟨rfl, hobject ▸ hmem, hexpected⟩, hfresh, ?_⟩
      rw [hnext, hsize, ← hkey]
  · intro h
    obtain ⟨planned, ⟨rfl, hmem, hkey⟩, hfresh, hnext⟩ := h
    unfold addGranted
    rw [findRow_declared hdeclared hmem]
    simp only [except_bind_eq_ok, ensure_eq_ok, exists_unit, mapError_eq_ok,
      addObject_eq_ok]
    exact ⟨trivial, planned.uploadKey, hkey, rfl, hfresh, planned.uploadKey, hkey,
      hnext⟩

/-- Adding one entry after the other keeps their digests apart. -/
theorem Adds.foldlM_eq_ok {α : Type} {reads : α → PlannedObject → Prop}
    {add : List PlannedObject → α →
      Except PromotionFault (List PlannedObject)}
    (hadd : Adds reads add) {xs : List α}
    (hnodup : (objects.map fun planned => planned.object.digest).Nodup) :
    xs.foldlM add objects = .ok next ↔
      ∃ added, List.Forall₂ reads xs added ∧ next = objects ++ added ∧
        (next.map fun planned => planned.object.digest).Nodup := by
  induction xs generalizing objects with
  | nil =>
      show Except.ok objects = Except.ok next ↔ _
      simp only [Except.ok.injEq, List.forall₂_nil_left_iff, exists_eq_left,
        List.append_nil]
      constructor
      · rintro rfl
        exact ⟨rfl, hnodup⟩
      · intro h
        exact h.1.symm
  | cons x xs ih =>
      simp only [List.foldlM_cons, except_bind_eq_ok, hadd _ _ _]
      constructor
      · intro h
        obtain ⟨_, ⟨planned, hreads, hfresh, rfl⟩, hfold⟩ := h
        have hnext : ((objects ++ [planned]).map fun planned =>
            planned.object.digest).Nodup :=
          nodup_append_key hnodup fun other hother heq =>
            hfresh (heq ▸ List.mem_map_of_mem hother)
        obtain ⟨added, hadded, rfl, hall⟩ := (ih hnext).mp hfold
        exact ⟨planned :: added, .cons hreads hadded, by simp, hall⟩
      · intro h
        obtain ⟨_, hadded, rfl, hall⟩ := h
        cases hadded with
        | @cons _ planned _ added hreads hadded =>
            have hsplit : objects ++ planned :: added =
                (objects ++ [planned]) ++ added := by simp
            have hnext := hall
            rw [hsplit, List.map_append] at hnext
            have hnext := hnext.of_append_left
            refine ⟨objects ++ [planned], ⟨planned, hreads, ?_, rfl⟩,
              (ih hnext).mpr ⟨added, hadded, hsplit, hall⟩⟩
            rw [List.map_append, List.nodup_append] at hnext
            intro hmem
            exact hnext.2.2 _ hmem _ (by simp) rfl

/-- The plan's residents and grants as one list, at their recomputed keys. -/
structure WorkList (plan : Plan) (declared : List Object)
    (objectPrefix : Text) (objects : List PlannedObject) : Prop where
  listed : ∃ residents, objects = residents ++ plan.pendingObjects ∧
    residents.map (fun planned => planned.object.digest) = plan.haves
  recomputed : ∀ planned ∈ objects,
    Recomputed declared objectPrefix planned
  all : (objects.map PlannedObject.object).Perm declared

theorem forall₂_digest {refs : List Ref} {added : List PlannedObject} :
    List.Forall₂ (fun ref planned => planned.object.digest = ref ∧
        Recomputed declared objectPrefix planned) refs added ↔
      added.map (fun planned => planned.object.digest) = refs ∧
        ∀ planned ∈ added, Recomputed declared objectPrefix planned := by
  induction added generalizing refs with
  | nil => cases refs <;> simp
  | cons planned added ih =>
      cases refs with
      | nil => simp
      | cons ref refs =>
          rw [List.forall₂_cons, ih, List.map_cons, List.cons.injEq,
            List.forall_mem_cons]
          tauto

theorem forall₂_granted {granted added : List PlannedObject} :
    List.Forall₂ (fun planned other => other = planned ∧
        Recomputed declared objectPrefix other) granted added ↔
      added = granted ∧
        ∀ planned ∈ added, Recomputed declared objectPrefix planned := by
  induction added generalizing granted with
  | nil => cases granted <;> simp
  | cons planned added ih =>
      cases granted with
      | nil => simp
      | cons head granted =>
          rw [List.forall₂_cons, ih, List.cons.injEq, List.forall_mem_cons]
          tauto

theorem addResidents_eq_ok (hdeclared : (declared.map Object.digest).Nodup)
    {refs : List Ref} :
    refs.foldlM (addResident declared objectPrefix) [] = .ok next ↔
      next.map (fun planned => planned.object.digest) = refs ∧
        (∀ planned ∈ next, Recomputed declared objectPrefix planned) ∧
        (next.map fun planned => planned.object.digest).Nodup := by
  have hnone : (([] : List PlannedObject).map fun planned =>
      planned.object.digest).Nodup := List.nodup_nil
  rw [(addResident_adds hdeclared).foldlM_eq_ok hnone]
  simp only [forall₂_digest, List.nil_append, and_assoc]
  constructor
  · intro h
    obtain ⟨_, hrefs, hrecomputed, rfl, hnodup⟩ := h
    exact ⟨hrefs, hrecomputed, hnodup⟩
  · intro h
    obtain ⟨hrefs, hrecomputed, hnodup⟩ := h
    exact ⟨next, hrefs, hrecomputed, rfl, hnodup⟩

theorem addGrants_eq_ok (hdeclared : (declared.map Object.digest).Nodup)
    (hnodup : (objects.map fun planned => planned.object.digest).Nodup)
    {granted : List PlannedObject} :
    granted.foldlM (addGranted declared objectPrefix) objects = .ok next ↔
      (∀ planned ∈ granted, Recomputed declared objectPrefix planned) ∧
        next = objects ++ granted ∧
        (next.map fun planned => planned.object.digest).Nodup := by
  rw [(addGranted_adds hdeclared).foldlM_eq_ok hnodup]
  simp only [forall₂_granted, and_assoc, exists_eq_left]

/-- A list that keeps its digests apart and leaves no declared object out. -/
theorem perm_declared_iff (hdeclared : (declared.map Object.digest).Nodup)
    (h : ∀ planned ∈ objects, Recomputed declared objectPrefix planned) :
    (objects.map PlannedObject.object).Perm declared ↔
      (objects.map fun planned => planned.object.digest).Nodup ∧
        objects.length = declared.length := by
  have hmap : objects.map (fun planned => planned.object.digest) =
      (objects.map PlannedObject.object).map Object.digest := by
    rw [List.map_map]
    rfl
  rw [hmap]
  constructor
  · intro hperm
    rw [(hperm.map Object.digest).nodup_iff, ← hperm.length_eq,
      List.length_map]
    exact ⟨hdeclared, rfl⟩
  · intro hgiven
    obtain ⟨hnodup, hlength⟩ := hgiven
    have hsubset : objects.map PlannedObject.object ⊆ declared := by
      intro object hmem
      obtain ⟨planned, hplanned, rfl⟩ := List.mem_map.mp hmem
      exact (h planned hplanned).1
    have hsubperm := List.subperm_of_subset hnodup.of_map hsubset
    exact hsubperm.perm_of_length_le (by rw [List.length_map, hlength])

variable {decode : Bytes → Option WireManifest} {plan : Plan}

theorem declaredObjects_eq_ok {manifest : Manifest} :
    declaredObjects decode manifest = .ok declared ↔
      ∃ validated, validateManifest decode manifest .zero = .ok validated ∧
        validated.objects.foldlM declareObject [] = .ok declared := by
  have hfold (files : List File) (total : Int64) :
      files.foldlM (fun total _ =>
        (.ok total : Except DeclarationFault Int64)) total = .ok total := by
    induction files with
    | nil => rfl
    | cons file files ih => exact ih
  simp only [declaredObjects, except_bind_eq_ok, Prod.exists,
    walkFiles_eq_ok, hfold, Except.ok.injEq, Manifest.objects]
  constructor
  · intro h
    obtain ⟨validated, hvalidated, _, found, ⟨-, hfound⟩, rfl⟩ := h
    exact ⟨validated, hvalidated, hfound⟩
  · intro h
    obtain ⟨validated, hvalidated, hfound⟩ := h
    exact ⟨validated, hvalidated, _, declared, ⟨rfl, hfound⟩, rfl⟩

/-- A plan becomes a work list when its residents and grants are the declared
objects, each once and with its own size and key. -/
theorem validatePromotionPlan_eq_ok :
    validatePromotionPlan decode plan objectPrefix = .ok objects ↔
      sessionPattern plan.sessionID = true ∧
        ∃ declared, declaredObjects decode plan.manifest = .ok declared ∧
          WorkList plan declared objectPrefix objects := by
  simp only [validatePromotionPlan, except_bind_eq_ok, ensure_eq_ok,
    exists_unit, mapError_eq_ok, Except.ok.injEq]
  refine and_congr_right fun _ => exists_congr fun declared =>
    and_congr_right fun hdeclared => ?_
  obtain ⟨validated, -, hfound⟩ := declaredObjects_eq_ok.mp hdeclared
  have hnone : Distinct [] [] := ⟨List.nodup_nil, fun _ => Iff.rfl⟩
  have hnodup := (declareObjects_distinct hnone hfound).nodup
  constructor
  · intro h
    obtain ⟨residents, hresidents, last, hgrants, hlength, rfl⟩ := h
    obtain ⟨hhaves, hfirst, hapart⟩ :=
      (addResidents_eq_ok hnodup).mp hresidents
    obtain ⟨hsecond, rfl, hall⟩ := (addGrants_eq_ok hnodup hapart).mp hgrants
    have hboth : ∀ planned ∈ residents ++ plan.pendingObjects,
        Recomputed declared objectPrefix planned :=
      List.forall_mem_append.mpr ⟨hfirst, hsecond⟩
    exact ⟨⟨residents, rfl, hhaves⟩, hboth,
      (perm_declared_iff hnodup hboth).mpr ⟨hall, hlength⟩⟩
  · intro h
    obtain ⟨residents, rfl, hhaves⟩ := h.listed
    obtain ⟨hall, hlength⟩ := (perm_declared_iff hnodup h.recomputed).mp h.all
    obtain ⟨hfirst, hsecond⟩ := List.forall_mem_append.mp h.recomputed
    have hapart : (residents.map fun planned =>
        planned.object.digest).Nodup := by
      rw [List.map_append] at hall
      exact hall.of_append_left
    exact ⟨residents, (addResidents_eq_ok hnodup).mpr
        ⟨hhaves, hfirst, hapart⟩, _,
      (addGrants_eq_ok hnodup hapart).mpr ⟨hsecond, rfl, hall⟩, hlength, rfl⟩

end

end TensorFS.Go
