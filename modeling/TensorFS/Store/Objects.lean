import TensorFS.Planner.Plan

namespace TensorFS

open Data

/-! The content-addressed object store. -/

/-- The resident objects under their digests.  `admitted` keeps every byte
string the verifying writer has hashed, so that statements about a run can name
them after a removal. -/
structure ObjectStore (P : Platform) where
  resident : List (ObjectDigest × Bytes)
  admitted : List Bytes
  keyed : ∀ pair ∈ resident, P.sha256 pair.2 = pair.1 ∧ pair.2 ∈ admitted

namespace ObjectStore

variable {P : Platform}

def empty : ObjectStore P := ⟨[], [], by simp⟩

def openObject (store : ObjectStore P) (digest : ObjectDigest) :
    Option Bytes :=
  (store.resident.find? fun pair => pair.1 = digest).map Prod.snd

def existsObject (store : ObjectStore P) (digest : ObjectDigest) : Bool :=
  (store.openObject digest).isSome

/-- Installs the bytes under their digest unless an object is there. -/
def putBytes (store : ObjectStore P) (bytes : Bytes) : ObjectStore P where
  resident :=
    if store.existsObject (P.sha256 bytes) then store.resident
    else (P.sha256 bytes, bytes) :: store.resident
  admitted := bytes :: store.admitted
  keyed := by
    intro pair hpair
    split at hpair
    · exact ⟨(store.keyed pair hpair).1,
        List.mem_cons_of_mem _ (store.keyed pair hpair).2⟩
    · rcases List.mem_cons.mp hpair with rfl | hpair
      · exact ⟨rfl, List.mem_cons_self⟩
      · exact ⟨(store.keyed pair hpair).1,
          List.mem_cons_of_mem _ (store.keyed pair hpair).2⟩

def removeObject (store : ObjectStore P) (digest : ObjectDigest) :
    ObjectStore P where
  resident := store.resident.filter fun pair => pair.1 ≠ digest
  admitted := store.admitted
  keyed := fun pair hpair => store.keyed pair (List.mem_filter.mp hpair).1

/-- Rehashes a resident object and reports its length. -/
def verify (store : ObjectStore P) (digest : ObjectDigest) : Option Nat := do
  let bytes ← store.openObject digest
  if P.sha256 bytes = digest then some bytes.length else none

def eachObject (store : ObjectStore P) : List ObjectDigest :=
  store.resident.map Prod.fst

/-- No two admitted byte strings share a digest. -/
def CollisionFree (store : ObjectStore P) : Prop :=
  Set.InjOn P.sha256 (Membership.mem store.admitted)

variable {store : ObjectStore P} {digest other : ObjectDigest} {bytes : Bytes}

theorem openObject_keyed (h : store.openObject digest = some bytes) :
    P.sha256 bytes = digest ∧ bytes ∈ store.admitted := by
  simp only [openObject, Option.map_eq_some_iff] at h
  obtain ⟨pair, hfind, rfl⟩ := h
  have hdigest := List.find?_some hfind
  obtain ⟨hkey, hmem⟩ := store.keyed pair (List.mem_of_find?_eq_some hfind)
  exact ⟨hkey.trans (of_decide_eq_true hdigest), hmem⟩

theorem existsObject_iff :
    store.existsObject digest = true ↔
      ∃ bytes, store.openObject digest = some bytes :=
  Option.isSome_iff_exists

theorem verify_isSome :
    (store.verify digest).isSome = store.existsObject digest := by
  cases hopen : store.openObject digest with
  | none => simp [verify, existsObject, hopen]
  | some bytes => simp [verify, existsObject, hopen, openObject_keyed hopen]

theorem mem_eachObject :
    digest ∈ store.eachObject ↔ store.existsObject digest = true := by
  rw [existsObject_iff]
  simp only [eachObject, openObject, List.mem_map, Prod.exists,
    exists_and_right, exists_eq_right, Option.map_eq_some_iff]
  constructor
  · rintro ⟨bytes, hmem⟩
    have hsome : (store.resident.find? fun pair => pair.1 = digest).isSome := by
      rw [List.find?_isSome]
      exact ⟨_, hmem, by simp⟩
    obtain ⟨pair, hpair⟩ := Option.isSome_iff_exists.mp hsome
    exact ⟨pair.2, pair.1, hpair⟩
  · rintro ⟨bytes, found, hfind⟩
    have hdigest := List.find?_some hfind
    simp only [decide_eq_true_eq] at hdigest
    subst hdigest
    exact ⟨bytes, List.mem_of_find?_eq_some hfind⟩

@[simp] theorem admitted_putBytes :
    (store.putBytes bytes).admitted = bytes :: store.admitted := rfl

@[simp] theorem admitted_removeObject :
    (store.removeObject digest).admitted = store.admitted := rfl

theorem openObject_putBytes :
    (store.putBytes bytes).openObject digest =
      if store.existsObject digest = false ∧ P.sha256 bytes = digest then
        some bytes
      else store.openObject digest := by
  by_cases hsame : P.sha256 bytes = digest
  · subst hsame
    by_cases hexists : store.existsObject (P.sha256 bytes) = true
    · simp [putBytes, openObject, hexists]
    · simp [putBytes, openObject, hexists]
  · by_cases hexists : store.existsObject (P.sha256 bytes) = true
    · simp [putBytes, openObject, hexists, hsame]
    · simp [putBytes, openObject, hexists, hsame]

theorem openObject_removeObject :
    (store.removeObject other).openObject digest =
      if digest = other then none else store.openObject digest := by
  simp only [openObject, removeObject, List.find?_filter]
  split
  · rename_i heq
    subst heq
    rw [Option.map_eq_none_iff, List.find?_eq_none]
    simp
  · rename_i hne
    congr 2
    funext pair
    simp only [decide_not, Bool.decide_and]
    by_cases hpair : pair.1 = digest
    · simp [hpair, hne]
    · simp [hpair]

theorem openObject_putBytes_of (h : store.openObject digest = some bytes)
    (fresh : Bytes) :
    (store.putBytes fresh).openObject digest = some bytes := by
  rw [openObject_putBytes, if_neg, h]
  simp [existsObject, h]

theorem existsObject_putBytes :
    (store.putBytes bytes).existsObject digest = true ↔
      store.existsObject digest = true ∨ P.sha256 bytes = digest := by
  rw [existsObject, openObject_putBytes]
  by_cases hexists : store.existsObject digest = true
  · rw [if_neg (by simp [hexists])]
    exact ⟨fun _ => .inl hexists, fun _ => hexists⟩
  · by_cases hsame : P.sha256 bytes = digest
    · rw [if_pos ⟨by simpa using hexists, hsame⟩]
      exact ⟨fun _ => .inr hsame, fun _ => rfl⟩
    · rw [if_neg fun h => hsame h.2]
      exact ⟨.inl, fun h => h.resolve_right hsame⟩

theorem existsObject_removeObject :
    (store.removeObject other).existsObject digest = true ↔
      store.existsObject digest = true ∧ digest ≠ other := by
  simp only [existsObject, openObject_removeObject]
  by_cases heq : digest = other <;> simp [heq]

theorem CollisionFree.open_eq (hfree : store.CollisionFree)
    (h : store.openObject (P.sha256 bytes) = some found)
    (hbytes : bytes ∈ store.admitted) : found = bytes :=
  hfree (openObject_keyed h).2 hbytes (openObject_keyed h).1

theorem CollisionFree.mono {later : ObjectStore P}
    (hfree : later.CollisionFree)
    (hsub : ∀ bytes ∈ store.admitted, bytes ∈ later.admitted) :
    store.CollisionFree :=
  fun _ ha _ hb heq => hfree (hsub _ ha) (hsub _ hb) heq

theorem CollisionFree.putBytes_open (hfree : (store.putBytes bytes).CollisionFree) :
    (store.putBytes bytes).openObject (P.sha256 bytes) = some bytes := by
  have hexists : (store.putBytes bytes).existsObject (P.sha256 bytes) = true :=
    existsObject_putBytes.mpr (.inr rfl)
  obtain ⟨found, hfound⟩ := existsObject_iff.mp hexists
  rw [hfound, hfree.open_eq hfound List.mem_cons_self]

end ObjectStore

end TensorFS
