import TensorFS.Planner.Tiling
import TensorFS.Planner.PlanOnce

namespace TensorFS

open Data

/-! Hashing every object of a plan from one source. -/

structure PlannedObject where
  digest : ObjectDigest
  length : Nat
  kind : RegionKind
  deriving DecidableEq

structure HashedPlan where
  planner : PlannerId
  contract : Stamp
  fileSize : Nat
  objects : List PlannedObject
  deriving DecidableEq

def hashBufferSize : Nat := 1024 * 1024

/-- The bytes fed to the hasher, one buffer a round. -/
def readBlocks (source : ByteSource) :
    Nat → Nat → Nat → Except PlanError Bytes
  | 0, _, _ => .ok []
  | rounds + 1, cursor, remaining => do
      let block ← source.readExactAt cursor (min remaining hashBufferSize)
      let rest ← readBlocks source rounds
        (cursor + min remaining hashBufferSize)
        (remaining - min remaining hashBufferSize)
      .ok (block ++ rest)

def hashRounds (length : Nat) : Nat :=
  (length + (hashBufferSize - 1)) / hashBufferSize

def hashRegion (P : Platform) (source : ByteSource) (region : Region) :
    Except PlanError PlannedObject := do
  let bytes ← readBlocks source (hashRounds region.length) region.offset
    region.length
  .ok ⟨P.sha256 bytes, region.length, region.kind⟩

def hashPlan (P : Platform) (source : ByteSource) (plan : Plan) :
    Except PlanError HashedPlan := do
  source.checkUnchanged
  plan.validate
  ensure (source.len = plan.fileSize)
    (.sourceLengthMismatch plan.fileSize source.len)
  let objects ← plan.regions.mapM (hashRegion P source)
  source.checkUnchanged
  .ok ⟨plan.planner, plan.contract, plan.fileSize, objects⟩

def planAndHashUnder (P : Platform) (source : ByteSource)
    (contract : Option Contract) : Except (Failure PlanError) HashedPlan := do
  let plan ← planWith P source contract
  refusing (hashPlan P source plan)

/-- The file body that records these objects; a blob has none here. -/
def HashedPlan.body (hashed : HashedPlan) : Option FileBody :=
  hashed.planner.tensorFormat.map fun format =>
    .tensor format hashed.contract (UInt64.ofNat hashed.fileSize)
      (hashed.objects.map fun object =>
        .data object.digest (UInt64.ofNat object.length))

/-! A byte slice as a source. -/

structure Slice where
  bytes : Bytes
  fits : bytes.length < 2 ^ 64

def slice (bytes : Bytes) (offset count : Nat) : Bytes :=
  (bytes.drop offset).take count

def Slice.source (content : Slice) : ByteSource where
  len := content.bytes.length
  len_lt := content.fits
  readAt offset count :=
    if offset + count ≤ content.bytes.length then
      some (slice content.bytes offset count)
    else none
  unchanged := true

@[simp] theorem Slice.source_len (content : Slice) :
    content.source.len = content.bytes.length := rfl

theorem length_slice {bytes : Bytes} {offset count : Nat}
    (h : offset + count ≤ bytes.length) :
    (slice bytes offset count).length = count := by
  rw [slice, List.length_take, List.length_drop]
  omega

theorem slice_add (bytes : Bytes) (offset first second : Nat) :
    slice bytes offset (first + second) =
      slice bytes offset first ++ slice bytes (offset + first) second := by
  rw [slice, List.take_add, List.drop_drop, slice, slice]

theorem slice_slice {bytes : Bytes} {offset count start length : Nat}
    (h : start + length ≤ count) :
    slice (slice bytes offset count) start length =
      slice bytes (offset + start) length := by
  rw [slice, slice, slice, List.drop_take, List.take_take, List.drop_drop,
    Nat.min_eq_left (by omega)]

theorem slice_all (bytes : Bytes) : slice bytes 0 bytes.length = bytes := by
  rw [slice, List.drop_zero, List.take_length]

theorem slice_append_right (front rest : Bytes) (offset count : Nat) :
    slice (front ++ rest) (front.length + offset) count =
      slice rest offset count := by
  rw [slice, List.drop_length_add_append, slice]

theorem slice_append_left {front : Bytes} {offset count : Nat}
    (h : offset + count ≤ front.length) (rest : Bytes) :
    slice (front ++ rest) offset count = slice front offset count := by
  rw [slice, List.drop_append_of_le_length (by omega),
    List.take_append_of_le_length (by rw [List.length_drop]; omega), slice]

/-- A region's bytes as one object. -/
def sliceObject (P : Platform) (bytes : Bytes) (region : Region) :
    PlannedObject :=
  ⟨P.sha256 (slice bytes region.offset region.length), region.length,
    region.kind⟩

section

variable {P : Platform} {content : Slice} {plan : Plan}

theorem readExactAt_slice {offset count : Nat}
    (h : offset + count ≤ content.bytes.length) :
    content.source.readExactAt offset count =
      .ok (slice content.bytes offset count) := by
  simp only [ByteSource.readExactAt, Slice.source, if_pos h]

theorem readBlocks_slice {rounds cursor remaining : Nat}
    (hrounds : remaining ≤ rounds * hashBufferSize)
    (hinside : cursor + remaining ≤ content.bytes.length) :
    readBlocks content.source rounds cursor remaining =
      .ok (slice content.bytes cursor remaining) := by
  induction rounds generalizing cursor remaining with
  | zero =>
      have hzero : remaining = 0 := by omega
      subst hzero
      rw [readBlocks, slice, List.take_zero]
  | succ rounds ih =>
      rw [Nat.add_mul, Nat.one_mul] at hrounds
      have hmin := Nat.min_le_left remaining hashBufferSize
      have hsplit : remaining = min remaining hashBufferSize +
          (remaining - min remaining hashBufferSize) := by omega
      rw [readBlocks, readExactAt_slice (by omega), except_ok_bind,
        ih (by omega) (by omega), except_ok_bind, ← slice_add, ← hsplit]

theorem hashRounds_enough (length : Nat) :
    length ≤ hashRounds length * hashBufferSize := by
  have hdiv := Nat.div_add_mod (length + (hashBufferSize - 1)) hashBufferSize
  have hmod := Nat.mod_lt (length + (hashBufferSize - 1))
    (show 0 < hashBufferSize by decide)
  rw [hashRounds, Nat.mul_comm]
  omega

theorem hashRegion_slice {region : Region}
    (h : region.offset + region.length ≤ content.bytes.length) :
    hashRegion P content.source region =
      .ok (sliceObject P content.bytes region) := by
  rw [hashRegion, readBlocks_slice (hashRounds_enough _) h, except_ok_bind,
    sliceObject]

theorem hashRegions_slice {regions : List Region}
    (h : ∀ region ∈ regions,
      region.offset + region.length ≤ content.bytes.length) :
    regions.mapM (hashRegion P content.source) =
      .ok (regions.map (sliceObject P content.bytes)) := by
  induction regions with
  | nil => rfl
  | cons region regions ih =>
      rw [List.mapM_cons, hashRegion_slice (h region List.mem_cons_self),
        except_ok_bind, ih fun other hmem =>
          h other (List.mem_cons_of_mem _ hmem)]
      rfl

end

/-! What a plan promises about its source. -/

theorem validateRegions_tiles {blob : Bool} {start stop : Nat}
    {regions : List Region}
    (h : Plan.validateRegions blob start regions = .ok stop) :
    Tiles start stop regions ∧
      (blob = false → ∀ region ∈ regions, region.length ≤ maxObjectSize) := by
  induction regions generalizing start with
  | nil =>
      cases h
      exact ⟨rfl, fun _ _ hmem => by cases hmem⟩
  | cons region regions ih =>
      simp only [Plan.validateRegions, except_bind_eq_ok, ensure_eq_ok,
        exists_unit] at h
      obtain ⟨⟨hoffset, hlength, hsize⟩, -, h⟩ := h
      obtain ⟨htiles, hbounded⟩ := ih h
      refine ⟨⟨hoffset, Nat.pos_of_ne_zero hlength, htiles⟩, fun hblob => ?_⟩
      exact List.forall_mem_cons.mpr ⟨hsize hblob, hbounded hblob⟩

theorem Plan.tiles_of_validate {plan : Plan} (h : plan.validate = .ok ()) :
    Tiles 0 plan.fileSize plan.regions ∧
      (plan.planner ≠ .blobV1 →
        ∀ region ∈ plan.regions, region.length ≤ maxObjectSize) := by
  simp only [Plan.validate, except_bind_eq_ok, ensure_eq_ok, exists_unit] at h
  obtain ⟨-, -, h⟩ := h
  split at h
  · rename_i hzero
    rw [ensure_eq_ok] at h
    rw [h, hzero]
    exact ⟨rfl, fun _ _ hmem => by cases hmem⟩
  · simp only [except_bind_eq_ok, ensure_eq_ok] at h
    obtain ⟨covered, hcovered, rfl⟩ := h
    obtain ⟨htiles, hbounded⟩ := validateRegions_tiles hcovered
    exact ⟨htiles, fun hne => hbounded (beq_eq_false_iff_ne.mpr hne)⟩

theorem Tiles.inside {start stop : Nat} {regions : List Region}
    (h : Tiles start stop regions) :
    ∀ region ∈ regions, region.offset + region.length ≤ stop := by
  induction regions generalizing start with
  | nil => simp
  | cons head regions ih =>
      obtain ⟨hoffset, -, hrest⟩ := h
      have hle := hrest.le
      exact List.forall_mem_cons.mpr ⟨by omega, ih hrest⟩

theorem Tiles.sum {start stop : Nat} {regions : List Region}
    (h : Tiles start stop regions) :
    start + (regions.map Region.length).sum = stop := by
  induction regions generalizing start with
  | nil => exact h
  | cons head regions ih =>
      obtain ⟨-, -, hrest⟩ := h
      rw [List.map_cons, List.sum_cons, ← ih hrest]
      omega

theorem validated_eq_ok {plan plan' : Plan}
    (h : validated plan = .ok plan') :
    plan' = plan ∧ plan.validate = .ok () := by
  simp only [validated, except_bind_eq_ok, refusing_eq_ok, exists_unit,
    Except.ok.injEq] at h
  exact ⟨h.2.symm, h.1⟩

theorem Safetensors.tryPlan_fileSize {P : Platform} {source : ByteSource}
    {contract : Option Contract} {plan : Plan}
    (h : Safetensors.tryPlan P source contract = .ok (some plan)) :
    plan.fileSize = source.len := by
  simp only [Safetensors.tryPlan, except_bind_eq_ok] at h
  obtain ⟨layout, -, h⟩ := h
  cases layout with
  | none => cases h
  | some layout =>
      simp only [Safetensors.planLayout, except_bind_eq_ok] at h
      obtain ⟨front, -, h⟩ := h
      cases front with
      | none => cases h
      | some front =>
          simp only [except_bind_eq_ok] at h
          obtain ⟨regions, -, h⟩ := h
          cases regions with
          | none => cases h
          | some regions =>
              cases h
              rfl

theorem Gguf.tryPlan_fileSize {P : Platform} {source : ByteSource}
    {contract : Option Contract} {plan : Plan}
    (h : Gguf.tryPlan P source contract = .ok (some plan)) :
    plan.fileSize = source.len := by
  rw [Gguf.tryPlan] at h
  generalize hplan : (do
    let layout ← refusing (Gguf.parse source)
    Gguf.planLayout P source.len contract layout) = result at h
  cases result with
  | error failure =>
      cases failure with
      | panicked => cases h
      | refused refusal => cases refusal <;> cases h
  | ok found =>
      cases h
      simp only [Gguf.planLayout, except_bind_eq_ok] at hplan
      obtain ⟨layout, -, _, -, _, -, _, -, _, -, hplan⟩ := hplan
      cases hplan
      rfl

theorem planOnce_ok {P : Platform} {source : ByteSource}
    {contract : Option Contract} {plan : Plan}
    (h : planOnce P source contract = .ok plan) :
    plan.validate = .ok () ∧ plan.fileSize = source.len := by
  have hblob : ∀ {found : Plan}, validated (blobPlan source.len) = .ok found →
      found.validate = .ok () ∧ found.fileSize = source.len := by
    intro found hfound
    obtain ⟨rfl, hvalid⟩ := validated_eq_ok hfound
    exact ⟨hvalid, rfl⟩
  rw [planOnce] at h
  split at h
  · exact hblob h
  · simp only [except_bind_eq_ok] at h
    obtain ⟨first, hfirst, h⟩ := h
    cases first with
    | some found =>
        obtain ⟨rfl, hvalid⟩ := validated_eq_ok h
        rw [ggufPlan] at hfirst
        split at hfirst
        · exact ⟨hvalid, Gguf.tryPlan_fileSize hfirst⟩
        · cases hfirst
    | none =>
        simp only [safetensorsOrBlobPlan, except_bind_eq_ok] at h
        obtain ⟨second, hsecond, h⟩ := h
        cases second with
        | none => exact hblob h
        | some found =>
            obtain ⟨rfl, hvalid⟩ := validated_eq_ok h
            exact ⟨hvalid, Safetensors.tryPlan_fileSize hsecond⟩

theorem planWith_ok {P : Platform} {source : ByteSource}
    {contract : Option Contract} {plan : Plan}
    (h : planWith P source contract = .ok plan) :
    plan.validate = .ok () ∧ plan.fileSize = source.len := by
  simp only [planWith, except_bind_eq_ok] at h
  obtain ⟨_, -, _, -, h⟩ := h
  exact planOnce_ok h

/-- The plan of a byte slice with each region's digest. -/
def hashedSlice (P : Platform) (bytes : Bytes) (plan : Plan) : HashedPlan :=
  ⟨plan.planner, plan.contract, plan.fileSize,
    plan.regions.map (sliceObject P bytes)⟩

theorem hashPlan_slice {P : Platform} {content : Slice} {plan : Plan}
    (hvalid : plan.validate = .ok ())
    (hsize : plan.fileSize = content.bytes.length) :
    hashPlan P content.source plan =
      .ok (hashedSlice P content.bytes plan) := by
  have hinside := (Plan.tiles_of_validate hvalid).1.inside
  rw [hsize] at hinside
  have hunchanged : content.source.checkUnchanged = .ok () := ensure_of rfl
  rw [hashPlan, hunchanged, except_ok_bind, hvalid, except_ok_bind,
    ensure_of (by rw [Slice.source_len, hsize]), except_ok_bind,
    hashRegions_slice hinside]
  rfl

theorem planAndHashUnder_slice {P : Platform} {content : Slice}
    {contract : Option Contract} :
    planAndHashUnder P content.source contract =
      (planWith P content.source contract).map
        (hashedSlice P content.bytes) := by
  rw [planAndHashUnder]
  cases hplan : planWith P content.source contract with
  | error failure => rfl
  | ok plan =>
      obtain ⟨hvalid, hsize⟩ := planWith_ok hplan
      rw [except_ok_bind, hashPlan_slice hvalid hsize]
      rfl

end TensorFS
