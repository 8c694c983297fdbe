import TensorFS.Compose.Records
import TensorFS.Planner.Totality
import TensorFS.Workspace.Seal

namespace TensorFS

open Data

variable {P : Platform}

/-! Re-cutting a committed file under a layout contract. -/

/-- The digest committed for a byte range; a later record replaces an earlier
one. -/
def committedDigest (records : List FileRecord) (region : Region) :
    Option ObjectDigest :=
  (findRow Prod.fst (committedRanges 0 records).reverse
    (region.offset, region.length)).map Prod.snd

/-- Reads each region through the store as it grows, and admits it. -/
def admitRegions (records : List FileRecord) :
    ObjectStore P → List Region →
      Except (Failure ComposeError) (ObjectStore P × List ObjectDigest)
  | store, [] => .ok (store, [])
  | store, region :: regions =>
      match (recordsSource store records).readAt region.offset
          region.length with
      | none => .error (.refused .store)
      | some bytes => do
          let admitted ← admitRegions records (store.putBytes bytes) regions
          .ok (admitted.1, P.sha256 bytes :: admitted.2)

/-- One record a region: the committed digest, or the next admitted one. -/
def composeRegions (records : List FileRecord) :
    List Region → List ObjectDigest →
      Except (Failure ComposeError) (List FileRecord)
  | [], _ => .ok []
  | region :: regions, fresh =>
      match committedDigest records region, fresh with
      | some digest, fresh => do
          let composed ← composeRegions records regions fresh
          .ok (.data digest (UInt64.ofNat region.length) :: composed)
      | none, digest :: fresh => do
          let composed ← composeRegions records regions fresh
          .ok (.data digest (UInt64.ofNat region.length) :: composed)
      | none, [] => .error .panicked

/-- The regions no committed record covers exactly. -/
def pendingRegions (records : List FileRecord) (planned : Plan) :
    List Region :=
  planned.regions.filter fun region => (committedDigest records region).isNone

def adoptPlan (store : ObjectStore P) (format : TensorFormat)
    (records : List FileRecord) (planned : Plan) :
    Except (Failure ComposeError) (ObjectStore P × FileBody) := do
  refusing (ensure (planned.planner.tensorFormat = some format)
    (.unreadable format.container))
  let admitted ← admitRegions records store (pendingRegions records planned)
  let composed ← composeRegions records planned.regions admitted.2
  .ok (admitted.1,
    .tensor format planned.contract (recordSum composed) composed)

def adopt (store : ObjectStore P) (body : FileBody)
    (contract : Option Contract) :
    Except (Failure ComposeError) (ObjectStore P × FileBody) :=
  match body with
  | .blob .. => .error (.refused .notATensorContainer)
  | .tensor format _ _ records => do
      let planned ← planning
        (planWith P (recordsSource store records) contract)
      adoptPlan store format records planned

/-! Re-cutting is re-ingesting. -/

section

variable {store : ObjectStore P} {records : List FileRecord} {bytes : Bytes}

/-- A committed range is one object, under its own digest. -/
theorem committedRanges_bytes {start : Nat}
    (h : fileBytes store records = some bytes) {position length : Nat}
    {digest : ObjectDigest}
    (hmem : ((position, length), digest) ∈ committedRanges start records) :
    start ≤ position ∧ position - start + length ≤ bytes.length ∧
      store.openObject digest =
        some (slice bytes (position - start) length) := by
  induction records generalizing start bytes with
  | nil => cases hmem
  | cons record records ih =>
      obtain ⟨front, rest, hfront, hrest, rfl⟩ := fileBytes_cons.mp h
      have hlength := recordBytes_length hfront
      have hlater : ((position, length), digest) ∈
          committedRanges (start + record.size) records →
          start ≤ position ∧
            position - start + length ≤ (front ++ rest).length ∧
            store.openObject digest =
              some (slice (front ++ rest) (position - start) length) := by
        intro hmem
        obtain ⟨hstart, hinside, hopen⟩ := ih hrest hmem
        rw [List.length_append]
        refine ⟨by omega, by omega, ?_⟩
        rw [hopen, ← slice_append_right front, hlength, Nat.sub_add_eq]
        congr 2
        omega
      cases record with
      | hole length => exact hlater hmem
      | data found count =>
          rcases List.mem_cons.mp hmem with heq | hmem
          · simp only [Prod.mk.injEq] at heq
            obtain ⟨⟨rfl, rfl⟩, rfl⟩ := heq
            obtain ⟨hopen, hcount⟩ := recordBytes_data hfront
            refine ⟨le_rfl, ?_, ?_⟩
            · rw [List.length_append]
              omega
            · rw [hopen, Nat.sub_self, ← hcount,
                slice_append_left (by omega), slice_all]
          · exact hlater hmem

theorem committedDigest_slice (h : fileBytes store records = some bytes)
    {region : Region} {digest : ObjectDigest}
    (hdigest : committedDigest records region = some digest) :
    region.offset + region.length ≤ bytes.length ∧
      store.openObject digest =
        some (slice bytes region.offset region.length) := by
  rw [committedDigest, Option.map_eq_some_iff] at hdigest
  obtain ⟨range, hfound, rfl⟩ := hdigest
  obtain ⟨hmem, hkey⟩ := findRow_mem hfound
  obtain ⟨⟨position, length⟩, digest⟩ := range
  cases hkey
  have hrange := committedRanges_bytes h (List.mem_reverse.mp hmem)
  rw [Nat.sub_zero] at hrange
  exact hrange.2

/-- The store after admitting every pending region. -/
def admitSlices (bytes : Bytes) (store : ObjectStore P)
    (regions : List Region) : ObjectStore P :=
  (putPieces store (regions.map fun region =>
    slice bytes region.offset region.length)).1

theorem admitRegions_slice {content : Slice} {regions : List Region}
    (h : fileBytes store records = some content.bytes)
    (hinside : ∀ region ∈ regions,
      region.offset + region.length ≤ content.bytes.length) :
    admitRegions records store regions =
      .ok (admitSlices content.bytes store regions,
        regions.map fun region => P.sha256
          (slice content.bytes region.offset region.length)) := by
  induction regions generalizing store with
  | nil => rfl
  | cons region regions ih =>
      obtain ⟨hhead, hrest⟩ := List.forall_mem_cons.mp hinside
      have hread : content.source.readAt region.offset region.length =
          some (slice content.bytes region.offset region.length) :=
        if_pos hhead
      have hstored := (store.extends_putBytes
        (slice content.bytes region.offset region.length)).fileBytes h
      rw [admitRegions, recordsSource_eq_slice h, hread]
      simp only [ih hstored hrest, except_ok_bind]
      rfl

theorem composeRegions_slice (h : fileBytes store records = some bytes)
    {regions : List Region} :
    composeRegions records regions
        ((regions.filter fun region =>
            (committedDigest records region).isNone).map fun region =>
          P.sha256 (slice bytes region.offset region.length)) =
      .ok (regions.map fun region =>
        .data (P.sha256 (slice bytes region.offset region.length))
          (UInt64.ofNat region.length)) := by
  induction regions with
  | nil => rfl
  | cons region regions ih =>
      cases hdigest : committedDigest records region with
      | some digest =>
          have hkeyed := (ObjectStore.openObject_keyed
            (committedDigest_slice h hdigest).2).1
          rw [List.filter_cons_of_neg (by simp [hdigest]),
            composeRegions.eq_2 _ _ _ _ _ hdigest, ih, except_ok_bind,
            List.map_cons, hkeyed]
      | none =>
          rw [List.filter_cons_of_pos (by simp [hdigest]), List.map_cons,
            composeRegions.eq_3 _ _ _ _ _ hdigest, ih, except_ok_bind,
            List.map_cons]

/-- The body that a plan of these bytes records. -/
def slicedBody (P : Platform) (bytes : Bytes) (format : TensorFormat)
    (plan : Plan) : FileBody :=
  .tensor format plan.contract (UInt64.ofNat plan.fileSize)
    (plan.regions.map fun region =>
      .data (P.sha256 (slice bytes region.offset region.length))
        (UInt64.ofNat region.length))

theorem slicedBody_eq_hashed {format : TensorFormat} {plan : Plan}
    (hformat : plan.planner.tensorFormat = some format) :
    (hashedSlice P bytes plan).body = some (slicedBody P bytes format plan) := by
  simp only [HashedPlan.body, hashedSlice, hformat, Option.map_some,
    slicedBody, List.map_map, Function.comp_def, sliceObject]

theorem totalSize_sliced {stop : Nat} {regions : List Region}
    (hstop : stop < 2 ^ 64)
    (hinside : ∀ region ∈ regions, region.offset + region.length ≤ stop) :
    totalSize (regions.map fun region =>
        .data (P.sha256 (slice bytes region.offset region.length))
          (UInt64.ofNat region.length)) =
      (regions.map Region.length).sum := by
  rw [totalSize, List.map_map]
  refine congrArg List.sum (List.map_congr_left fun region hmem => ?_)
  have hregion := hinside region hmem
  exact UInt64.toNat_ofNat_of_lt' (by change _ < 2 ^ 64; omega)

theorem adoptPlan_slice {content : Slice} {format : TensorFormat}
    {plan : Plan} (h : fileBytes store records = some content.bytes)
    (hvalid : plan.validate = .ok ())
    (hsize : plan.fileSize = content.bytes.length)
    (hformat : plan.planner.tensorFormat = some format) :
    adoptPlan store format records plan =
      .ok (admitSlices content.bytes store (pendingRegions records plan),
        slicedBody P content.bytes format plan) := by
  obtain ⟨htiles, -⟩ := Plan.tiles_of_validate hvalid
  have hinside := htiles.inside
  rw [hsize] at hinside
  have hpending : ∀ region ∈ pendingRegions records plan,
      region.offset + region.length ≤ content.bytes.length :=
    fun region hmem => hinside region (List.mem_filter.mp hmem).1
  have htotal := htiles.sum
  rw [Nat.zero_add] at htotal
  rw [adoptPlan, ensure_of hformat]
  simp only [refusing, except_ok_bind]
  rw [admitRegions_slice h hpending, except_ok_bind, pendingRegions,
    composeRegions_slice h, except_ok_bind, recordSum_eq, totalSize_sliced content.fits hinside,
    htotal]
  rfl

theorem adopt_slice {content : Slice} {format : TensorFormat} {stamp : Stamp}
    {size : UInt64} {contract : Option Contract}
    (h : fileBytes store records = some content.bytes) :
    adopt store (.tensor format stamp size records) contract =
      (planning (planWith P content.source contract) >>=
        adoptPlan store format records) := by
  rw [adopt, recordsSource_eq_slice h]

/-- What an adoption returns: the planned body over the extended store. -/
theorem adopt_eq_ok {content : Slice} {format : TensorFormat} {stamp : Stamp}
    {size : UInt64} {contract : Option Contract} {later : ObjectStore P}
    {adopted : FileBody}
    (h : fileBytes store records = some content.bytes) :
    adopt store (.tensor format stamp size records) contract =
        .ok (later, adopted) ↔
      ∃ plan, planWith P content.source contract = .ok plan ∧
        plan.planner.tensorFormat = some format ∧
        later = admitSlices content.bytes store
          (pendingRegions records plan) ∧
        adopted = slicedBody P content.bytes format plan := by
  rw [adopt_slice h]
  simp only [except_bind_eq_ok, planning_eq_ok]
  constructor
  · rintro ⟨plan, hplan, hadopt⟩
    obtain ⟨hvalid, hsize⟩ := planWith_ok hplan
    have hformat : plan.planner.tensorFormat = some format := by
      simp only [adoptPlan, except_bind_eq_ok, refusing_eq_ok, ensure_eq_ok,
        exists_unit] at hadopt
      exact hadopt.1
    rw [adoptPlan_slice h hvalid hsize hformat, Except.ok.injEq,
      Prod.mk.injEq] at hadopt
    exact ⟨plan, hplan, hformat, hadopt.1.symm, hadopt.2.symm⟩
  · rintro ⟨plan, hplan, hformat, rfl, rfl⟩
    obtain ⟨hvalid, hsize⟩ := planWith_ok hplan
    exact ⟨plan, hplan, adoptPlan_slice h hvalid hsize hformat⟩

/-- The adopted body depends on the bytes and the format alone. -/
theorem adopt_snd {content : Slice} {format : TensorFormat} {stamp : Stamp}
    {size : UInt64} {contract : Option Contract}
    (h : fileBytes store records = some content.bytes) :
    (adopt store (.tensor format stamp size records) contract).map Prod.snd =
      planning (planWith P content.source contract) >>= fun plan =>
        if plan.planner.tensorFormat = some format then
          .ok (slicedBody P content.bytes format plan)
        else .error (.refused (.unreadable format.container)) := by
  rw [adopt_slice h]
  cases hplan : planWith P content.source contract with
  | error failure => cases failure <;> rfl
  | ok plan =>
      obtain ⟨hvalid, hsize⟩ := planWith_ok hplan
      simp only [planning, except_ok_bind]
      by_cases hformat : plan.planner.tensorFormat = some format
      · rw [adoptPlan_slice h hvalid hsize hformat, if_pos hformat]
        rfl
      · rw [adoptPlan, ensure_of_not hformat, if_neg hformat]
        rfl

/-- Regions that tile a range spell it, where each one's bytes are resident
under their digest. -/
theorem fileBytes_sliced {start stop : Nat} {regions : List Region}
    (htiles : Tiles start stop regions) (hstop : stop ≤ bytes.length)
    (hfits : bytes.length < 2 ^ 64)
    (hopen : ∀ region ∈ regions,
      store.openObject
          (P.sha256 (slice bytes region.offset region.length)) =
        some (slice bytes region.offset region.length)) :
    fileBytes store (regions.map fun region =>
        .data (P.sha256 (slice bytes region.offset region.length))
          (UInt64.ofNat region.length)) =
      some (slice bytes start (stop - start)) := by
  induction regions generalizing start with
  | nil =>
      cases htiles
      rw [Nat.sub_self, slice, List.take_zero]
      rfl
  | cons region regions ih =>
      obtain ⟨rfl, -, hrest⟩ := htiles
      obtain ⟨hhead, htail⟩ := List.forall_mem_cons.mp hopen
      have hle := hrest.le
      refine fileBytes_cons.mpr ⟨_, _, recordBytes_of_open hhead ?_,
        ih hrest htail, ?_⟩
      · rw [length_slice (by omega)]
        exact (UInt64.toNat_ofNat_of_lt' (by
          change _ < 2 ^ 64
          omega)).symm
      · rw [← slice_add]
        congr 1
        omega

/-- An adopted body spells the bytes of the body it re-cuts. -/
theorem fileBytes_adopted {content : Slice} {format : TensorFormat}
    {plan : Plan} (h : fileBytes store records = some content.bytes)
    (hvalid : plan.validate = .ok ())
    (hsize : plan.fileSize = content.bytes.length)
    (hfree : (admitSlices content.bytes store
      (pendingRegions records plan)).CollisionFree) :
    fileBytes
        (admitSlices content.bytes store (pendingRegions records plan))
        (slicedBody P content.bytes format plan).records =
      some content.bytes := by
  obtain ⟨htiles, -⟩ := Plan.tiles_of_validate hvalid
  rw [hsize] at htiles
  have hopen : ∀ region ∈ plan.regions,
      (admitSlices content.bytes store
          (pendingRegions records plan)).openObject
          (P.sha256 (slice content.bytes region.offset region.length)) =
        some (slice content.bytes region.offset region.length) := by
    intro region hmem
    cases hdigest : committedDigest records region with
    | some digest =>
        obtain ⟨-, hcommitted⟩ := committedDigest_slice h hdigest
        rw [(ObjectStore.openObject_keyed hcommitted).1]
        exact putPieces_extends store _ digest _ hcommitted
    | none =>
        refine putPieces_open hfree _ (List.mem_map_of_mem ?_)
        exact List.mem_filter.mpr ⟨hmem, by rw [hdigest]; rfl⟩
  have hall := fileBytes_sliced htiles le_rfl content.fits hopen
  rw [Nat.sub_zero, slice_all] at hall
  exact hall

end

/-- Adopting a stored body is ingesting its bytes under the contract, and
adopting again without one forgets the first contract. -/
theorem adopt_ingests (P : Platform) (store : ObjectStore P)
    (format : TensorFormat) (stamp : Stamp) (size : UInt64)
    (records : List FileRecord) (content : Slice)
    (hstored : fileBytes store records = some content.bytes)
    (contract : Option Contract) :
    (∀ later adopted,
      adopt store (.tensor format stamp size records) contract =
          .ok (later, adopted) →
        ∃ hashed, planAndHashUnder P content.source contract = .ok hashed ∧
          hashed.body = some adopted) ∧
    (∀ hashed, planAndHashUnder P content.source contract = .ok hashed →
      hashed.planner.tensorFormat = some format →
        ∃ later adopted,
          adopt store (.tensor format stamp size records) contract =
            .ok (later, adopted)) ∧
    (∀ later adopted,
      adopt store (.tensor format stamp size records) contract =
          .ok (later, adopted) → later.CollisionFree →
        (adopt later adopted none).map Prod.snd =
          (adopt store (.tensor format stamp size records) none).map
            Prod.snd) := by
  refine ⟨fun later adopted hadopt => ?_, fun hashed hhashed hformat => ?_,
    fun later adopted hadopt hfree => ?_⟩
  · obtain ⟨plan, hplan, hformat, -, rfl⟩ := (adopt_eq_ok hstored).mp hadopt
    refine ⟨hashedSlice P content.bytes plan, ?_,
      slicedBody_eq_hashed hformat⟩
    rw [planAndHashUnder_slice, hplan]
    rfl
  · rw [planAndHashUnder_slice] at hhashed
    cases hplan : planWith P content.source contract with
    | error failure =>
        rw [hplan] at hhashed
        cases hhashed
    | ok plan =>
        rw [hplan] at hhashed
        cases hhashed
        exact ⟨_, _, (adopt_eq_ok hstored).mpr
          ⟨plan, hplan, hformat, rfl, rfl⟩⟩
  · obtain ⟨plan, hplan, hformat, rfl, rfl⟩ :=
      (adopt_eq_ok hstored).mp hadopt
    obtain ⟨hvalid, hsize⟩ := planWith_ok hplan
    rw [adopt_snd hstored, slicedBody, adopt_snd]
    exact @fileBytes_adopted P store records content format plan hstored hvalid
      hsize hfree

/-! A committed file whose one tensor is a hole. -/

namespace HoleFile

def headerText : Text :=
  ("\x7b\"w\":\x7b\"dtype\":\"U8\",\"shape\":[4]," ++
    "\"data_offsets\":[0,4]\x7d\x7d").toList

def headerJson : Json :=
  .object [("w".toList, .object
    [("dtype".toList, .string "U8".toList),
      ("shape".toList, .array [.number (some 4)]),
      ("data_offsets".toList, .array [.number (some 0), .number (some 4)])])]

def platform : Platform where
  unicode := asciiUnicode
  sha256 := sha256
  json bytes := if bytes = headerText.utf8 then some headerJson else none

def header : Bytes := leBytes 8 headerText.utf8Len ++ headerText.utf8

def content : Slice := ⟨header ++ [0, 0, 0, 0], by decide +kernel⟩

def store : ObjectStore platform := ObjectStore.empty.putBytes header

def records : List FileRecord :=
  [.data (sha256 header) (UInt64.ofNat header.length), .hole 4]

def body : FileBody :=
  .tensor .safetensorsV1 .none (UInt64.ofNat content.bytes.length) records

def contract : Contract := SplitFile.contract 1 1

def regions : List Region :=
  [⟨0, header.length, .header⟩, ⟨header.length, 4, .tensor⟩]

def plan : Plan :=
  ⟨.safetensorsV1, contract.stamp sha256, content.bytes.length, regions⟩

end HoleFile

theorem adopt_ingests_hole :
    ∃ later adopted,
      adopt HoleFile.store HoleFile.body (some HoleFile.contract) =
        .ok (later, adopted) ∧
      later.CollisionFree ∧
      (adopt later adopted none).map Prod.snd =
        (adopt HoleFile.store HoleFile.body none).map Prod.snd := by
  have hstored : fileBytes HoleFile.store HoleFile.records =
      some HoleFile.content.bytes := by
    decide +kernel
  have hplan : planWith HoleFile.platform HoleFile.content.source
      (some HoleFile.contract) = .ok HoleFile.plan := by
    decide +kernel
  have hadopt : adopt HoleFile.store HoleFile.body
      (some HoleFile.contract) = .ok _ :=
    (adopt_eq_ok hstored).mpr ⟨_, hplan, rfl, rfl, rfl⟩
  have hfree : (admitSlices HoleFile.content.bytes HoleFile.store
      (pendingRegions HoleFile.records HoleFile.plan)).CollisionFree := by
    have hdecide : ∀ a ∈ (admitSlices HoleFile.content.bytes HoleFile.store
        (pendingRegions HoleFile.records HoleFile.plan)).admitted,
        ∀ b ∈ (admitSlices HoleFile.content.bytes HoleFile.store
          (pendingRegions HoleFile.records HoleFile.plan)).admitted,
          sha256 a = sha256 b → a = b := by
      decide +kernel
    exact fun a ha b hb heq => hdecide a ha b hb heq
  exact ⟨_, _, hadopt, hfree,
    (adopt_ingests HoleFile.platform HoleFile.store .safetensorsV1 .none _
      HoleFile.records HoleFile.content hstored
      (some HoleFile.contract)).2.2 _ _ hadopt hfree⟩

end TensorFS
