import TensorFS.Sync.Lanes
import TensorFS.Tfm1.Bijection

namespace TensorFS

theorem BodyOk.records_ne_zero {body : FileBody} (hok : BodyOk body) :
    ∀ record ∈ body.records, record.length ≠ 0 := by
  cases body with
  | tensor format contract logicalSize records =>
      exact (validateRecords_eq_ok.mp hok).1.shape.ne_zero
  | blob logicalSize digest =>
      intro record hrecord
      simp only [FileBody.records] at hrecord
      split at hrecord
      · cases hrecord
      · rename_i hsize
        rw [List.mem_singleton.mp hrecord]
        exact hsize

end TensorFS

namespace TensorFS.Sync

open Data

/-! Every pack a push assembles can be encoded. -/

/-- The exact payload of a run of rows. -/
def rowsLength (rows : List Row) : Nat := (rows.map fun row => row.2.toNat).sum

@[simp] theorem rowsLength_append (left right : List Row) :
    rowsLength (left ++ right) = rowsLength left + rowsLength right := by
  simp [rowsLength]

@[simp] theorem rowsLength_singleton (row : Row) :
    rowsLength [row] = row.2.toNat := by
  simp [rowsLength]

/-! The closure. -/

theorem firstSeen_mem {seen : List ObjectDigest} {rows : List Row} {row : Row}
    (h : row ∈ firstSeen seen rows) : row ∈ rows ∧ row.1 ∉ seen := by
  induction rows generalizing seen with
  | nil => cases h
  | cons head rows ih =>
      rw [firstSeen] at h
      split at h
      · exact ⟨List.mem_cons_of_mem _ (ih h).1, (ih h).2⟩
      · rename_i hfresh
        rcases List.mem_cons.mp h with rfl | h
        · exact ⟨List.mem_cons_self, hfresh⟩
        · obtain ⟨hmem, hseen⟩ := ih h
          exact ⟨List.mem_cons_of_mem _ hmem,
            fun hin => hseen (List.mem_cons_of_mem _ hin)⟩

theorem firstSeen_nodup (seen : List ObjectDigest) (rows : List Row) :
    ((firstSeen seen rows).map Prod.fst).Nodup := by
  induction rows generalizing seen with
  | nil => exact List.nodup_nil
  | cons head rows ih =>
      rw [firstSeen]
      split
      · exact ih seen
      · refine List.nodup_cons.mpr ⟨?_, ih _⟩
        intro hin
        obtain ⟨row, hrow, heq⟩ := List.mem_map.mp hin
        exact (firstSeen_mem hrow).2 (heq ▸ List.mem_cons_self)

theorem dataClosure_nodup (snapshot : Snapshot) :
    ((dataClosure snapshot).map Prod.fst).Nodup :=
  firstSeen_nodup [] _

theorem dataClosure_ne_zero {U : Unicode} {snapshot : Snapshot}
    (hcanonical : Canonical U snapshot) :
    ∀ row ∈ dataClosure snapshot, row.2 ≠ 0 := by
  intro row hrow
  obtain ⟨record, hrecord, hdata⟩ :=
    List.mem_filterMap.mp (firstSeen_mem hrow).1
  obtain ⟨pair, hpair, hrecord⟩ := List.mem_flatMap.mp hrecord
  have hentry := hcanonical.entryOk hpair
  obtain ⟨path, entry⟩ := pair
  cases entry with
  | directory => cases hrecord
  | symlink target => cases hrecord
  | hardlink ordinal => cases hrecord
  | file executable body =>
      obtain ⟨-, assigned, hbody⟩ := hentry
      have hlength := BodyOk.records_ne_zero hbody record hrecord
      cases record with
      | hole length => cases hdata
      | data digest length =>
          cases hdata
          exact hlength

/-! The lanes. -/

theorem scanTo_eq_some {digest : ObjectDigest} {rows behind : List Row}
    {length : UInt64} (h : scanTo digest rows = some (length, behind)) :
    ∃ front, rows = front ++ (digest, length) :: behind := by
  induction rows with
  | nil => cases h
  | cons head rows ih =>
      rw [scanTo] at h
      split at h
      · rename_i hsame
        cases h
        exact ⟨[], by rw [← hsame]; rfl⟩
      · obtain ⟨front, hrows⟩ := ih h
        exact ⟨head :: front, by rw [hrows]; rfl⟩

theorem verifyCanonicalMissing_sublist {closure missing : List Row}
    {u : Unit} (h : verifyCanonicalMissing closure missing = .ok u) :
    missing.Sublist closure := by
  induction missing generalizing closure with
  | nil => exact List.nil_sublist closure
  | cons head missing ih =>
      obtain ⟨digest, length⟩ := head
      rw [verifyCanonicalMissing] at h
      split at h
      · cases h
      · rename_i expected behind hscan
        simp only [except_bind_eq_ok, ensure_eq_ok, exists_unit] at h
        obtain ⟨rfl, hrest⟩ := h
        obtain ⟨front, rfl⟩ := scanTo_eq_some hscan
        exact ((ih hrest).cons_cons _).trans (List.sublist_append_right _ _)

/-- An answer the client works with. -/
structure Lanes (closure missing missingBlobs : List Row)
    (maxPayload : UInt64) : Prop where
  packed : ∀ row ∈ missing, row.2 ≤ maxPayload
  blobs : ∀ row ∈ missingBlobs, ¬ row.2 ≤ maxPayload
  packOrder : missing.Sublist closure
  blobOrder : missingBlobs.Sublist closure

theorem verifyLanes_ok {closure missing missingBlobs : List Row}
    {maxPayload : UInt64} {u : Unit}
    (h : verifyLanes closure missing missingBlobs maxPayload = .ok u) :
    Lanes closure missing missingBlobs maxPayload := by
  simp only [verifyLanes, except_bind_eq_ok, exists_unit, checkAll_eq_ok,
    ensure_eq_ok] at h
  obtain ⟨hmissing, hblobs, hpacked, hlarge⟩ := h
  exact ⟨hpacked, hlarge, verifyCanonicalMissing_sublist hmissing,
    verifyCanonicalMissing_sublist hblobs⟩

/-- No object rides in both lanes. -/
theorem Lanes.disjoint {closure missing missingBlobs : List Row}
    {maxPayload : UInt64} (h : Lanes closure missing missingBlobs maxPayload)
    (hnodup : (closure.map Prod.fst).Nodup) :
    (missing.map Prod.fst).Disjoint (missingBlobs.map Prod.fst) := by
  intro digest hpack hblob
  obtain ⟨left, hleft, rfl⟩ := List.mem_map.mp hpack
  obtain ⟨right, hright, hsame⟩ := List.mem_map.mp hblob
  have hrow : right = left := List.inj_on_of_nodup_map hnodup
    (h.blobOrder.subset hright) (h.packOrder.subset hleft) hsame
  exact h.blobs right hright (hrow ▸ h.packed left hleft)

theorem payloadBound_toNat (stated : UInt64) :
    (payloadBound stated).toNat =
      if stated = 0 then Tfp1.maxPackPayload
      else min stated.toNat Tfp1.maxPackPayload := by
  have hformat : (UInt64.ofNat Tfp1.maxPackPayload).toNat =
      Tfp1.maxPackPayload := by decide
  rw [payloadBound]
  split
  · exact hformat
  · change (if stated ≤ UInt64.ofNat Tfp1.maxPackPayload then stated
      else UInt64.ofNat Tfp1.maxPackPayload).toNat = _
    simp only [min_def, UInt64.le_iff_toNat_le, hformat]
    split
    · rfl
    · exact hformat

theorem payloadBound_le (stated : UInt64) :
    (payloadBound stated).toNat ≤ Tfp1.maxPackPayload := by
  rw [payloadBound_toNat]
  split
  · exact le_rfl
  · exact min_le_right _ _

/-! The greedy loop. -/

/-- A pack within its bounds. -/
structure Packed (maxPayload : UInt64) (group : List Row) : Prop where
  nonempty : group ≠ []
  bounded : group.length ≤ Tfp1.maxPackObjects
  payload : rowsLength group ≤ maxPayload.toNat

/-- Between two rows: the packs spell the rows so far, and the running sum is
the open pack's. -/
structure Assembled (maxPayload : UInt64) (rows : List Row)
    (packing : Packing) : Prop where
  order : packing.groups.flatten ++ packing.group = rows
  closed : ∀ group ∈ packing.groups, Packed maxPayload group
  bytes : packing.groupBytes.toNat = rowsLength packing.group
  payload : rowsLength packing.group ≤ maxPayload.toNat
  bounded : packing.group.length ≤ Tfp1.maxPackObjects

/-- The next sum is exact. -/
theorem Assembled.sum_lt {maxPayload : UInt64} {rows : List Row}
    {packing : Packing} (h : Assembled maxPayload rows packing)
    (hbound : maxPayload.toNat ≤ Tfp1.maxPackPayload) {row : Row}
    (hrow : row.2 ≤ maxPayload) :
    packing.groupBytes.toNat + row.2.toNat < 2 ^ 64 := by
  have hfits : Tfp1.maxPackPayload + Tfp1.maxPackPayload < 2 ^ 64 := by decide
  have hrow := UInt64.le_iff_toNat_le.mp hrow
  have hsum := h.bytes ▸ h.payload
  omega

theorem toNat_add_of_lt {a b : UInt64} (h : a.toNat + b.toNat < 2 ^ 64) :
    (a + b).toNat = a.toNat + b.toNat := by
  rw [UInt64.toNat_add, Nat.mod_eq_of_lt h]

theorem Assembled.push {maxPayload : UInt64} {rows : List Row}
    {packing : Packing} {row : Row} (h : Assembled maxPayload rows packing)
    (hsum : packing.groupBytes.toNat + row.2.toNat < 2 ^ 64)
    (hpayload : packing.groupBytes.toNat + row.2.toNat ≤ maxPayload.toNat)
    (hcount : packing.group.length < Tfp1.maxPackObjects) :
    Assembled maxPayload (rows ++ [row]) (packing.push row) where
  order := by
    rw [← h.order]
    exact (List.append_assoc _ _ _).symm
  closed := h.closed
  bytes := by
    rw [Packing.push, rowsLength_append, rowsLength_singleton, ← h.bytes]
    exact toNat_add_of_lt hsum
  payload := by
    rw [Packing.push, rowsLength_append, rowsLength_singleton, ← h.bytes]
    exact hpayload
  bounded := by
    rw [Packing.push, List.length_append]
    exact hcount

theorem Assembled.flush {maxPayload : UInt64} {rows : List Row}
    {packing : Packing} (h : Assembled maxPayload rows packing)
    (hopen : packing.group ≠ []) :
    Assembled maxPayload rows packing.flush where
  order := by
    rw [← h.order]
    simp [Packing.flush]
  closed := by
    intro group hgroup
    rcases List.mem_append.mp hgroup with hgroup | hgroup
    · exact h.closed group hgroup
    · rw [List.mem_singleton.mp hgroup]
      exact ⟨hopen, h.bounded, h.payload⟩
  bytes := rfl
  payload := Nat.zero_le _
  bounded := Nat.zero_le _

theorem Assembled.step {maxPayload : UInt64} {rows : List Row}
    {packing : Packing} {row : Row} (h : Assembled maxPayload rows packing)
    (hbound : maxPayload.toNat ≤ Tfp1.maxPackPayload)
    (hrow : row.2 ≤ maxPayload) :
    Assembled maxPayload (rows ++ [row])
      (Packing.step maxPayload packing row) := by
  have hsum := h.sum_lt hbound hrow
  have hrow' := UInt64.le_iff_toNat_le.mp hrow
  have hnone : 0 < Tfp1.maxPackObjects := by decide
  simp only [Packing.step]
  split
  · rename_i hfull
    have hflushed := h.flush hfull.1
    have hempty : packing.flush.groupBytes.toNat = 0 := rfl
    exact hflushed.push (hflushed.sum_lt hbound hrow) (by omega) hnone
  · rename_i hroom
    rcases Decidable.em (packing.group = []) with hempty | hopen
    · have hbytes : packing.groupBytes.toNat = 0 := by
        rw [h.bytes, hempty]
        rfl
      refine h.push hsum (by omega) ?_
      rw [hempty]
      exact hnone
    · have hfits := not_or.mp fun hover => hroom ⟨hopen, hover⟩
      refine h.push hsum ?_ (by omega)
      rw [← toNat_add_of_lt hsum]
      exact UInt64.le_iff_toNat_le.mp (UInt64.not_lt.mp hfits.1)

theorem Assembled.foldl {maxPayload : UInt64} {rows front : List Row}
    {packing : Packing} (h : Assembled maxPayload front packing)
    (hbound : maxPayload.toNat ≤ Tfp1.maxPackPayload)
    (hrows : ∀ row ∈ rows, row.2 ≤ maxPayload) :
    Assembled maxPayload (front ++ rows)
      (rows.foldl (Packing.step maxPayload) packing) := by
  induction rows generalizing front packing with
  | nil => simpa using h
  | cons row rows ih =>
      obtain ⟨hrow, hrest⟩ := List.forall_mem_cons.mp hrows
      have hnext := ih (h.step hbound hrow) hrest
      rwa [List.append_assoc] at hnext

theorem Assembled.start (maxPayload : UInt64) :
    Assembled maxPayload [] {} where
  order := rfl
  closed := by simp
  bytes := rfl
  payload := Nat.zero_le _
  bounded := Nat.zero_le _

/-- The packs of a lane spell it in order, each within its bounds. -/
theorem packGroups_packed {maxPayload : UInt64} {missing : List Row}
    (hbound : maxPayload.toNat ≤ Tfp1.maxPackPayload)
    (hrows : ∀ row ∈ missing, row.2 ≤ maxPayload) :
    (packGroups maxPayload missing).flatten = missing ∧
      ∀ group ∈ packGroups maxPayload missing, Packed maxPayload group := by
  have h := (Assembled.start maxPayload).foldl hbound hrows
  rw [List.nil_append] at h
  simp only [packGroups]
  split
  · rename_i hopen
    have hflushed := h.flush hopen
    exact ⟨by simpa [Packing.flush] using hflushed.order, hflushed.closed⟩
  · rename_i hempty
    have horder := h.order
    rw [not_not.mp hempty, List.append_nil] at horder
    exact ⟨horder, h.closed⟩

/-! Loading. -/

theorem loadPackMembers_eq_ok {disk : Disk} {members : List Row}
    {loaded : List Tfp1.PackObject}
    (h : loadPackMembers disk members = .ok loaded) :
    loaded.map (fun object => (object.digest, object.bytes.length)) =
      members.map fun row => (row.1, row.2.toNat) := by
  induction members generalizing loaded with
  | nil =>
      cases h
      rfl
  | cons row members ih =>
      obtain ⟨digest, expected⟩ := row
      simp only [loadPackMembers, except_bind_eq_ok, ensure_eq_ok,
        exists_unit, Except.ok.injEq] at h
      obtain ⟨bytes, -, hlength, rest, hrest, rfl⟩ := h
      simp only [List.map_cons, hlength, ih hrest]

/-- What the encoder can find wrong with the members of a pack. -/
theorem Packed.refusal {maxPayload : UInt64} {members : List Row}
    (h : Packed maxPayload members)
    (hbound : maxPayload.toNat ≤ Tfp1.maxPackPayload)
    (hnodup : (members.map Prod.fst).Nodup)
    (hlengths : ∀ row ∈ members, row.2 ≠ 0) {sha256 : Bytes → Digest}
    {disk : Disk} {loaded : List Tfp1.PackObject}
    (hload : loadPackMembers disk members = .ok loaded)
    {error : Tfp1.Tfp1Error} (hencode : Tfp1.encode sha256 loaded = .error error) :
    error = .digestMismatch := by
  have hshape := loadPackMembers_eq_ok hload
  have hcount : loaded.length = members.length := by
    simpa using congrArg List.length hshape
  have hdigests : loaded.map Tfp1.PackObject.digest = members.map Prod.fst := by
    simpa [Function.comp_def] using congrArg (List.map Prod.fst) hshape
  have hbytes : loaded.map (fun object => object.bytes.length) =
      members.map fun row => row.2.toNat := by
    simpa [Function.comp_def] using congrArg (List.map Prod.snd) hshape
  refine Tfp1.encode_refusal ?_ (hcount ▸ h.bounded) ?_ ?_
    (hdigests ▸ hnodup) hencode
  · rintro rfl
    exact h.nonempty (List.length_eq_zero_iff.mp hcount.symm)
  · intro object hobject hempty
    have hmem : object.bytes.length ∈ members.map fun row => row.2.toNat :=
      hbytes ▸ List.mem_map_of_mem hobject
    obtain ⟨row, hrow, hzero⟩ := List.mem_map.mp hmem
    refine hlengths row hrow (UInt64.toNat_inj.mp ?_)
    rw [hzero, hempty]
    rfl
  · rw [Tfp1.objectsLength, hbytes]
    exact h.payload.trans hbound

/-- A lane the client accepts is cut into packs that the encoder refuses for
damaged bytes only. -/
theorem packs_encodable (U : Unicode) (sha256 : Bytes → Digest) {bytes : Bytes}
    {snapshot : Snapshot} (hdecode : decode U bytes = .ok snapshot)
    {stated : UInt64} {missing missingBlobs : List Row}
    (hlanes : verifyLanes (dataClosure snapshot) missing missingBlobs
      (payloadBound stated) = .ok ()) :
    missing.Sublist (dataClosure snapshot) ∧
      (packGroups (payloadBound stated) missing).flatten = missing ∧
      (∀ members ∈ packGroups (payloadBound stated) missing,
        members ≠ [] ∧ members.length ≤ Tfp1.maxPackObjects ∧
          (members.map Prod.fst).Nodup ∧
          rowsLength members ≤
            (if stated = 0 then Tfp1.maxPackPayload
              else min stated.toNat Tfp1.maxPackPayload) ∧
          ∀ disk loaded error, loadPackMembers disk members = .ok loaded →
            Tfp1.encode sha256 loaded = .error error →
              error = .digestMismatch) ∧
      (missing.map Prod.fst).Disjoint (missingBlobs.map Prod.fst) ∧
      ∀ front row behind, missing = front ++ row :: behind →
        let packing := front.foldl (Packing.step (payloadBound stated)) {}
        packing.groupBytes.toNat = rowsLength packing.group ∧
          packing.groupBytes.toNat + row.2.toNat < 2 ^ 64 := by
  have hcanonical := (decode_eq_ok.mp hdecode).1
  have hok := verifyLanes_ok hlanes
  have hbound := payloadBound_le stated
  have hnodup : (missing.map Prod.fst).Nodup :=
    (hok.packOrder.map Prod.fst).nodup (dataClosure_nodup snapshot)
  obtain ⟨hflatten, hpacked⟩ := packGroups_packed hbound hok.packed
  refine ⟨hok.packOrder, hflatten, ?_, hok.disjoint (dataClosure_nodup _), ?_⟩
  · intro members hmembers
    have hpack := hpacked members hmembers
    have hsublist : members.Sublist missing :=
      hflatten ▸ List.sublist_flatten_of_mem hmembers
    have hdistinct := (hsublist.map Prod.fst).nodup hnodup
    have hlengths : ∀ row ∈ members, row.2 ≠ 0 := fun row hrow =>
      dataClosure_ne_zero hcanonical row
        (hok.packOrder.subset (hsublist.subset hrow))
    exact ⟨hpack.nonempty, hpack.bounded, hdistinct,
      payloadBound_toNat stated ▸ hpack.payload, fun disk loaded error hload =>
        hpack.refusal hbound hdistinct hlengths hload⟩
  · rintro front row behind rfl
    obtain ⟨hfront, hrow⟩ := List.forall_mem_append.mp hok.packed
    have hassembled := (Assembled.start _).foldl hbound hfront
    exact ⟨hassembled.bytes,
      hassembled.sum_lt hbound (hrow row List.mem_cons_self)⟩

/-- A remote that states no bound gets packs up to the format's own. -/
theorem packs_exceed_stated_zero :
    decode asciiUnicode aliasSnapshot.toBytes = .ok aliasSnapshot ∧
      verifyLanes (dataClosure aliasSnapshot) [(aliasDigest, 7)] []
        (payloadBound 0) = .ok () ∧
      ¬ ∀ members ∈ packGroups (payloadBound 0) [(aliasDigest, 7)],
        rowsLength members ≤ min (0 : UInt64).toNat Tfp1.maxPackPayload := by
  decide +kernel

/-! Three objects in two packs and one in the blob lane. -/

namespace TwoPacks

def object (byte : UInt8) : ObjectDigest :=
  ⟨List.replicate 32 byte, List.length_replicate⟩

def file (byte : UInt8) (length : UInt64) : Entry :=
  .file false (.blob length (object byte))

def snapshot : Snapshot :=
  ⟨none, [(['a'], file 1 3), (['b'], file 2 4), (['c'], file 3 20),
    (['d'], file 4 6)]⟩

def packed : List Row := [(object 1, 3), (object 2, 4), (object 4, 6)]

end TwoPacks

theorem packs_encodable_two :
    packGroups (payloadBound 8) TwoPacks.packed =
        [[(TwoPacks.object 1, 3), (TwoPacks.object 2, 4)],
          [(TwoPacks.object 4, 6)]] ∧
      TwoPacks.packed.Sublist (dataClosure TwoPacks.snapshot) ∧
      ∀ disk loaded error,
        loadPackMembers disk
            [(TwoPacks.object 1, 3), (TwoPacks.object 2, 4)] = .ok loaded →
          Tfp1.encode TensorFS.sha256 loaded = .error error →
            error = .digestMismatch := by
  have hgroups : packGroups (payloadBound 8) TwoPacks.packed =
      [[(TwoPacks.object 1, 3), (TwoPacks.object 2, 4)],
        [(TwoPacks.object 4, 6)]] := by
    decide +kernel
  have h := packs_encodable asciiUnicode TensorFS.sha256
    (show decode asciiUnicode TwoPacks.snapshot.toBytes =
      .ok TwoPacks.snapshot by decide +kernel)
    (show verifyLanes (dataClosure TwoPacks.snapshot) TwoPacks.packed
      [(TwoPacks.object 3, 20)] (payloadBound 8) = .ok () by decide +kernel)
  exact ⟨hgroups, h.1, (h.2.2.1 _ (hgroups ▸ List.mem_cons_self)).2.2.2.2⟩

end TensorFS.Sync
