import TensorFS.Data.Sha256
import TensorFS.Tfp1.Codec

namespace TensorFS.Tfp1

open Data

/-! A pack is the one spelling of its objects. -/

theorem orderKey_injective : Function.Injective orderKey := by
  intro left right h
  obtain ⟨leftBytes, hleft⟩ := left
  obtain ⟨rightBytes, hright⟩ := right
  have hbytes : leftBytes = rightBytes :=
    List.map_injective_iff.mpr (fun a b hab => UInt8.toNat_inj.mp hab) h
  subst hbytes
  rfl

/-! Primitives. -/

theorem take_reads (front : Bytes) :
    Reader.Reads (take front.length) front front :=
  fun _ => Reader.take_append

theorem takeU64_reads {n : Nat} (h : n < 2 ^ 64) :
    Reader.Reads takeU64 n (leBytes 8 n) := by
  have hread := Reader.Reads.map (f := leNat) (take_reads (leBytes 8 n))
  rw [leNat_leBytes (by simpa using h), length_leBytes] at hread
  exact hread

theorem takeDigest_reads (digest : Digest) :
    Reader.Reads takeDigest digest digest.bytes := by
  intro rest
  have hlen : ((digest.bytes ++ rest).take 32).length = 32 := by
    rw [List.length_take, List.length_append, digest.size]
    omega
  unfold takeDigest
  rw [dif_pos hlen]
  obtain ⟨bytes, hsize⟩ := digest
  simp only [Except.ok.injEq, Prod.mk.injEq, Digest.mk.injEq]
  rw [← hsize]
  exact ⟨List.take_left, List.drop_left⟩

theorem takeU64_sound {input rest : Bytes} {n : Nat}
    (h : takeU64 input = .ok (n, rest)) :
    n < 2 ^ 64 ∧ input = leBytes 8 n ++ rest := by
  replace h := Reader.bind_eq_ok.mp h
  obtain ⟨bytes, middle, htake, hpure⟩ := h
  obtain ⟨hlen, rfl⟩ := Reader.take_sound htake
  cases hpure
  have hlt := leNat_lt bytes
  have hback := leBytes_leNat bytes
  rw [hlen] at hlt hback
  exact ⟨by simpa using hlt, by rw [hback]⟩

theorem takeDigest_sound {input rest : Bytes} {digest : Digest}
    (h : takeDigest input = .ok (digest, rest)) :
    input = digest.bytes ++ rest := by
  unfold takeDigest at h
  split at h
  · cases h
    exact (List.take_append_drop 32 input).symm
  · cases h

theorem addLength_eq_ok {total length next : Nat} :
    addLength total length = .ok next ↔
      next = total + length ∧ total + length ≤ maxPackPayload := by
  unfold addLength
  cases hsum : checkedAdd total length with
  | none =>
      have hlarge : ¬ total + length ≤ maxPackPayload := by
        intro hle
        have hsome := checkedAdd_eq_some.mpr
          ⟨rfl, lt_of_le_of_lt hle (by decide)⟩
        rw [hsum] at hsome
        cases hsome
      simp [hlarge]
  | some sum =>
      obtain ⟨rfl, -⟩ := checkedAdd_eq_some.mp hsum
      simp only [except_bind_eq_ok, ensure_eq_ok, exists_unit,
        Except.ok.injEq]
      constructor
      · rintro ⟨hle, rfl⟩
        exact ⟨rfl, hle⟩
      · rintro ⟨rfl, hle⟩
        exact ⟨hle, rfl⟩

theorem checkDigestOrder_eq_ok {previous : Option IndexRow}
    {digest : ObjectDigest} {u : Unit} :
    checkDigestOrder previous digest = .ok u ↔
      ∀ row ∈ previous, orderKey row.digest < orderKey digest := by
  cases previous with
  | none => simp [checkDigestOrder]
  | some row =>
      simp only [checkDigestOrder, Option.mem_def, Option.some.injEq,
        forall_eq']
      by_cases hlt : orderKey row.digest < orderKey digest
      · simp [hlt]
      · rw [if_neg hlt]
        split <;> simp [hlt]

/-! The index. -/

def rowsLength (rows : List IndexRow) : Nat := (rows.map IndexRow.length).sum

def objectsLength (objects : List PackObject) : Nat :=
  (objects.map fun object => object.bytes.length).sum

/-- What the parser checks of the rows behind `previous`. -/
def RowsOk : Option IndexRow → Nat → List IndexRow → Prop
  | _, _, [] => True
  | previous, total, row :: rows =>
      row.length ≠ 0 ∧ row.offset = total ∧
        (∀ before ∈ previous, orderKey before.digest < orderKey row.digest) ∧
        total + row.length ≤ maxPackPayload ∧
        RowsOk (some row) (total + row.length) rows

def emitIndex : List IndexRow → Bytes
  | [] => []
  | row :: rows =>
      row.digest.bytes ++ (leBytes 8 row.offset ++
        (leBytes 8 row.length ++ emitIndex rows))

theorem length_emitIndex (rows : List IndexRow) :
    (emitIndex rows).length = rows.length * rowBytes := by
  induction rows with
  | nil => simp [emitIndex]
  | cons row rows ih =>
      have hsize := row.digest.size
      simp only [emitIndex, List.length_append, length_leBytes, ih, rowBytes,
        List.length_cons] at hsize ⊢
      omega

theorem maxPackPayload_lt : maxPackPayload < 2 ^ 64 := by decide

theorem parseRows_reads {previous : Option IndexRow} {total : Nat}
    {rows : List IndexRow} (hok : RowsOk previous total rows) :
    Reader.Reads (parseRows rows.length previous total)
      (rows, total + rowsLength rows) (emitIndex rows) := by
  induction rows generalizing previous total with
  | nil => exact Reader.Reads.pure _
  | cons row rows ih =>
      obtain ⟨hlength, rfl, horder, htotal, hrest⟩ := hok
      have hbound := maxPackPayload_lt
      have hsize : row.length ≤ maxObjectSize := by
        have : maxPackPayload = maxObjectSize := rfl
        omega
      refine (takeDigest_reads row.digest).bind ?_
      refine (takeU64_reads (by omega)).bind ?_
      have hnext := (ih hrest).map
        (f := fun found : List IndexRow × Nat => (row :: found.1, found.2))
      have hsum : row.offset + row.length + rowsLength rows =
          row.offset + rowsLength (row :: rows) := by
        simp only [rowsLength, List.map_cons, List.sum_cons]
        omega
      rw [hsum] at hnext
      refine (takeU64_reads (by omega)).bind ?_
      refine Reader.Reads.ensure hlength ?_
      refine Reader.Reads.ensure hsize ?_
      refine Reader.Reads.ensure rfl ?_
      refine Reader.Reads.lift
        ((checkDigestOrder_eq_ok (u := ())).mpr horder) ?_
      exact Reader.Reads.lift (addLength_eq_ok.mpr ⟨rfl, htotal⟩) hnext

theorem parseRows_sound {count : Nat} {previous : Option IndexRow}
    {total stop : Nat} {input rest : Bytes} {rows : List IndexRow}
    (h : parseRows count previous total input = .ok ((rows, stop), rest)) :
    rows.length = count ∧ RowsOk previous total rows ∧
      stop = total + rowsLength rows ∧ input = emitIndex rows ++ rest := by
  induction count generalizing previous total input rows stop with
  | zero =>
      cases h
      exact ⟨rfl, trivial, rfl, rfl⟩
  | succ count ih =>
      replace h := Reader.bind_eq_ok.mp h
      obtain ⟨digest, afterDigest, hdigest, h⟩ := h
      replace h := Reader.bind_eq_ok.mp h
      obtain ⟨offset, afterOffset, hoffset, h⟩ := h
      replace h := Reader.bind_eq_ok.mp h
      obtain ⟨length, afterLength, hlength, h⟩ := h
      replace h := Reader.bind_eq_ok.mp h
      obtain ⟨_, _, hcheck, h⟩ := h
      obtain ⟨hpos, heq⟩ := Reader.ensure_eq_ok.mp hcheck
      cases heq
      replace h := Reader.bind_eq_ok.mp h
      obtain ⟨_, _, hcheck, h⟩ := h
      obtain ⟨_, heq⟩ := Reader.ensure_eq_ok.mp hcheck
      cases heq
      replace h := Reader.bind_eq_ok.mp h
      obtain ⟨_, _, hcheck, h⟩ := h
      obtain ⟨rfl, heq⟩ := Reader.ensure_eq_ok.mp hcheck
      cases heq
      replace h := Reader.bind_eq_ok.mp h
      obtain ⟨_, _, hcheck, h⟩ := h
      obtain ⟨horder, rfl⟩ := Reader.lift_eq_ok.mp hcheck
      replace h := Reader.bind_eq_ok.mp h
      obtain ⟨next, _, hcheck, h⟩ := h
      obtain ⟨hnext, rfl⟩ := Reader.lift_eq_ok.mp hcheck
      obtain ⟨rfl, htotal⟩ := addLength_eq_ok.mp hnext
      replace h := Reader.bind_eq_ok.mp h
      obtain ⟨found, afterRows, hrows, h⟩ := h
      cases h
      obtain ⟨hcount, hok, hstop, hafter⟩ := ih hrows
      refine ⟨by simp [hcount], ⟨hpos, rfl, checkDigestOrder_eq_ok.mp horder,
        htotal, hok⟩, ?_, ?_⟩
      · rw [hstop]
        simp only [rowsLength, List.map_cons, List.sum_cons]
        omega
      · rw [takeDigest_sound hdigest, (takeU64_sound hoffset).2,
          (takeU64_sound hlength).2, hafter]
        simp [emitIndex]

/-- A pack as the parser leaves it. -/
structure PackOk (pack : Pack) : Prop where
  nonempty : pack.rows ≠ []
  bounded : pack.rows.length ≤ maxPackObjects
  rows : RowsOk none 0 pack.rows
  payload : rowsLength pack.rows = pack.payload.length

def Pack.toBytes (pack : Pack) : Bytes :=
  magic ++ (leBytes 8 pack.rows.length ++
    (emitIndex pack.rows ++ pack.payload))

theorem parseIndex_toBytes {pack : Pack} (hok : PackOk pack) :
    parseIndex pack.toBytes =
      .ok ((pack.rows, pack.payload.length), pack.payload) := by
  have hcount : pack.rows.length < 2 ^ 64 :=
    lt_of_le_of_lt hok.bounded (by decide)
  have hfits : pack.rows.length ≤
      (emitIndex pack.rows ++ pack.payload).length / rowBytes := by
    rw [Nat.le_div_iff_mul_le (by decide), List.length_append,
      length_emitIndex]
    omega
  have hrows := parseRows_reads hok.rows pack.payload
  rw [hok.payload, Nat.zero_add] at hrows
  have hpos : pack.rows.length ≠ 0 := by
    rw [ne_eq, List.length_eq_zero_iff]
    exact hok.nonempty
  have hmagic : Reader.Reads (take 4) magic magic := take_reads magic
  unfold parseIndex Pack.toBytes
  rw [Reader.bind_of_ok (hmagic _),
    Reader.bind_of_ok (Reader.ensure_eq_ok.mpr ⟨rfl, rfl⟩),
    Reader.bind_of_ok (takeU64_reads hcount _),
    Reader.bind_of_ok (Reader.ensure_eq_ok.mpr ⟨hpos, rfl⟩),
    Reader.bind_of_ok (Reader.ensure_eq_ok.mpr ⟨hok.bounded, rfl⟩),
    Reader.bind_of_ok (Reader.remaining_apply _),
    Reader.bind_of_ok (Reader.ensure_eq_ok.mpr ⟨hfits, rfl⟩)]
  exact hrows

theorem parse_eq_ok {bytes : Bytes} {pack : Pack} :
    Pack.parse bytes = .ok pack ↔ PackOk pack ∧ pack.toBytes = bytes := by
  unfold Pack.parse
  simp only [except_bind_eq_ok, Prod.exists, ensure_eq_ok, exists_unit,
    Except.ok.injEq]
  constructor
  · rintro ⟨rows, total, payload, hindex, hle, hge, rfl⟩
    obtain ⟨front, afterMagic, htake, h⟩ := Reader.bind_eq_ok.mp hindex
    replace h := Reader.bind_eq_ok.mp h
    obtain ⟨_, _, hcheck, h⟩ := h
    obtain ⟨rfl, heq⟩ := Reader.ensure_eq_ok.mp hcheck
    cases heq
    replace h := Reader.bind_eq_ok.mp h
    obtain ⟨count, afterCount, hcount, h⟩ := h
    replace h := Reader.bind_eq_ok.mp h
    obtain ⟨_, _, hcheck, h⟩ := h
    obtain ⟨hpos, heq⟩ := Reader.ensure_eq_ok.mp hcheck
    cases heq
    replace h := Reader.bind_eq_ok.mp h
    obtain ⟨_, _, hcheck, h⟩ := h
    obtain ⟨hbounded, heq⟩ := Reader.ensure_eq_ok.mp hcheck
    cases heq
    replace h := Reader.bind_eq_ok.mp h
    obtain ⟨_, _, hremaining, h⟩ := h
    cases hremaining
    replace h := Reader.bind_eq_ok.mp h
    obtain ⟨_, _, hcheck, h⟩ := h
    obtain ⟨_, heq⟩ := Reader.ensure_eq_ok.mp hcheck
    cases heq
    obtain ⟨hlength, hok, htotal, hinput⟩ := parseRows_sound h
    obtain ⟨_, hmagic⟩ := Reader.take_sound htake
    refine ⟨⟨?_, hlength.trans_le hbounded, hok, by simp only; omega⟩, ?_⟩
    · rintro hnil
      simp only at hnil
      rw [hnil] at hlength
      exact hpos hlength.symm
    · rw [Pack.toBytes, hmagic, (takeU64_sound hcount).2, hinput, hlength]
  · rintro ⟨hok, rfl⟩
    exact ⟨pack.rows, pack.payload.length, pack.payload,
      parseIndex_toBytes hok, le_refl _, le_refl _, rfl⟩

/-! The rows cut the payload into the objects. -/

def rowsOf : Nat → List PackObject → List IndexRow
  | _, [] => []
  | offset, object :: objects =>
      ⟨object.digest, offset, object.bytes.length⟩ ::
        rowsOf (offset + object.bytes.length) objects

def cutObjects : List IndexRow → Bytes → List PackObject
  | [], _ => []
  | row :: rows, bytes =>
      ⟨row.digest, bytes.take row.length⟩ ::
        cutObjects rows (bytes.drop row.length)

theorem emitRows_eq (offset : Nat) (objects : List PackObject) :
    emitRows offset objects = emitIndex (rowsOf offset objects) := by
  induction objects generalizing offset with
  | nil => rfl
  | cons object objects ih =>
      rw [emitRows, rowsOf, emitIndex, ih]

@[simp] theorem length_rowsOf (offset : Nat) (objects : List PackObject) :
    (rowsOf offset objects).length = objects.length := by
  induction objects generalizing offset with
  | nil => rfl
  | cons object objects ih => simp [rowsOf, ih]

theorem rowsLength_rowsOf (offset : Nat) (objects : List PackObject) :
    rowsLength (rowsOf offset objects) = objectsLength objects := by
  induction objects generalizing offset with
  | nil => rfl
  | cons object objects ih =>
      have hrest := ih (offset + object.bytes.length)
      simp only [rowsLength, objectsLength] at hrest
      simp only [rowsLength, objectsLength, rowsOf, List.map_cons,
        List.sum_cons, hrest]

theorem length_flatMap_bytes (objects : List PackObject) :
    (objects.flatMap PackObject.bytes).length = objectsLength objects := by
  rw [List.length_flatMap]
  rfl

theorem cutObjects_rowsOf (offset : Nat) (objects : List PackObject) :
    cutObjects (rowsOf offset objects) (objects.flatMap PackObject.bytes) =
      objects := by
  induction objects generalizing offset with
  | nil => rfl
  | cons object objects ih =>
      rw [rowsOf, List.flatMap_cons, cutObjects, List.take_left,
        List.drop_left, ih]

theorem cutObjects_flatMap {rows : List IndexRow} {bytes : Bytes}
    (h : rowsLength rows = bytes.length) :
    (cutObjects rows bytes).flatMap PackObject.bytes = bytes := by
  induction rows generalizing bytes with
  | nil =>
      simp only [rowsLength, List.map_nil, List.sum_nil] at h
      rw [List.length_eq_zero_iff.mp h.symm]
      rfl
  | cons row rows ih =>
      have hsum : row.length + rowsLength rows = bytes.length := by
        rw [← h]
        simp [rowsLength]
      rw [cutObjects, List.flatMap_cons, ih (by
        rw [List.length_drop]
        omega)]
      exact List.take_append_drop _ _

theorem rowsOf_cutObjects {previous : Option IndexRow} {total : Nat}
    {rows : List IndexRow} {bytes : Bytes} (hok : RowsOk previous total rows)
    (h : rowsLength rows = bytes.length) :
    rowsOf total (cutObjects rows bytes) = rows := by
  induction rows generalizing previous total bytes with
  | nil => rfl
  | cons row rows ih =>
      obtain ⟨_, hoffset, _, _, hrest⟩ := hok
      have hsum : row.length + rowsLength rows = bytes.length := by
        rw [← h]
        simp [rowsLength]
      have htake : (bytes.take row.length).length = row.length := by
        rw [List.length_take]
        omega
      rw [cutObjects, rowsOf, htake, ih hrest (by
        rw [List.length_drop]
        omega), ← hoffset]

/-- No slice of a parsed pack is out of range. -/
theorem PackOk.objects_eq {pack : Pack} (hok : PackOk pack) :
    pack.objects = some (cutObjects pack.rows pack.payload) := by
  have hcut : ∀ (rows : List IndexRow) (previous : Option IndexRow)
      (front rest : Bytes), pack.payload = front ++ rest →
      RowsOk previous front.length rows → rowsLength rows = rest.length →
      rows.mapM pack.object = some (cutObjects rows rest) := by
    intro rows
    induction rows with
    | nil =>
        intro _ _ _ _ _ _
        rfl
    | cons row rows ih =>
        intro previous front rest hpayload hrows hlength
        obtain ⟨_, hoffset, _, htotal, hrest⟩ := hrows
        have hsum : row.length + rowsLength rows = rest.length := by
          rw [← hlength]
          simp [rowsLength]
        have hfits := maxPackPayload_lt
        have hinside : row.offset + row.length < 2 ^ 64 ∧
            row.offset + row.length ≤ pack.payload.length := by
          rw [hpayload, List.length_append]
          omega
        have hobject : pack.object row =
            some ⟨row.digest, rest.take row.length⟩ := by
          rw [Pack.object, if_pos hinside, hpayload, hoffset, List.drop_left]
        have hnext := ih (some row) (front ++ rest.take row.length)
          (rest.drop row.length) (by
            rw [List.append_assoc, List.take_append_drop, hpayload]) (by
            rw [List.length_append, List.length_take, min_eq_left (by omega)]
            exact hrest) (by
            rw [List.length_drop]
            omega)
        rw [List.mapM_cons, hobject, hnext]
        rfl
  exact hcut pack.rows none [] pack.payload rfl hok.rows hok.payload

/-! Verified objects. -/

section

variable {sha256 : Bytes → Digest}

theorem verifyRows_eq_ok {pack : Pack} {rows : List IndexRow} {u : Unit}
    {objects : List PackObject}
    (hobjects : rows.mapM pack.object = some objects) :
    verifyRows sha256 pack rows = .ok u ↔
      ∀ object ∈ objects, sha256 object.bytes = object.digest := by
  induction rows generalizing objects with
  | nil =>
      cases hobjects
      simp [verifyRows]
  | cons row rows ih =>
      rw [List.mapM_cons] at hobjects
      simp only [Option.bind_eq_bind, Option.bind_eq_some_iff, Option.pure_def,
        Option.some.injEq] at hobjects
      obtain ⟨object, hobject, rest, hrest, rfl⟩ := hobjects
      simp [verifyRows, hobject, ih hrest]

theorem decode_eq_ok {bytes : Bytes} {pack : Pack} :
    decode sha256 bytes = .ok pack ↔
      PackOk pack ∧ pack.toBytes = bytes ∧
        ∀ object ∈ cutObjects pack.rows pack.payload,
          sha256 object.bytes = object.digest := by
  unfold decode
  simp only [except_bind_eq_ok, refusing_eq_ok, parse_eq_ok, exists_unit,
    Except.ok.injEq]
  constructor
  · rintro ⟨found, ⟨hok, hbytes⟩, hverify, rfl⟩
    exact ⟨hok, hbytes, (verifyRows_eq_ok hok.objects_eq).mp hverify⟩
  · rintro ⟨hok, hbytes, hverify⟩
    exact ⟨pack, ⟨hok, hbytes⟩, (verifyRows_eq_ok hok.objects_eq).mpr hverify,
      rfl⟩

/-! What the builder accepts. -/

/-- The objects one pack can carry. -/
structure Packable (sha256 : Bytes → Digest) (objects : List PackObject) :
    Prop where
  nonempty : objects ≠ []
  bounded : objects.length ≤ maxPackObjects
  inhabited : ∀ object ∈ objects, object.bytes ≠ []
  payload : objectsLength objects ≤ maxPackPayload
  digests : ∀ object ∈ objects, sha256 object.bytes = object.digest
  distinct : (objects.map PackObject.digest).Nodup

theorem Packable.perm {objects others : List PackObject}
    (h : Packable sha256 objects) (hperm : objects.Perm others) :
    Packable sha256 others where
  nonempty := by
    rintro rfl
    exact h.nonempty (List.perm_nil.mp hperm)
  bounded := hperm.length_eq ▸ h.bounded
  inhabited object hobject := h.inhabited object (hperm.mem_iff.mpr hobject)
  payload := by
    have hsum := (hperm.map fun object => object.bytes.length).sum_eq
    rw [objectsLength, ← hsum]
    exact h.payload
  digests object hobject := h.digests object (hperm.mem_iff.mpr hobject)
  distinct := (hperm.map PackObject.digest).nodup_iff.mp h.distinct

theorem checkObjects_eq_ok {total : Nat} {objects : List PackObject}
    {u : Unit} :
    checkObjects sha256 total objects = .ok u ↔
      (∀ object ∈ objects, object.bytes ≠ [] ∧
        sha256 object.bytes = object.digest) ∧
      (objects ≠ [] → total + objectsLength objects ≤ maxPackPayload) := by
  induction objects generalizing total with
  | nil => simp [checkObjects]
  | cons object objects ih =>
      have hlength : objectsLength (object :: objects) =
          object.bytes.length + objectsLength objects := by
        simp [objectsLength]
      simp only [checkObjects, except_bind_eq_ok, ensure_eq_ok, exists_unit,
        addLength_eq_ok, ih, hlength]
      constructor
      · rintro ⟨hbytes, _, _, ⟨rfl, hfits⟩, hdigest, hrest, hpayload⟩
        refine ⟨List.forall_mem_cons.mpr ⟨⟨hbytes, hdigest⟩, hrest⟩, ?_⟩
        intro _
        by_cases hnil : objects = []
        · subst hnil
          simpa [objectsLength] using hfits
        · have := hpayload hnil
          omega
      · rintro ⟨hall, hpayload⟩
        obtain ⟨⟨hbytes, hdigest⟩, hrest⟩ := List.forall_mem_cons.mp hall
        have hfits := hpayload (List.cons_ne_nil _ _)
        have hsame : maxPackPayload = maxObjectSize := rfl
        refine ⟨hbytes, by omega, _, ⟨rfl, by omega⟩, hdigest, hrest, ?_⟩
        intro _
        omega

theorem byDigest_perm (objects : List PackObject) :
    (byDigest objects).Perm objects := List.mergeSort_perm objects _

theorem byDigest_sorted (objects : List PackObject) :
    (byDigest objects).Pairwise fun left right =>
      orderKey left.digest ≤ orderKey right.digest := by
  have hsorted := @List.pairwise_mergeSort PackObject
    (fun left right => decide (orderKey left.digest ≤ orderKey right.digest))
    (by
      intro a b c hab hbc
      simp only [decide_eq_true_eq] at hab hbc ⊢
      exact hab.trans hbc)
    (by
      intro a b
      simp only [Bool.or_eq_true, decide_eq_true_eq]
      exact le_total _ _) objects
  exact hsorted.imp fun hab => of_decide_eq_true hab

/-- Strictly ascending digests. -/
def Ascending (objects : List PackObject) : Prop :=
  objects.Pairwise fun left right =>
    orderKey left.digest < orderKey right.digest

theorem Ascending.byDigest_eq {objects : List PackObject}
    (h : Ascending objects) : byDigest objects = objects := by
  refine List.mergeSort_of_pairwise (h.imp ?_)
  intro left right hlt
  simpa using hlt.le

theorem Ascending.nodup {objects : List PackObject} (h : Ascending objects) :
    (objects.map PackObject.digest).Nodup := by
  refine List.pairwise_map.mpr (h.imp ?_)
  intro left right hlt heq
  rw [heq] at hlt
  exact lt_irrefl _ hlt

theorem checkDistinct_eq_ok {objects : List PackObject} {u : Unit}
    (hsorted : objects.Pairwise fun left right =>
      orderKey left.digest ≤ orderKey right.digest) :
    checkDistinct objects = .ok u ↔ Ascending objects := by
  induction objects with
  | nil => simp [checkDistinct, Ascending]
  | cons left rest ih =>
      cases rest with
      | nil => simp [checkDistinct, Ascending]
      | cons right rest =>
          obtain ⟨hleft, hrest⟩ := List.pairwise_cons.mp hsorted
          simp only [checkDistinct, except_bind_eq_ok, ensure_eq_ok,
            exists_unit, ih hrest]
          constructor
          · rintro ⟨hne, hascending⟩
            have hfirst : orderKey left.digest < orderKey right.digest :=
              lt_of_le_of_ne (hleft right List.mem_cons_self)
                fun heq => hne (orderKey_injective heq)
            refine List.pairwise_cons.mpr ⟨?_, hascending⟩
            refine List.forall_mem_cons.mpr ⟨hfirst, ?_⟩
            intro other hother
            exact hfirst.trans
              ((List.pairwise_cons.mp hascending).1 other hother)
          · intro hascending
            obtain ⟨hfirst, hrest⟩ := List.pairwise_cons.mp hascending
            refine ⟨fun heq => ?_, hrest⟩
            have hlt := hfirst right List.mem_cons_self
            rw [heq] at hlt
            exact lt_irrefl _ hlt

theorem Packable.ascending {objects : List PackObject}
    (h : Packable sha256 objects) : Ascending (byDigest objects) := by
  have hdistinct := (h.perm (byDigest_perm objects).symm).distinct
  have hne : (byDigest objects).Pairwise fun left right =>
      left.digest ≠ right.digest := List.pairwise_map.mp hdistinct
  refine (byDigest_sorted objects).imp₂ ?_ hne
  intro left right hle hdiffer
  exact lt_of_le_of_ne hle fun heq => hdiffer (orderKey_injective heq)

theorem encode_eq_ok {objects : List PackObject} {bytes : Bytes} :
    encode sha256 objects = .ok bytes ↔
      Packable sha256 objects ∧ emit (byDigest objects) = bytes := by
  unfold encode
  simp only [except_bind_eq_ok, ensure_eq_ok, exists_unit, Except.ok.injEq,
    checkObjects_eq_ok, checkDistinct_eq_ok (byDigest_sorted objects),
    Nat.zero_add]
  constructor
  · rintro ⟨hne, hbounded, ⟨hall, hpayload⟩, hascending, hbytes⟩
    refine ⟨⟨hne, hbounded, fun object hobject => (hall object hobject).1,
      hpayload hne, fun object hobject => (hall object hobject).2, ?_⟩, hbytes⟩
    exact ((byDigest_perm objects).map PackObject.digest).nodup_iff.mp
      hascending.nodup
  · rintro ⟨hok, hbytes⟩
    exact ⟨hok.nonempty, hok.bounded, ⟨fun object hobject =>
      ⟨hok.inhabited object hobject, hok.digests object hobject⟩,
      fun _ => hok.payload⟩, hok.ascending, hbytes⟩

theorem checkObjects_refusal {total : Nat} {objects : List PackObject}
    {refusal : Tfp1Error} (hinhabited : ∀ object ∈ objects, object.bytes ≠ [])
    (hpayload : total + objectsLength objects ≤ maxPackPayload)
    (h : checkObjects sha256 total objects = .error refusal) :
    refusal = .digestMismatch := by
  induction objects generalizing total with
  | nil => cases h
  | cons object objects ih =>
      obtain ⟨hbytes, hrest⟩ := List.forall_mem_cons.mp hinhabited
      have hlength : objectsLength (object :: objects) =
          object.bytes.length + objectsLength objects := by
        simp [objectsLength]
      have hsame : maxPackPayload = maxObjectSize := rfl
      have hadd : addLength total object.bytes.length =
          .ok (total + object.bytes.length) :=
        addLength_eq_ok.mpr ⟨rfl, by omega⟩
      rw [checkObjects, ensure_of hbytes, except_ok_bind,
        ensure_of (by omega), except_ok_bind, hadd, except_ok_bind] at h
      rcases Decidable.em (sha256 object.bytes = object.digest) with
        hdigest | hdigest
      · rw [ensure_of hdigest, except_ok_bind] at h
        exact ih hrest (by omega) h
      · rw [ensure_of_not hdigest] at h
        cases h
        rfl

/-- Objects within every bound are refused for their bytes only. -/
theorem encode_refusal {objects : List PackObject} {refusal : Tfp1Error}
    (hnonempty : objects ≠ []) (hbounded : objects.length ≤ maxPackObjects)
    (hinhabited : ∀ object ∈ objects, object.bytes ≠ [])
    (hpayload : objectsLength objects ≤ maxPackPayload)
    (hdistinct : (objects.map PackObject.digest).Nodup)
    (h : encode sha256 objects = .error refusal) :
    refusal = .digestMismatch := by
  have hencode := h
  rw [encode, ensure_of hnonempty, except_ok_bind, ensure_of hbounded,
    except_ok_bind] at hencode
  cases hcheck : checkObjects sha256 0 objects with
  | error found =>
      rw [hcheck] at hencode
      cases hencode
      exact checkObjects_refusal hinhabited (by omega) hcheck
  | ok u =>
      have hall := (checkObjects_eq_ok.mp hcheck).1
      have hpackable : Packable sha256 objects :=
        ⟨hnonempty, hbounded, hinhabited, hpayload,
          fun object hobject => (hall object hobject).2, hdistinct⟩
      rw [encode_eq_ok.mpr ⟨hpackable, rfl⟩] at h
      cases h

/-! Both directions. -/

def packOf (objects : List PackObject) : Pack :=
  ⟨rowsOf 0 objects, objects.flatMap PackObject.bytes⟩

theorem packOf_toBytes (objects : List PackObject) :
    (packOf objects).toBytes = emit objects := by
  rw [Pack.toBytes, emit, emitRows_eq]
  simp only [packOf, length_rowsOf]

theorem rowsOk_rowsOf {objects : List PackObject} {previous : Option IndexRow}
    {total : Nat} (hascending : Ascending objects)
    (hbefore : ∀ row ∈ previous, ∀ object ∈ objects,
      orderKey row.digest < orderKey object.digest)
    (hbytes : ∀ object ∈ objects, object.bytes ≠ [])
    (hpayload : total + objectsLength objects ≤ maxPackPayload) :
    RowsOk previous total (rowsOf total objects) := by
  induction objects generalizing previous total with
  | nil => trivial
  | cons object objects ih =>
      obtain ⟨hfirst, hrest⟩ := List.pairwise_cons.mp hascending
      have hlength : objectsLength (object :: objects) =
          object.bytes.length + objectsLength objects := by
        simp [objectsLength]
      refine ⟨?_, rfl, fun row hrow => hbefore row hrow object
        List.mem_cons_self, ?_, ?_⟩
      · rw [ne_eq, List.length_eq_zero_iff]
        exact hbytes object List.mem_cons_self
      · simp only
        omega
      · have hleft : total + object.bytes.length + objectsLength objects ≤
            maxPackPayload := by omega
        refine ih hrest ?_ (fun other hother =>
          hbytes other (List.mem_cons_of_mem _ hother)) hleft
        intro row hrow
        rw [Option.mem_def, Option.some.injEq] at hrow
        subst hrow
        exact hfirst

theorem Packable.packOk {objects : List PackObject}
    (h : Packable sha256 objects) (hascending : Ascending objects) :
    PackOk (packOf objects) where
  nonempty := by
    intro hnil
    have hlength := length_rowsOf 0 objects
    simp only [packOf] at hnil
    rw [hnil] at hlength
    exact h.nonempty (List.length_eq_zero_iff.mp hlength.symm)
  bounded := by
    simp only [packOf, length_rowsOf]
    exact h.bounded
  rows := rowsOk_rowsOf hascending (by simp) h.inhabited (by
    rw [Nat.zero_add]
    exact h.payload)
  payload := by
    simp only [packOf]
    rw [rowsLength_rowsOf, length_flatMap_bytes]

theorem cutObjects_packOf (objects : List PackObject) :
    cutObjects (packOf objects).rows (packOf objects).payload = objects :=
  cutObjects_rowsOf 0 objects

theorem RowsOk.ascending {previous : Option IndexRow} {total : Nat}
    {rows : List IndexRow} {bytes : Bytes}
    (h : RowsOk previous total rows) :
    (∀ row ∈ previous, ∀ object ∈ cutObjects rows bytes,
      orderKey row.digest < orderKey object.digest) ∧
      Ascending (cutObjects rows bytes) := by
  induction rows generalizing previous total bytes with
  | nil => exact ⟨by simp [cutObjects], List.Pairwise.nil⟩
  | cons row rows ih =>
      obtain ⟨_, _, horder, _, hrest⟩ := h
      obtain ⟨hnext, hascending⟩ := @ih (some row) (total + row.length)
        (bytes.drop row.length) hrest
      have hafter := hnext row rfl
      refine ⟨?_, List.pairwise_cons.mpr ⟨hafter, hascending⟩⟩
      intro before hbefore
      refine List.forall_mem_cons.mpr ⟨horder before hbefore, ?_⟩
      intro object hobject
      exact (horder before hbefore).trans (hafter object hobject)

theorem RowsOk.inhabited {previous : Option IndexRow} {total : Nat}
    {rows : List IndexRow} {bytes : Bytes} (h : RowsOk previous total rows)
    (hlength : rowsLength rows = bytes.length) :
    ∀ object ∈ cutObjects rows bytes, object.bytes ≠ [] := by
  induction rows generalizing previous total bytes with
  | nil => simp [cutObjects]
  | cons row rows ih =>
      obtain ⟨hpos, _, _, _, hrest⟩ := h
      have hsum : row.length + rowsLength rows = bytes.length := by
        rw [← hlength]
        simp [rowsLength]
      refine List.forall_mem_cons.mpr ⟨?_, ih hrest (by
        rw [List.length_drop]
        omega)⟩
      rw [ne_eq, ← List.length_eq_zero_iff, List.length_take]
      omega

theorem RowsOk.payload_le {previous : Option IndexRow} {total : Nat}
    {rows : List IndexRow} (h : RowsOk previous total rows) (hne : rows ≠ []) :
    total + rowsLength rows ≤ maxPackPayload := by
  induction rows generalizing previous total with
  | nil => exact absurd rfl hne
  | cons row rows ih =>
      obtain ⟨_, _, _, htotal, hrest⟩ := h
      by_cases hnil : rows = []
      · subst hnil
        simpa [rowsLength] using htotal
      · have := ih hrest hnil
        simp only [rowsLength, List.map_cons, List.sum_cons] at this ⊢
        omega

theorem length_cutObjects (rows : List IndexRow) (bytes : Bytes) :
    (cutObjects rows bytes).length = rows.length := by
  induction rows generalizing bytes with
  | nil => rfl
  | cons row rows ih => simp [cutObjects, ih]

/-- The builder accepts exactly the packable lists; the decoder gives back
their objects in digest order, and whatever it accepts is what the builder
writes for the objects it holds. -/
theorem pack_canonical (sha256 : Bytes → Digest) :
    (∀ objects, (∃ bytes, encode sha256 objects = .ok bytes) ↔
      Packable sha256 objects) ∧
    (∀ objects bytes, encode sha256 objects = .ok bytes →
      (∃ pack sorted, decode sha256 bytes = .ok pack ∧
        pack.objects = some sorted ∧ sorted.Perm objects ∧
          Ascending sorted) ∧
      ∀ others, objects.Perm others → encode sha256 others = .ok bytes) ∧
    ∀ bytes pack, decode sha256 bytes = .ok pack →
      ∃ objects, pack.objects = some objects ∧
        encode sha256 objects = .ok bytes := by
  refine ⟨fun objects => ?_, fun objects bytes h => ?_, fun bytes pack h => ?_⟩
  · simp only [encode_eq_ok, exists_and_left, exists_eq', and_true]
  · obtain ⟨hok, rfl⟩ := encode_eq_ok.mp h
    have hperm := byDigest_perm objects
    have hsorted := hok.perm hperm.symm
    have hascending := hok.ascending
    have hpack := hsorted.packOk hascending
    refine ⟨⟨packOf (byDigest objects), byDigest objects, ?_, ?_, hperm,
      hascending⟩, ?_⟩
    · refine decode_eq_ok.mpr ⟨hpack, packOf_toBytes _, ?_⟩
      rw [cutObjects_packOf]
      exact hsorted.digests
    · rw [hpack.objects_eq, cutObjects_packOf]
    · intro others hothers
      refine encode_eq_ok.mpr ⟨hok.perm hothers, ?_⟩
      have hsame : byDigest others = byDigest objects := by
        refine ((byDigest_perm others).trans
          (hothers.symm.trans hperm.symm)).eq_of_pairwise ?_
          (hok.perm hothers).ascending hascending
        intro left right _ _ hlt hgt
        exact absurd hgt (lt_asymm hlt)
      rw [hsame]
  · obtain ⟨hok, rfl, hdigests⟩ := decode_eq_ok.mp h
    have hrows := @rowsOf_cutObjects none 0 pack.rows pack.payload hok.rows
      hok.payload
    have hbytes := cutObjects_flatMap hok.payload
    have hascending := (@RowsOk.ascending none 0 pack.rows pack.payload
      hok.rows).2
    have hpackOf : packOf (cutObjects pack.rows pack.payload) = pack := by
      rw [packOf, hrows, hbytes]
    refine ⟨cutObjects pack.rows pack.payload, hok.objects_eq,
      encode_eq_ok.mpr ⟨?_, ?_⟩⟩
    · refine ⟨?_, ?_, hok.rows.inhabited hok.payload, ?_, hdigests,
        hascending.nodup⟩
      · intro hnil
        have hlength := length_cutObjects pack.rows pack.payload
        rw [hnil] at hlength
        exact hok.nonempty (List.length_eq_zero_iff.mp hlength.symm)
      · rw [length_cutObjects]
        exact hok.bounded
      · rw [← length_flatMap_bytes, hbytes, ← hok.payload]
        have hle := hok.rows.payload_le hok.nonempty
        omega
    · rw [hascending.byDigest_eq, ← packOf_toBytes, hpackOf]

end

def twoObjects : List PackObject :=
  [⟨sha256 [1], [1]⟩, ⟨sha256 [2, 3], [2, 3]⟩]

theorem twoObjects_packable : Packable sha256 twoObjects where
  nonempty := by decide
  bounded := by decide
  inhabited := by decide
  payload := by decide
  digests := by decide +kernel
  distinct := by decide +kernel

/-- Two objects in either order make one pack, which reads back. -/
theorem pack_canonical_twoObjects :
    ∃ bytes, encode sha256 twoObjects = .ok bytes ∧
      encode sha256 twoObjects.reverse = .ok bytes ∧
        ∃ pack, decode sha256 bytes = .ok pack := by
  obtain ⟨hencodes, hround, _⟩ := pack_canonical sha256
  obtain ⟨bytes, hbytes⟩ := (hencodes twoObjects).mpr twoObjects_packable
  obtain ⟨⟨pack, _, hdecode, _⟩, hperm⟩ := hround twoObjects bytes hbytes
  exact ⟨bytes, hbytes, hperm _ (List.reverse_perm twoObjects).symm, pack,
    hdecode⟩

end TensorFS.Tfp1
