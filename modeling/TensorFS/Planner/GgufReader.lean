import TensorFS.Planner.Gguf

namespace TensorFS.Gguf

open Data

/-! The reader stays inside the source, moves forward and, on a stable source,
refuses only as invalid. -/

/-- What one read may do to the position it started from. -/
def SafeFrom {α : Type} (source : ByteSource) (cursor : Cursor) :
    Except ParseFailure (α × Cursor) → Prop
  | .ok (_, next) =>
      cursor.position ≤ next.position ∧ next.position ≤ source.len
  | .error refusal => refusal = .invalid

structure Safe {α : Type} (source : ByteSource) (m : Parser α) : Prop where
  from_cursor : ∀ cursor, cursor.position ≤ source.len →
    SafeFrom source cursor (m cursor)

section Bind

variable {α β : Type} {source : ByteSource}

theorem SafeFrom.bind {m : Parser α} {f : α → Parser β} {cursor : Cursor}
    (hm : SafeFrom source cursor (m cursor))
    (hf : ∀ a next, m cursor = .ok (a, next) →
      SafeFrom source next (f a next)) :
    SafeFrom source cursor ((m >>= f) cursor) := by
  change SafeFrom source cursor (m cursor >>= fun p => f p.1 p.2)
  cases hrun : m cursor with
  | error refusal =>
      rw [hrun] at hm
      exact hm
  | ok found =>
      obtain ⟨a, next⟩ := found
      rw [hrun] at hm
      have hnext := hf a next hrun
      rw [except_ok_bind]
      cases hrest : f a next with
      | error refusal =>
          rw [hrest] at hnext
          exact hnext
      | ok last =>
          rw [hrest] at hnext
          exact ⟨hm.1.trans hnext.1, hnext.2⟩

theorem Safe.bind {m : Parser α} {f : α → Parser β} (hm : Safe source m)
    (hf : ∀ a, Safe source (f a)) : Safe source (m >>= f) := by
  constructor
  intro cursor hcursor
  have hfirst := hm.from_cursor cursor hcursor
  refine hfirst.bind fun a next hrun => (hf a).from_cursor next ?_
  rw [hrun] at hfirst
  exact hfirst.2

theorem Safe.pure (a : α) : Safe source (pure a : Parser α) :=
  ⟨fun _ hcursor => ⟨le_refl _, hcursor⟩⟩

theorem Safe.guarded (p : Prop) [Decidable p] :
    Safe source (guarded p) := by
  constructor
  intro cursor hcursor
  unfold Gguf.guarded
  split
  · exact ⟨le_refl _, hcursor⟩
  · exact rfl

theorem Safe.orInvalid (found : Option α) :
    Safe source (orInvalid found) := by
  cases found with
  | none => exact ⟨fun _ _ => rfl⟩
  | some value => exact Safe.pure value

theorem Safe.remaining : Safe source (remaining source) :=
  ⟨fun _ hcursor => ⟨le_refl _, hcursor⟩⟩

theorem Safe.position : Safe source position :=
  ⟨fun _ hcursor => ⟨le_refl _, hcursor⟩⟩

theorem Safe.clearLimit : Safe source clearLimit :=
  ⟨fun _ hcursor => ⟨le_refl _, hcursor⟩⟩

theorem Safe.limitNext (length : Nat) : Safe source (limitNext length) := by
  constructor
  intro cursor hcursor
  unfold Gguf.limitNext
  split
  · exact ⟨le_refl _, hcursor⟩
  · exact rfl

theorem Safe.charge (count : Nat) : Safe source (charge count) := by
  constructor
  intro cursor hcursor
  unfold Gguf.charge
  split
  · exact ⟨le_refl _, hcursor⟩
  · exact rfl

theorem Safe.chargeBytes (count : Nat) : Safe source (chargeBytes count) := by
  constructor
  intro cursor hcursor
  unfold Gguf.chargeBytes
  split
  · exact ⟨le_refl _, hcursor⟩
  · exact rfl

theorem Safe.chargeSymbolBytes (length : Nat) :
    Safe source (chargeSymbolBytes length) := by
  constructor
  intro cursor hcursor
  unfold Gguf.chargeSymbolBytes
  split
  · exact ⟨le_refl _, hcursor⟩
  · exact rfl

/-- After the bound check the rest runs from the same cursor, with the bytes it
needs inside the source. -/
theorem Safe.ensureNext {length : Nat} {f : Unit → Parser β}
    (hf : ∀ cursor, cursor.position + length ≤ source.len →
      SafeFrom source cursor (f () cursor)) :
    Safe source (ensureNext source length >>= f) := by
  constructor
  intro cursor hcursor
  refine SafeFrom.bind ?_ ?_
  · unfold Gguf.ensureNext
    simp only
    split
    · exact ⟨le_refl _, hcursor⟩
    · exact rfl
  · intro _ next hrun
    unfold Gguf.ensureNext at hrun
    simp only at hrun
    split at hrun
    · rename_i hinside
      cases hrun
      exact hf cursor hinside.2.1
    · cases hrun

end Bind

section Stable

variable {source : ByteSource} {byte : Nat → UInt8}

theorem fetch_stable (hstable : source.Stable byte) {cursor : Cursor}
    {count : Nat} (hinside : cursor.position + count ≤ source.len) :
    fetch source count cursor =
      .ok ((List.range count).map fun index => byte (cursor.position + index),
        { cursor with position := cursor.position + count }) := by
  unfold fetch
  rw [hstable.reads _ _ hinside]

theorem fetch_safe (hstable : source.Stable byte) {cursor : Cursor}
    {count : Nat} (hinside : cursor.position + count ≤ source.len) :
    SafeFrom source cursor (fetch source count cursor) := by
  rw [fetch_stable hstable hinside]
  exact ⟨Nat.le_add_right _ _, hinside⟩

theorem read_safe (hstable : source.Stable byte) (count : Nat) :
    Safe source (read source count) :=
  Safe.ensureNext fun _ hinside => fetch_safe hstable hinside

theorem readU8_safe (hstable : source.Stable byte) :
    Safe source (readU8 source) :=
  (read_safe hstable 1).bind fun _ => Safe.pure _

theorem readU32_safe (hstable : source.Stable byte) :
    Safe source (readU32 source) :=
  (read_safe hstable 4).bind fun _ => Safe.pure _

theorem readU64_safe (hstable : source.Stable byte) :
    Safe source (readU64 source) :=
  (read_safe hstable 8).bind fun _ => Safe.pure _

theorem skip_safe (length : Nat) : Safe source (skip source length) :=
  Safe.ensureNext fun _ hinside => ⟨Nat.le_add_right _ _, hinside⟩

theorem readBoundedBytes_safe (hstable : source.Stable byte)
    (maxLength : Nat) : Safe source (readBoundedBytes source maxLength) :=
  (readU64_safe hstable).bind fun _ => (Safe.guarded _).bind fun _ =>
    Safe.ensureNext fun _ hinside => fetch_safe hstable hinside

theorem skipUtf8Chunks_safe (hstable : source.Stable byte) {rounds : Nat}
    {pending : Bytes} {left : Nat} {cursor : Cursor}
    (hinside : cursor.position + left ≤ source.len) :
    SafeFrom source cursor
      (skipUtf8Chunks source rounds pending left cursor) := by
  induction rounds generalizing pending left cursor with
  | zero => exact (Safe.guarded _).from_cursor cursor (by omega)
  | succ rounds ih =>
      rw [skipUtf8Chunks]
      split
      · exact (Safe.guarded _).from_cursor cursor (by omega)
      · have hchunk : cursor.position + min left 8192 ≤ source.len := by omega
        refine (fetch_safe hstable hchunk).bind ?_
        intro chunk next hrun
        rw [fetch_stable hstable hchunk] at hrun
        cases hrun
        have hrest : cursor.position + min left 8192 +
            (left - min left 8192) ≤ source.len := by omega
        simp only
        generalize pending ++ _ = used
        cases checkUtf8 used with
        | valid => exact ih hrest
        | incomplete valid =>
            refine SafeFrom.bind ((Safe.guarded _).from_cursor _ hchunk) ?_
            intro _ last hguard
            unfold guarded at hguard
            split at hguard
            · cases hguard
              exact ih hrest
            · cases hguard
        | invalid valid => exact (Safe.guarded _).from_cursor _ hchunk

theorem skipUtf8String_safe (hstable : source.Stable byte) :
    Safe source (skipUtf8String source) :=
  (readU64_safe hstable).bind fun _ => (Safe.chargeBytes _).bind fun _ =>
    Safe.ensureNext fun _ hinside => skipUtf8Chunks_safe hstable hinside

theorem checkBoolChunks_safe (hstable : source.Stable byte) {rounds left : Nat}
    {cursor : Cursor} (hinside : cursor.position + left ≤ source.len) :
    SafeFrom source cursor (checkBoolChunks source rounds left cursor) := by
  induction rounds generalizing left cursor with
  | zero => exact (Safe.pure ()).from_cursor cursor (by omega)
  | succ rounds ih =>
      rw [checkBoolChunks]
      split
      · exact (Safe.pure ()).from_cursor cursor (by omega)
      · have hchunk : cursor.position + min left 8192 ≤ source.len := by omega
        refine (fetch_safe hstable hchunk).bind ?_
        intro chunk next hrun
        rw [fetch_stable hstable hchunk] at hrun
        cases hrun
        refine SafeFrom.bind ((Safe.guarded _).from_cursor _ hchunk) ?_
        intro _ last hguard
        unfold guarded at hguard
        split at hguard
        · cases hguard
          exact ih (by simp only; omega)
        · cases hguard

theorem checkBoolBytes_safe (hstable : source.Stable byte) (count : Nat) :
    Safe source (checkBoolBytes source count) :=
  Safe.ensureNext fun _ hinside => checkBoolChunks_safe hstable hinside

theorem repeated_safe {action : Parser Unit} (haction : Safe source action)
    (count : Nat) : Safe source (repeated action count) := by
  induction count with
  | zero => exact Safe.pure ()
  | succ count ih => exact haction.bind fun _ => ih

theorem parseMetadataValue_safe (hstable : source.Stable byte)
    (nesting valueType : Nat) :
    Safe source (parseMetadataValue source nesting valueType) := by
  induction nesting generalizing valueType with
  | zero =>
      rw [parseMetadataValue]
      split
      · exact (Safe.chargeBytes _).bind fun _ => skip_safe _
      · split
        · exact (Safe.chargeBytes _).bind fun _ =>
            (readU8_safe hstable).bind fun _ => Safe.guarded _
        · split
          · exact skipUtf8String_safe hstable
          · split
            · exact Safe.guarded _
            · exact Safe.guarded _
  | succ nesting ih =>
      rw [parseMetadataValue]
      split
      · exact (Safe.chargeBytes _).bind fun _ => skip_safe _
      · split
        · exact (Safe.chargeBytes _).bind fun _ =>
            (readU8_safe hstable).bind fun _ => Safe.guarded _
        · split
          · exact skipUtf8String_safe hstable
          · split
            · refine (readU32_safe hstable).bind fun elementType =>
                (Safe.guarded _).bind fun _ =>
                (readU64_safe hstable).bind fun count =>
                (Safe.charge _).bind fun _ => ?_
              split
              · exact (Safe.orInvalid _).bind fun _ =>
                  (Safe.chargeBytes _).bind fun _ => skip_safe _
              · split
                · exact (Safe.chargeBytes _).bind fun _ =>
                    checkBoolBytes_safe hstable _
                · exact repeated_safe (ih elementType) count
            · exact Safe.guarded _

theorem parseMetadata_safe (hstable : source.Stable byte) (count : Nat)
    (keys : List Bytes) (alignment : Nat) :
    Safe source (parseMetadata source count keys alignment) := by
  induction count generalizing keys alignment with
  | zero => exact Safe.pure _
  | succ count ih =>
      refine (readBoundedBytes_safe hstable _).bind fun key =>
        (Safe.guarded _).bind fun _ => (Safe.chargeSymbolBytes _).bind fun _ =>
        (Safe.guarded _).bind fun _ => (readU32_safe hstable).bind fun _ => ?_
      split
      · exact (Safe.guarded _).bind fun _ => (Safe.chargeBytes _).bind fun _ =>
          (readU32_safe hstable).bind fun _ => ih _ _
      · exact (parseMetadataValue_safe hstable _ _).bind fun _ => ih _ _

theorem readDimensions_safe (hstable : source.Stable byte) (count : Nat) :
    Safe source (readDimensions source count) := by
  induction count with
  | zero => exact Safe.pure _
  | succ count ih =>
      exact (readU64_safe hstable).bind fun _ => (Safe.guarded _).bind fun _ =>
        ih.bind fun _ => Safe.pure _

theorem parseTensor_safe (hstable : source.Stable byte) (names : List Bytes)
    (expectedOffset : Nat) :
    Safe source (parseTensor source names expectedOffset) :=
  (readBoundedBytes_safe hstable _).bind fun _ => (Safe.guarded _).bind fun _ =>
    (Safe.chargeSymbolBytes _).bind fun _ => (Safe.guarded _).bind fun _ =>
    (Safe.orInvalid _).bind fun _ => (readU32_safe hstable).bind fun _ =>
    (Safe.guarded _).bind fun _ => (readDimensions_safe hstable _).bind fun _ =>
    (readU32_safe hstable).bind fun _ => (Safe.orInvalid _).bind fun _ =>
    (Safe.orInvalid _).bind fun _ => (readU64_safe hstable).bind fun _ =>
    (Safe.guarded _).bind fun _ => Safe.pure _

theorem parseTensors_safe (hstable : source.Stable byte)
    (alignment count : Nat) (names : List Bytes) (expectedOffset : Nat) :
    Safe source
      (parseTensors source alignment count names expectedOffset) := by
  induction count generalizing names expectedOffset with
  | zero => exact Safe.pure _
  | succ count ih =>
      exact (parseTensor_safe hstable _ _).bind fun _ =>
        (Safe.orInvalid _).bind fun _ => (Safe.orInvalid _).bind fun _ =>
        (ih _ _).bind fun _ => Safe.pure _

theorem validateCounts_safe (metadataCount tensorCount left : Nat) :
    Safe source (validateCounts metadataCount tensorCount left) :=
  (Safe.guarded _).bind fun _ => (Safe.orInvalid _).bind fun _ =>
    (Safe.orInvalid _).bind fun _ => (Safe.orInvalid _).bind fun _ =>
    Safe.guarded _

theorem parseHeader_safe (hstable : source.Stable byte) :
    Safe source (parseHeader source) :=
  (read_safe hstable 4).bind fun _ => (Safe.guarded _).bind fun _ =>
    (readU32_safe hstable).bind fun _ => (Safe.guarded _).bind fun _ =>
    (readU64_safe hstable).bind fun _ => (readU64_safe hstable).bind fun _ =>
    Safe.remaining.bind fun _ => (validateCounts_safe _ _ _).bind fun _ =>
    Safe.pure _

theorem parseAlignment_safe (hstable : source.Stable byte)
    (metadataCount : Nat) :
    Safe source (parseAlignment source metadataCount) := by
  unfold parseAlignment
  refine @Safe.bind _ _ source (limitNext maxMetadataInspectionBytes) _
    (Safe.limitNext _) fun _ => ?_
  refine (parseMetadata_safe hstable _ _ _).bind fun alignment => ?_
  exact Safe.clearLimit.bind fun _ => (Safe.guarded _).bind fun _ =>
    Safe.pure alignment

theorem parseDirectory_safe (hstable : source.Stable byte)
    (tensorCount alignment : Nat) :
    Safe source (parseDirectory source tensorCount alignment) :=
  Safe.position.bind fun _ => (parseTensors_safe hstable _ _ _ _).bind
    fun _ => Safe.position.bind fun _ => (Safe.orInvalid _).bind fun _ =>
    (Safe.orInvalid _).bind fun _ => (Safe.guarded _).bind fun _ =>
    Safe.pure _

theorem parseLayout_safe (hstable : source.Stable byte) :
    Safe source (parseLayout source) := by
  refine (parseHeader_safe hstable).bind ?_
  rintro ⟨tensorCount, metadataCount⟩
  exact @Safe.bind _ _ source (parseAlignment source metadataCount) _
    (parseAlignment_safe hstable metadataCount) fun alignment =>
      parseDirectory_safe hstable tensorCount alignment

end Stable

end TensorFS.Gguf
