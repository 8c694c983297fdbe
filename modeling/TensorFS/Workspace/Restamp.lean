import TensorFS.Compose.Moves
import TensorFS.Workspace.Seal

namespace TensorFS

open Data

/-! Planning under a contract that cuts nothing. -/

/-- The contract cuts no tensor of this name and extent. -/
def Contract.Uncut (contract : Contract) (name : Text) (shape : List UInt64)
    (byteLength : Nat) : Prop :=
  ∀ ε : Type, contract.seamOffsets (ε := ε) name shape byteLength = .ok []

/-- The contract cuts no tensor of the file, read as either container. -/
structure Contract.CutsNothing (P : Platform) (source : ByteSource)
    (contract : Contract) : Prop where
  gguf : ∀ layout, Gguf.parse source = .ok layout →
    ∀ tensor ∈ layout.tensors,
      contract.Uncut tensor.name (Gguf.logicalShape tensor) tensor.length
  safetensors : ∀ layout, Safetensors.readLayout P source = .ok (some layout) →
    ∀ tensor ∈ layout.tensors,
      contract.Uncut tensor.name tensor.shape tensor.length

namespace Plan

def restamp (stamp : Stamp) (plan : Plan) : Plan :=
  if plan.planner = .blobV1 then plan else { plan with contract := stamp }

variable {stamp : Stamp} {plan : Plan}

theorem restamp_blob (h : plan.planner = .blobV1) :
    plan.restamp stamp = plan :=
  if_pos h

theorem restamp_tensor (h : plan.planner ≠ .blobV1) :
    plan.restamp stamp = { plan with contract := stamp } :=
  if_neg h

theorem validate_restamp : (plan.restamp stamp).validate = plan.validate := by
  unfold restamp
  split
  · rfl
  · rfl

theorem validated_restamp :
    validated (plan.restamp stamp) =
      (validated plan).map (restamp stamp) := by
  rw [validated, validated, validate_restamp]
  cases plan.validate with
  | error refusal => rfl
  | ok _ => rfl

end Plan

section

variable {P : Platform} {source : ByteSource} {contract : Contract}

theorem Gguf.appendTensors_uncut {alignment dataStart : Nat}
    {regions : List Region} {tensors : List TensorInfo}
    (h : ∀ tensor ∈ tensors,
      contract.Uncut tensor.name (logicalShape tensor) tensor.length) :
    appendTensors (some contract) alignment dataStart regions tensors =
      appendTensors none alignment dataStart regions tensors := by
  induction tensors generalizing regions with
  | nil => rfl
  | cons tensor tensors ih =>
      have hrest : ∀ other ∈ tensors,
          contract.Uncut other.name (logicalShape other) other.length :=
        fun other hother => h other (List.mem_cons_of_mem _ hother)
      simp only [appendTensors, Contract.seams,
        h tensor List.mem_cons_self _, ih hrest]

theorem Safetensors.appendTensors_uncut {headerEnd : Nat}
    {regions : List Region} {tensors : List TensorEntry}
    (h : ∀ tensor ∈ tensors,
      contract.Uncut tensor.name tensor.shape tensor.length) :
    appendTensors (some contract) headerEnd regions tensors =
      appendTensors none headerEnd regions tensors := by
  induction tensors generalizing regions with
  | nil => rfl
  | cons tensor tensors ih =>
      have hrest : ∀ other ∈ tensors,
          contract.Uncut other.name other.shape other.length :=
        fun other hother => h other (List.mem_cons_of_mem _ hother)
      simp only [appendTensors, Contract.seams,
        h tensor List.mem_cons_self _, ih hrest]

/-- Both container planners write the stamp whether or not it cut anything. -/
theorem Gguf.planLayout_uncut {fileSize : Nat} {layout : Layout}
    (h : ∀ tensor ∈ layout.tensors,
      contract.Uncut tensor.name (logicalShape tensor) tensor.length) :
    planLayout P fileSize (some contract) layout =
      (planLayout P fileSize none layout).map
        (Plan.restamp (contract.stamp P.sha256)) := by
  simp only [planLayout, except_map_bind]
  refine except_bind_congr fun first => ?_
  refine except_bind_congr fun second => ?_
  refine except_bind_congr fun third => ?_
  rw [appendTensors_uncut h]
  refine except_bind_congr fun regions => ?_
  rw [Except.map, Plan.restamp_tensor (by simp)]

theorem Safetensors.planLayout_uncut {fileSize : Nat} {layout : Layout}
    (h : ∀ tensor ∈ layout.tensors,
      contract.Uncut tensor.name tensor.shape tensor.length) :
    planLayout P fileSize (some contract) layout =
      (planLayout P fileSize none layout).map
        (Option.map (Plan.restamp (contract.stamp P.sha256))) := by
  simp only [planLayout, except_map_bind]
  refine except_bind_congr fun header => ?_
  cases header with
  | none => rfl
  | some regions =>
      simp only [except_map_bind]
      rw [appendTensors_uncut h]
      refine except_bind_congr fun found => ?_
      cases found with
      | none => rfl
      | some regions =>
          simp only [Except.map, Option.map_some]
          rw [Plan.restamp_tensor (by simp)]

theorem Gguf.lift_map {α β : Type} {f : α → β}
    {x : Except (Failure ParseFailure) α} :
    lift (x.map f) = (lift x).map (Option.map f) := by
  cases x with
  | ok value => rfl
  | error failure =>
      cases failure with
      | panicked => rfl
      | refused refusal => cases refusal <;> rfl

theorem Gguf.tryPlan_uncut (h : contract.CutsNothing P source) :
    tryPlan P source (some contract) =
      (tryPlan P source none).map
        (Option.map (Plan.restamp (contract.stamp P.sha256))) := by
  rw [tryPlan, tryPlan, ← lift_map, except_map_bind]
  cases hparse : parse source with
  | error refusal => rw [refusing, except_error_bind, except_error_bind]
  | ok layout =>
      rw [refusing, except_ok_bind, except_ok_bind]
      rw [planLayout_uncut (h.gguf layout hparse)]

theorem Safetensors.tryPlan_uncut (h : contract.CutsNothing P source) :
    tryPlan P source (some contract) =
      (tryPlan P source none).map
        (Option.map (Plan.restamp (contract.stamp P.sha256))) := by
  rw [tryPlan, tryPlan, except_map_bind]
  cases hlayout : readLayout P source with
  | error refusal => rw [refusing, except_error_bind, except_error_bind]
  | ok found =>
      rw [refusing, except_ok_bind, except_ok_bind]
      cases found with
      | none => rfl
      | some layout => exact planLayout_uncut (h.safetensors layout hlayout)

theorem ggufPlan_uncut (h : contract.CutsNothing P source) :
    ggufPlan P source (some contract) =
      (ggufPlan P source none).map
        (Option.map (Plan.restamp (contract.stamp P.sha256))) := by
  unfold ggufPlan
  split
  · exact Gguf.tryPlan_uncut h
  · rfl

theorem validated_blob_restamp {stamp : Stamp} {fileSize : Nat} :
    validated (blobPlan fileSize) =
      (validated (blobPlan fileSize)).map (Plan.restamp stamp) := by
  rw [← Plan.validated_restamp, Plan.restamp_blob rfl]

/-- The plan is the plain one, under the contract's stamp. -/
theorem planWith_uncut (h : contract.CutsNothing P source) :
    planWith P source (some contract) =
      (planWith P source none).map
        (Plan.restamp (contract.stamp P.sha256)) := by
  simp only [planWith, except_map_bind]
  refine except_bind_congr fun _ => except_bind_congr fun _ => ?_
  unfold planOnce
  split
  · exact validated_blob_restamp
  · rw [ggufPlan_uncut h]
    cases ggufPlan P source none with
    | error failure => simp only [Except.map, except_error_bind]
    | ok found =>
        simp only [Except.map, except_ok_bind]
        cases found with
        | some plan => exact Plan.validated_restamp
        | none =>
            simp only [Option.map_none, safetensorsOrBlobPlan]
            rw [Safetensors.tryPlan_uncut h]
            cases Safetensors.tryPlan P source none with
            | error failure => simp only [Except.map, except_error_bind]
            | ok found =>
                simp only [Except.map, except_ok_bind]
                cases found with
                | some plan => exact Plan.validated_restamp
                | none => exact validated_blob_restamp

theorem Contract.stamp_ne_none {sha256 : Bytes → Digest} :
    contract.stamp sha256 ≠ .none := by
  unfold stamp
  split
  · simp
  · simp

theorem Gguf.lift_eq_some {α : Type} {x : Except (Failure ParseFailure) α}
    {value : α} : lift x = .ok (some value) ↔ x = .ok value := by
  cases x with
  | ok found => simp [lift]
  | error failure =>
      cases failure with
      | panicked => simp [lift]
      | refused refusal => cases refusal <;> simp [lift]

theorem Gguf.tryPlan_plain {plan : Plan}
    (h : tryPlan P source none = .ok (some plan)) :
    plan.planner = .ggufV1 ∧ plan.contract = .none := by
  rw [tryPlan, lift_eq_some, except_bind_eq_ok] at h
  obtain ⟨layout, _, h⟩ := h
  simp only [planLayout, except_bind_eq_ok, Except.ok.injEq] at h
  obtain ⟨_, _, _, _, _, _, _, _, rfl⟩ := h
  exact ⟨rfl, rfl⟩

theorem Safetensors.tryPlan_plain {plan : Plan}
    (h : tryPlan P source none = .ok (some plan)) :
    plan.planner = .safetensorsV1 ∧ plan.contract = .none := by
  rw [tryPlan, except_bind_eq_ok] at h
  obtain ⟨found, _, h⟩ := h
  cases found with
  | none => cases h
  | some layout =>
      simp only [planLayout, except_bind_eq_ok] at h
      obtain ⟨header, _, h⟩ := h
      cases header with
      | none => cases h
      | some regions =>
          simp only [except_bind_eq_ok] at h
          obtain ⟨tensors, _, h⟩ := h
          cases tensors with
          | none => cases h
          | some regions =>
              cases h
              exact ⟨rfl, rfl⟩

end

/-- A container planner recognises the file, and the plan it gives without a
contract stands. -/
def Contained (P : Platform) (source : ByteSource) : Prop :=
  source.checkUnchanged = .ok () ∧ 10 ≤ source.len ∧
    ∃ plan : Plan, plan.validate = .ok () ∧
      (ggufPlan P source none = .ok (some plan) ∨
        (ggufPlan P source none = .ok none ∧
          Safetensors.tryPlan P source none = .ok (some plan)))

/-- The plan, stamp included, and what a seal makes of a file with these bytes
are the same as without the contract. -/
def Contract.ChangesNothing (P : Platform) (source : ByteSource)
    (contract : Contract) : Prop :=
  planWith P source (some contract) = planWith P source none ∧
    ∀ (store : ObjectStore P) (path : Text) (storedPlanner : PlannerId)
      (storedContract : Stamp) (records : List FileRecord),
      recordsSource store records = source →
      planSealJob P (some contract) store path storedPlanner storedContract
          records =
        planSealJob P none store path storedPlanner storedContract records

section

variable {P : Platform} {source : ByteSource}

theorem validated_ok {plan found : Plan} :
    validated plan = .ok found ↔ plan.validate = .ok () ∧ plan = found := by
  simp only [validated, except_bind_eq_ok, refusing_eq_ok, exists_unit,
    Except.ok.injEq]

/-- A plan without a contract is a blob, or a container's and unstamped. -/
theorem planWith_plain {plan : Plan} (h : planWith P source none = .ok plan) :
    plan.planner = .blobV1 ∨ (plan.contract = .none ∧ Contained P source) := by
  simp only [planWith, except_bind_eq_ok, refusing_eq_ok, exists_unit] at h
  obtain ⟨hunchanged, _, h⟩ := h
  unfold planOnce at h
  split at h
  · obtain ⟨_, rfl⟩ := validated_ok.mp h
    exact .inl rfl
  · rename_i hlen
    rw [not_lt] at hlen
    rw [except_bind_eq_ok] at h
    obtain ⟨found, hgguf, h⟩ := h
    cases found with
    | some container =>
        obtain ⟨hvalid, rfl⟩ := validated_ok.mp h
        refine .inr ⟨?_, hunchanged, hlen, container, hvalid, .inl hgguf⟩
        unfold ggufPlan at hgguf
        split at hgguf
        · exact (Gguf.tryPlan_plain hgguf).2
        · cases hgguf
    | none =>
        rw [safetensorsOrBlobPlan, except_bind_eq_ok] at h
        obtain ⟨found, hsafetensors, h⟩ := h
        cases found with
        | some container =>
            obtain ⟨hvalid, rfl⟩ := validated_ok.mp h
            exact .inr ⟨(Safetensors.tryPlan_plain hsafetensors).2, hunchanged,
              hlen, container, hvalid, .inr ⟨hgguf, hsafetensors⟩⟩
        | none =>
            obtain ⟨_, rfl⟩ := validated_ok.mp h
            exact .inl rfl

theorem Contained.planWith (h : Contained P source) :
    ∃ plan : Plan, planWith P source none = .ok plan ∧
      plan.planner ≠ .blobV1 ∧ plan.contract = .none := by
  obtain ⟨hunchanged, hlen, plan, hvalid, hplanned⟩ := h
  refine ⟨plan, ?_, ?_⟩
  · rw [TensorFS.planWith, hunchanged, refusing, except_ok_bind,
      except_ok_bind, planOnce, if_neg (not_lt.mpr hlen)]
    rcases hplanned with hgguf | ⟨hgguf, hsafetensors⟩
    · rw [hgguf, except_ok_bind]
      exact validated_ok.mpr ⟨hvalid, rfl⟩
    · rw [hgguf, except_ok_bind]
      simp only
      rw [safetensorsOrBlobPlan, hsafetensors, except_ok_bind]
      exact validated_ok.mpr ⟨hvalid, rfl⟩
  · rcases hplanned with hgguf | ⟨_, hsafetensors⟩
    · unfold ggufPlan at hgguf
      split at hgguf
      · obtain ⟨hplanner, hcontract⟩ := Gguf.tryPlan_plain hgguf
        exact ⟨by rw [hplanner]; simp, hcontract⟩
      · cases hgguf
    · obtain ⟨hplanner, hcontract⟩ := Safetensors.tryPlan_plain hsafetensors
      exact ⟨by rw [hplanner]; simp, hcontract⟩

end

/-- A contract that cuts no tensor of a file changes nothing exactly when the
file is no tensor container; a container is stamped all the same. -/
theorem contract_changes_nothing_iff (P : Platform) (source : ByteSource)
    (contract : Contract) (h : contract.CutsNothing P source) :
    contract.ChangesNothing P source ↔ ¬ Contained P source := by
  constructor
  · rintro ⟨hplan, _⟩ hcontained
    obtain ⟨plan, hplain, hplanner, hcontract⟩ := hcontained.planWith
    rw [planWith_uncut h, hplain, Except.map, Except.ok.injEq,
      Plan.restamp_tensor hplanner] at hplan
    have hstamp := congrArg Plan.contract hplan
    rw [hcontract] at hstamp
    exact Contract.stamp_ne_none hstamp
  · intro hcontained
    have hplan : planWith P source (some contract) =
        planWith P source none := by
      rw [planWith_uncut h]
      cases hplain : planWith P source none with
      | error failure => rfl
      | ok plan =>
          rcases planWith_plain hplain with hblob | ⟨_, hcontainer⟩
          · rw [Except.map, Plan.restamp_blob hblob]
          · exact absurd hcontainer hcontained
    refine ⟨hplan, ?_⟩
    intro store path storedPlanner storedContract records hsource
    unfold planSealJob
    rw [hsource, hplan]

/-- A contract that declares no fusion cuts nothing. -/
theorem Contract.cutsNothing_of_plain {P : Platform} {source : ByteSource}
    {contract : Contract}
    (h : ∀ entry ∈ contract.tensors, entry.fusion = none) :
    contract.CutsNothing P source := by
  have huncut : ∀ name shape byteLength,
      contract.Uncut name shape byteLength := by
    intro name shape byteLength ε
    have hnone : contract.fusionFor name = none := by
      simp only [fusionFor, Option.bind_eq_bind, Option.bind_eq_none_iff]
      exact fun entry hentry => h entry (List.mem_of_find?_eq_some hentry)
    rw [seamOffsets, runsOf, hnone]
    rfl
  exact ⟨fun _ _ tensor _ => huncut _ _ _, fun _ _ tensor _ => huncut _ _ _⟩

/-- The matrix is named by a contract without fusions, and stamped. -/
theorem contract_stamps_uncut_file :
    (MatrixFile.contract none).CutsNothing MatrixFile.platform
        MatrixFile.bytes.source ∧
      (planWith MatrixFile.platform MatrixFile.bytes.source
        (some (MatrixFile.contract none))).map Plan.contract =
          .ok ((MatrixFile.contract none).stamp sha256) ∧
      (planWith MatrixFile.platform MatrixFile.bytes.source none).map
        Plan.contract = .ok .none ∧
      ¬ (MatrixFile.contract none).ChangesNothing MatrixFile.platform
        MatrixFile.bytes.source := by
  have hstamped : (planWith MatrixFile.platform MatrixFile.bytes.source
      (some (MatrixFile.contract none))).map Plan.contract =
        .ok ((MatrixFile.contract none).stamp sha256) := by
    decide +kernel
  have hplain : (planWith MatrixFile.platform MatrixFile.bytes.source
      none).map Plan.contract = .ok .none := by
    decide +kernel
  refine ⟨Contract.cutsNothing_of_plain (by decide), hstamped, hplain, ?_⟩
  rintro ⟨hsame, _⟩
  rw [hsame, hplain, Except.ok.injEq] at hstamped
  exact Contract.stamp_ne_none hstamped.symm

/-! A fusion the matrix has too few rows for. -/

namespace Misfit

def contract : Contract :=
  { MatrixFile.contract none with
    tensors := [{ MatrixFile.entry none with
      fusion := some ⟨1, [⟨"q".toList, 3⟩, ⟨"k".toList, 4⟩]⟩ }] }

/-- The matrix file without its last byte. -/
def cutShort : Slice := ⟨MatrixFile.bytes.bytes.dropLast, by decide +kernel⟩

theorem uncut : contract.Uncut "w".toList [2, 32] 64 := fun _ => rfl

theorem cutsNothing : contract.CutsNothing MatrixFile.platform
    MatrixFile.bytes.source where
  gguf layout hlayout := by
    have htensors : (Gguf.parse MatrixFile.bytes.source).map (fun layout =>
        layout.tensors.map fun tensor =>
          (tensor.name, Gguf.logicalShape tensor, tensor.length)) =
          .ok [("w".toList, [2, 32], 64)] := by
      decide +kernel
    rw [hlayout, Except.map, Except.ok.injEq] at htensors
    intro tensor hmem
    have hfound := List.mem_map_of_mem
      (f := fun tensor : Gguf.TensorInfo =>
        (tensor.name, Gguf.logicalShape tensor, tensor.length)) hmem
    rw [htensors, List.mem_singleton, Prod.mk.injEq, Prod.mk.injEq] at hfound
    obtain ⟨hname, hshape, hlength⟩ := hfound
    rw [hname, hshape, hlength]
    exact uncut
  safetensors layout hlayout := by
    have hnone : (Safetensors.readLayout MatrixFile.platform
        MatrixFile.bytes.source).map Option.isSome = .ok false := by
      decide +kernel
    rw [hlayout] at hnone
    cases hnone

theorem cutShort_cutsNothing : contract.CutsNothing MatrixFile.platform
    cutShort.source where
  gguf layout hlayout := by
    have hnone : (Gguf.parse cutShort.source).toOption.isSome = false := by
      decide +kernel
    rw [hlayout] at hnone
    cases hnone
  safetensors layout hlayout := by
    have hnone : (Safetensors.readLayout MatrixFile.platform
        cutShort.source).map Option.isSome = .ok false := by
      decide +kernel
    rw [hlayout] at hnone
    cases hnone

end Misfit

/-- Short of a byte the file is no container and the contract changes nothing;
whole it is stamped. -/
theorem contract_changes_nothing_cutShort :
    Misfit.contract.ChangesNothing MatrixFile.platform
        Misfit.cutShort.source ∧
      ¬ Misfit.contract.ChangesNothing MatrixFile.platform
        MatrixFile.bytes.source := by
  constructor
  · refine (contract_changes_nothing_iff _ _ _
      Misfit.cutShort_cutsNothing).mpr ?_
    rintro ⟨-, -, plan, -, hplan⟩
    have hgguf : ggufPlan MatrixFile.platform Misfit.cutShort.source none =
        .ok none := by
      decide +kernel
    have hsafetensors : Safetensors.tryPlan MatrixFile.platform
        Misfit.cutShort.source none = .ok none := by
      decide +kernel
    rw [hgguf, hsafetensors] at hplan
    simp at hplan
  · have hplain : ∃ plan : Plan, plan.validate = .ok () ∧
        ggufPlan MatrixFile.platform MatrixFile.bytes.source none =
          .ok (some plan) := by
      have hvalid : (ggufPlan MatrixFile.platform MatrixFile.bytes.source
          none).map (Option.map Plan.validate) = .ok (some (.ok ())) := by
        decide +kernel
      cases hfound : ggufPlan MatrixFile.platform MatrixFile.bytes.source
          none with
      | error failure =>
          rw [hfound] at hvalid
          cases hvalid
      | ok found =>
          rw [hfound, Except.map, Except.ok.injEq] at hvalid
          obtain ⟨plan, rfl, hplan⟩ := Option.map_eq_some_iff.mp hvalid
          exact ⟨plan, hplan, rfl⟩
    obtain ⟨plan, hvalid, hplan⟩ := hplain
    exact fun h => (contract_changes_nothing_iff _ _ _ Misfit.cutsNothing).mp h
      ⟨by decide, by decide +kernel, plan, hvalid, .inl hplan⟩

end TensorFS
