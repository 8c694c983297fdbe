import TensorFS.Adapter.Readings
import TensorFS.Planner.Inventory

namespace TensorFS

open Data

/-! What is pairwise distinct: the tensor names of a planner inventory, and the
roles of an accepted contract. -/

namespace Safetensors

variable {names : List Text} {count : Nat} {members : List (Text × Json)}
  {header : List (Text × TensorDescriptor)}

theorem headerTensors_names (h : headerTensors names count members =
    some header) :
    (header.map Prod.fst).Nodup ∧
      ∀ name ∈ header.map Prod.fst, name ∉ names := by
  induction members generalizing names count header with
  | nil =>
      cases h
      exact ⟨List.nodup_nil, nofun⟩
  | cons member members ih =>
      obtain ⟨name, value⟩ := member
      unfold headerTensors at h
      split at h
      · cases h
      · rename_i hfresh
        split at h
        · split at h
          · obtain ⟨hnodup, hothers⟩ := ih h
            exact ⟨hnodup, fun other hmem hold =>
              hothers other hmem (List.mem_cons_of_mem _ hold)⟩
          · cases h
        · split at h
          · cases h
          · simp only [Option.bind_eq_bind, Option.bind_eq_some_iff,
              Option.some.injEq] at h
            obtain ⟨descriptor, -, tensors, htensors, rfl⟩ := h
            obtain ⟨hnodup, hothers⟩ := ih htensors
            rw [List.map_cons, List.nodup_cons]
            refine ⟨⟨fun hmem => hothers name hmem List.mem_cons_self,
              hnodup⟩, List.forall_mem_cons.mpr ⟨hfresh, ?_⟩⟩
            exact fun other hmem hold =>
              hothers other hmem (List.mem_cons_of_mem _ hold)

theorem headerOfJson_names {json : Json} (h : headerOfJson json =
    some header) : (header.map Prod.fst).Nodup := by
  unfold headerOfJson at h
  split at h
  · exact (headerTensors_names h).1
  · cases h

theorem mapM_tensorEntry_names {tensors : List TensorEntry}
    (h : (header.mapM fun item => tensorEntry item.1 item.2) = some tensors) :
    tensors.map TensorEntry.name = header.map Prod.fst := by
  induction header generalizing tensors with
  | nil =>
      cases h
      rfl
  | cons item header ih =>
      simp only [List.mapM_cons, Option.bind_eq_bind,
        Option.bind_eq_some_iff] at h
      obtain ⟨entry, hentry, rest, hrest, heq⟩ := h
      cases heq
      rw [List.map_cons, List.map_cons, ih hrest]
      simp only [tensorEntry] at hentry
      split at hentry
      · cases hentry
        rfl
      · cases hentry

theorem readLayout_names {P : Platform} {source : ByteSource}
    {layout : Layout} (h : readLayout P source = .ok (some layout)) :
    (layout.tensors.map TensorEntry.name).Nodup := by
  unfold readLayout at h
  split at h
  · cases h
  · simp only [except_bind_eq_ok] at h
    obtain ⟨front, -, h⟩ := h
    split at h
    · cases h
    · split at h
      · cases h
      · simp only [except_bind_eq_ok] at h
        obtain ⟨found, -, h⟩ := h
        split at h
        · cases h
        · simp only [Except.ok.injEq, Option.bind_eq_bind,
            Option.bind_eq_some_iff, layoutOfHeader] at h
          obtain ⟨json, -, header, hheader, tensors, htensors, h⟩ := h
          split at h
          · cases h
            have hnames := headerOfJson_names hheader
            rw [← mapM_tensorEntry_names htensors] at hnames
            exact ((List.perm_insertionSort byExtent tensors).map _
              ).nodup_iff.mpr hnames
          · cases h

end Safetensors

namespace Gguf

variable {source : ByteSource} {alignment : Nat}

theorem parseTensor_name {names : List Bytes} {expected : Nat}
    {cursor next : Cursor} {found : Bytes × TensorInfo}
    (h : parseTensor source names expected cursor = .ok (found, next)) :
    found.1 = found.2.name.utf8 ∧ found.1 ∉ names := by
  unfold parseTensor at h
  obtain ⟨nameBytes, _, -, h⟩ := parser_bind_eq_ok.mp h
  iterate 2 obtain ⟨_, _, -, h⟩ := parser_bind_eq_ok.mp h
  obtain ⟨_, _, hfresh, h⟩ := parser_bind_eq_ok.mp h
  obtain ⟨name, _, hname, h⟩ := parser_bind_eq_ok.mp h
  iterate 8 obtain ⟨_, _, -, h⟩ := parser_bind_eq_ok.mp h
  obtain ⟨rfl, -⟩ := parser_pure_eq_ok.mp h
  exact ⟨Text.utf8_of_fromUtf8 (orInvalid_eq_ok.mp hname).1,
    (guarded_eq_ok.mp hfresh).1⟩

theorem parseTensors_names {count : Nat} {names : List Bytes}
    {expected stop : Nat} {cursor next : Cursor} {tensors : List TensorInfo}
    (h : parseTensors source alignment count names expected cursor =
      .ok ((tensors, stop), next)) :
    (tensors.map TensorInfo.name).Nodup ∧
      ∀ tensor ∈ tensors, tensor.name.utf8 ∉ names := by
  induction count generalizing names expected cursor next tensors with
  | zero =>
      obtain ⟨heq, -⟩ := parser_pure_eq_ok.mp h
      cases heq
      exact ⟨List.nodup_nil, nofun⟩
  | succ count ih =>
      unfold parseTensors at h
      obtain ⟨⟨name, tensor⟩, _, htensor, h⟩ := parser_bind_eq_ok.mp h
      iterate 2 obtain ⟨_, _, _, h⟩ := parser_bind_eq_ok.mp h
      obtain ⟨⟨rest, last⟩, _, hrest, h⟩ := parser_bind_eq_ok.mp h
      obtain ⟨heq, -⟩ := parser_pure_eq_ok.mp h
      cases heq
      obtain ⟨hname, hfresh⟩ := parseTensor_name htensor
      obtain ⟨hnodup, hothers⟩ := ih hrest
      simp only at hname hfresh
      subst hname
      rw [List.map_cons, List.nodup_cons]
      refine ⟨⟨fun hmem => ?_, hnodup⟩, List.forall_mem_cons.mpr
        ⟨hfresh, fun other hmem hold =>
          hothers other hmem (List.mem_cons_of_mem _ hold)⟩⟩
      obtain ⟨other, hother, heq⟩ := List.mem_map.mp hmem
      exact hothers other hother (heq ▸ List.mem_cons_self)

theorem parse_names {layout : Layout} (h : parse source = .ok layout) :
    (layout.tensors.map TensorInfo.name).Nodup := by
  simp only [parse, except_bind_eq_ok, Except.ok.injEq] at h
  obtain ⟨⟨found, next⟩, h, rfl⟩ := h
  unfold parseLayout at h
  iterate 2 obtain ⟨_, _, -, h⟩ := parser_bind_eq_ok.mp h
  unfold parseDirectory at h
  obtain ⟨_, _, -, h⟩ := parser_bind_eq_ok.mp h
  obtain ⟨⟨tensors, dataLength⟩, _, htensors, h⟩ := parser_bind_eq_ok.mp h
  iterate 4 obtain ⟨_, _, -, h⟩ := parser_bind_eq_ok.mp h
  obtain ⟨heq, -⟩ := parser_pure_eq_ok.mp h
  cases heq
  exact (parseTensors_names htensors).1

end Gguf

/-- No two tensors of an inventory share a name. -/
theorem inventory_names {P : Platform} {source : ByteSource}
    {found : TensorInventory} (h : inventory P source = .ok (some found)) :
    (found.tensors.map InventoryTensor.name).Nodup := by
  simp only [inventory, except_bind_eq_ok] at h
  obtain ⟨_, -, gguf, hgguf, h⟩ := h
  cases gguf with
  | some inventory =>
      cases h
      unfold ggufInventory at hgguf
      split at hgguf
      · split at hgguf
        · rename_i hparse
          cases hgguf
          simp only [Gguf.inventory, List.map_map]
          exact Gguf.parse_names hparse
        · cases hgguf
        · cases hgguf
        · cases hgguf
      · cases hgguf
  | none =>
      simp only [safetensorsInventory] at h
      split at h
      · rename_i hlayout
        cases h
        simp only [Safetensors.inventory, List.map_map]
        exact Safetensors.readLayout_names hlayout
      · cases h
      · cases h

/-! Accepted declarations. -/

theorem Pattern.text_of_parse {text : Text} {pattern : Pattern}
    (h : Pattern.parse text = .ok pattern) : pattern.text = text := by
  simp only [Pattern.parse, except_bind_eq_ok] at h
  obtain ⟨_, -, h⟩ := h
  split at h
  · cases h
  · simp only [except_bind_eq_ok, Except.ok.injEq] at h
    obtain ⟨_, -, rfl⟩ := h
    rfl

theorem RawTensor.validate_role {raw : RawTensor}
    {patterns roles : List Text} {tensor : TensorPattern}
    (h : raw.validate patterns roles = .ok tensor) :
    tensor.role.text = raw.role ∧ raw.role ∉ roles ∧
      tensor.role.holes = tensor.pattern.holes := by
  simp only [RawTensor.validate, except_bind_eq_ok, exists_unit,
    ensure_eq_ok, Except.ok.injEq] at h
  obtain ⟨_, _, role, hrole, hholes, _, hfresh, _, _, _, _, rfl⟩ := h
  exact ⟨Pattern.text_of_parse hrole, hfresh, hholes⟩

theorem validateTensors_roles {patterns roles : List Text}
    {raws : List RawTensor} {tensors : List TensorPattern}
    (h : validateTensors patterns roles raws = .ok tensors) :
    tensors.Nodup ∧ (∀ tensor ∈ tensors, tensor.role.text ∉ roles) ∧
      ∀ tensor ∈ tensors, tensor.role.holes = tensor.pattern.holes := by
  induction raws generalizing patterns roles tensors with
  | nil =>
      cases h
      exact ⟨List.nodup_nil, nofun, nofun⟩
  | cons raw raws ih =>
      simp only [validateTensors, except_bind_eq_ok, Except.ok.injEq] at h
      obtain ⟨head, hhead, tail, htail, rfl⟩ := h
      obtain ⟨hrole, hfresh, hholes⟩ := raw.validate_role hhead
      obtain ⟨hnodup, hothers, hall⟩ := ih htail
      refine ⟨List.nodup_cons.mpr ⟨fun hmem => ?_, hnodup⟩,
        List.forall_mem_cons.mpr ⟨hrole ▸ hfresh, fun other hmem hold =>
          hothers other hmem (List.mem_cons_of_mem _ hold)⟩,
        List.forall_mem_cons.mpr ⟨hholes, hall⟩⟩
      exact hothers head hmem (hrole ▸ List.mem_cons_self)

/-- The declarations are distinct, and a role has the holes of its pattern. -/
theorem Contract.tensors_of_parse
    {fromStr : Text → Except Text RawContract} {document : Text}
    {contract : Contract}
    (h : Contract.parse fromStr document = .ok contract) :
    contract.tensors.Nodup ∧
      ∀ entry ∈ contract.tensors, entry.role.holes = entry.pattern.holes := by
  unfold Contract.parse at h
  split at h
  · cases h
  · simp only [RawContract.validate, except_bind_eq_ok, exists_unit,
      Except.ok.injEq] at h
    obtain ⟨_, _, _, _, _, tensors, htensors, _, _, rfl⟩ := h
    obtain ⟨hnodup, -, hholes⟩ := validateTensors_roles htensors
    exact ⟨hnodup, hholes⟩

/-- A described tensor has a role. -/
theorem Contract.baseRole_isSome {contract : Contract} {name : Text}
    (hholes : ∀ entry ∈ contract.tensors,
      entry.role.holes = entry.pattern.holes)
    (hentry : (contract.entryFor name).isSome) :
    (contract.baseRole name).isSome := by
  obtain ⟨entry, hentry⟩ := Option.isSome_iff_exists.mp hentry
  have hmatch := List.find?_some hentry
  simp only [Pattern.isMatch] at hmatch
  obtain ⟨values, hvalues⟩ := Option.isSome_iff_exists.mp hmatch
  have hcount := (Pattern.fillFrom_of_capturesFrom hvalues).2
  have hrole : values.length = entry.role.holes := by
    rw [hholes entry (List.mem_of_find?_eq_some hentry), hcount]
    rfl
  rw [baseRole, hentry, Option.bind_eq_bind, Option.bind_some, hvalues,
    Option.bind_eq_bind, Option.bind_some, Pattern.instantiate, if_pos hrole]
  exact Pattern.fillFrom_isSome hrole

end TensorFS
