import TensorFS.Adapter.Decide
import TensorFS.Planner.GgufCover
import TensorFS.Planner.PlanOnce

namespace TensorFS

open Data

/-! Reading the header inventory of one container. -/

namespace Safetensors

/-- A tensor of a read layout lies in its file and has the size its dtype and
shape declare. -/
structure EntryOk (fileSize headerEnd : Nat) (tensor : TensorEntry) :
    Prop where
  ordered : tensor.start ≤ tensor.stop
  inside : headerEnd + tensor.stop ≤ fileSize
  size : ∃ offsets, tensorByteSize ⟨tensor.dtype, tensor.shape, offsets⟩ =
    some tensor.length

theorem mapM_tensorEntry_size {header : List (Text × TensorDescriptor)}
    {tensors : List TensorEntry}
    (h : (header.mapM fun item => tensorEntry item.1 item.2) = some tensors) :
    ∀ tensor ∈ tensors, ∃ offsets,
      tensorByteSize ⟨tensor.dtype, tensor.shape, offsets⟩ =
        some tensor.length := by
  induction header generalizing tensors with
  | nil =>
      cases h
      simp
  | cons item header ih =>
      simp only [List.mapM_cons, Option.bind_eq_bind,
        Option.bind_eq_some_iff] at h
      obtain ⟨entry, hentry, rest, hrest, heq⟩ := h
      cases heq
      refine List.forall_mem_cons.mpr ⟨?_, ih hrest⟩
      simp only [tensorEntry] at hentry
      split at hentry
      · rename_i hsize
        cases hentry
        exact ⟨item.2.dataOffsets, hsize.2⟩
      · cases hentry

theorem contiguous_le {dataSize cursor : Nat} {tensors : List TensorEntry}
    (h : contiguous dataSize cursor tensors = true) :
    ∀ tensor ∈ tensors, tensor.stop ≤ dataSize := by
  induction tensors generalizing cursor with
  | nil => simp
  | cons tensor tensors ih =>
      simp only [contiguous, Bool.and_eq_true, decide_eq_true_eq] at h
      exact List.forall_mem_cons.mpr ⟨h.1.2, ih h.2⟩

theorem readLayout_entries {P : Platform} {source : ByteSource}
    {layout : Layout} (h : readLayout P source = .ok (some layout)) :
    ∀ tensor ∈ layout.tensors,
      EntryOk source.len layout.headerEnd tensor := by
  unfold readLayout at h
  split at h
  · cases h
  · simp only [except_bind_eq_ok] at h
    obtain ⟨front, -, h⟩ := h
    split at h
    · cases h
    · split at h
      · cases h
      · rename_i hfits
        simp only [except_bind_eq_ok] at h
        obtain ⟨header, -, h⟩ := h
        split at h
        · cases h
        · simp only [Except.ok.injEq, Option.bind_eq_bind,
            Option.bind_eq_some_iff] at h
          obtain ⟨json, -, members, -, hlayout⟩ := h
          obtain ⟨hend, hordered, hcontiguous⟩ := layoutOfHeader_ok hlayout
          simp only [layoutOfHeader, Option.bind_eq_bind,
            Option.bind_eq_some_iff] at hlayout
          obtain ⟨entries, hentries, hlayout⟩ := hlayout
          split at hlayout
          · cases hlayout
            intro tensor hmem
            have hstop := contiguous_le hcontiguous tensor hmem
            simp only at hstop hfits
            exact ⟨hordered tensor hmem, by omega,
              mapM_tensorEntry_size hentries tensor
                ((List.mem_insertionSort byExtent).mp hmem)⟩
          · cases hlayout

def inventoryTensor (layout : Layout) (tensor : TensorEntry) :
    InventoryTensor :=
  ⟨tensor.name, tensor.dtype, tensor.shape, layout.headerEnd + tensor.start,
    tensor.length⟩

def inventory {P : Platform} {source : ByteSource} (layout : Layout)
    (h : readLayout P source = .ok (some layout)) : TensorInventory where
  format := .safetensorsV1
  tensors := layout.tensors.map (inventoryTensor layout)
  inside := by
    intro tensor hmem
    obtain ⟨entry, hentry, rfl⟩ := List.mem_map.mp hmem
    obtain ⟨hordered, hinside, -⟩ := readLayout_entries h entry hentry
    have hlen := source.len_lt
    simp only [inventoryTensor, TensorEntry.length]
    omega

end Safetensors

namespace Gguf

/-- What the directory reader checks of one tensor. -/
structure InfoOk (tensor : TensorInfo) : Prop where
  block : ∃ block, ggmlLayout tensor.ggmlType = some block ∧
    tensorLength tensor.dimensions block.1 block.2 = some tensor.length
  declared : ∃ declared, declared.length = tensor.dimensionCount ∧
    tensor.dimensions =
      declared ++ List.replicate (4 - tensor.dimensionCount) 1 ∧
    ∀ dimension ∈ declared, dimension < 2 ^ 64

theorem readDimensions_ok {source : ByteSource} {count : Nat}
    {cursor next : Cursor} {dimensions : List Nat}
    (h : readDimensions source count cursor = .ok (dimensions, next)) :
    dimensions.length = count ∧ ∀ dimension ∈ dimensions,
      dimension < 2 ^ 64 := by
  induction count generalizing cursor next dimensions with
  | zero =>
      obtain ⟨rfl, -⟩ := parser_pure_eq_ok.mp h
      simp
  | succ count ih =>
      unfold readDimensions at h
      obtain ⟨dimension, _, -, h⟩ := parser_bind_eq_ok.mp h
      obtain ⟨_, _, hguard, h⟩ := parser_bind_eq_ok.mp h
      obtain ⟨rest, _, hrest, h⟩ := parser_bind_eq_ok.mp h
      obtain ⟨rfl, -⟩ := parser_pure_eq_ok.mp h
      obtain ⟨hlength, hall⟩ := ih hrest
      have hsmall := (guarded_eq_ok.mp hguard).1
      exact ⟨congrArg (· + 1) hlength,
        List.forall_mem_cons.mpr ⟨by omega, hall⟩⟩

theorem parseTensor_ok {source : ByteSource} {names : List Bytes}
    {expectedOffset : Nat} {cursor next : Cursor}
    {found : Bytes × TensorInfo}
    (h : parseTensor source names expectedOffset cursor =
      .ok (found, next)) : InfoOk found.2 := by
  unfold parseTensor at h
  iterate 7 obtain ⟨_, _, _, h⟩ := parser_bind_eq_ok.mp h
  obtain ⟨declared, _, hdeclared, h⟩ := parser_bind_eq_ok.mp h
  obtain ⟨ggmlType, _, -, h⟩ := parser_bind_eq_ok.mp h
  obtain ⟨block, _, hblock, h⟩ := parser_bind_eq_ok.mp h
  obtain ⟨length, _, hlength, h⟩ := parser_bind_eq_ok.mp h
  iterate 2 obtain ⟨_, _, _, h⟩ := parser_bind_eq_ok.mp h
  obtain ⟨rfl, -⟩ := parser_pure_eq_ok.mp h
  obtain ⟨hcount, hsmall⟩ := readDimensions_ok hdeclared
  exact ⟨⟨block, (orInvalid_eq_ok.mp hblock).1,
    (orInvalid_eq_ok.mp hlength).1⟩, declared, hcount, rfl, hsmall⟩

theorem parseTensors_ok {source : ByteSource} {alignment count : Nat}
    {names : List Bytes} {expectedOffset stop : Nat} {cursor next : Cursor}
    {tensors : List TensorInfo}
    (h : parseTensors source alignment count names expectedOffset cursor =
      .ok ((tensors, stop), next)) : ∀ tensor ∈ tensors, InfoOk tensor := by
  induction count generalizing names expectedOffset cursor next tensors with
  | zero =>
      obtain ⟨heq, -⟩ := parser_pure_eq_ok.mp h
      cases heq
      simp
  | succ count ih =>
      unfold parseTensors at h
      obtain ⟨⟨name, tensor⟩, _, htensor, h⟩ := parser_bind_eq_ok.mp h
      iterate 2 obtain ⟨_, _, _, h⟩ := parser_bind_eq_ok.mp h
      obtain ⟨⟨rest, last⟩, _, hrest, h⟩ := parser_bind_eq_ok.mp h
      obtain ⟨heq, -⟩ := parser_pure_eq_ok.mp h
      cases heq
      exact List.forall_mem_cons.mpr ⟨parseTensor_ok htensor, ih hrest⟩

theorem Chained.inside {alignment expected stop : Nat}
    {tensors : List TensorInfo} (hpos : 0 < alignment)
    (h : Chained alignment expected stop tensors) :
    ∀ tensor ∈ tensors, tensor.offset + tensor.length ≤ stop := by
  induction tensors generalizing expected with
  | nil => simp
  | cons tensor tensors ih =>
      obtain ⟨hoffset, padded, hpadded, hrest⟩ := h
      have hlength := alignUp_le hpos hpadded
      have hle := hrest.le
      exact List.forall_mem_cons.mpr ⟨by omega, ih hrest⟩

theorem parse_tensors {source : ByteSource} {layout : Layout}
    (h : parse source = .ok layout) :
    ∀ tensor ∈ layout.tensors, InfoOk tensor ∧
      layout.dataStart + tensor.offset + tensor.length ≤ source.len := by
  simp only [parse, except_bind_eq_ok, Except.ok.injEq] at h
  obtain ⟨⟨found, next⟩, h, rfl⟩ := h
  unfold parseLayout at h
  obtain ⟨_, _, -, h⟩ := parser_bind_eq_ok.mp h
  obtain ⟨alignment, _, halignment, h⟩ := parser_bind_eq_ok.mp h
  unfold parseDirectory at h
  obtain ⟨_, _, -, h⟩ := parser_bind_eq_ok.mp h
  obtain ⟨⟨tensors, dataLength⟩, _, htensors, h⟩ := parser_bind_eq_ok.mp h
  obtain ⟨_, _, -, h⟩ := parser_bind_eq_ok.mp h
  obtain ⟨dataStart, _, -, h⟩ := parser_bind_eq_ok.mp h
  obtain ⟨expected, _, hexpected, h⟩ := parser_bind_eq_ok.mp h
  obtain ⟨_, _, hguard, h⟩ := parser_bind_eq_ok.mp h
  obtain ⟨heq, -⟩ := parser_pure_eq_ok.mp h
  have hsize := (checkedAdd_eq_some.mp (orInvalid_eq_ok.mp hexpected).1).1
  have hfile := (guarded_eq_ok.mp hguard).1
  have hinside := (parseTensors_chained htensors).inside
    (parseAlignment_pos halignment)
  cases heq
  intro tensor hmem
  have hstop := hinside tensor hmem
  refine ⟨parseTensors_ok htensors tensor hmem, ?_⟩
  change dataStart + tensor.offset + tensor.length ≤ source.len
  omega

/-- The canonical name of a ggml type. -/
def ggmlTypeName : Nat → Option Text
  | 0 => some "F32".toList
  | 1 => some "F16".toList
  | 2 => some "Q4_0".toList
  | 3 => some "Q4_1".toList
  | 6 => some "Q5_0".toList
  | 7 => some "Q5_1".toList
  | 8 => some "Q8_0".toList
  | 9 => some "Q8_1".toList
  | 10 => some "Q2_K".toList
  | 11 => some "Q3_K".toList
  | 12 => some "Q4_K".toList
  | 13 => some "Q5_K".toList
  | 14 => some "Q6_K".toList
  | 15 => some "Q8_K".toList
  | 16 => some "IQ2_XXS".toList
  | 17 => some "IQ2_XS".toList
  | 18 => some "IQ3_XXS".toList
  | 19 => some "IQ1_S".toList
  | 20 => some "IQ4_NL".toList
  | 21 => some "IQ3_S".toList
  | 22 => some "IQ2_S".toList
  | 23 => some "IQ4_XS".toList
  | 24 => some "I8".toList
  | 25 => some "I16".toList
  | 26 => some "I32".toList
  | 27 => some "I64".toList
  | 28 => some "F64".toList
  | 29 => some "IQ1_M".toList
  | 30 => some "BF16".toList
  | 34 => some "TQ1_0".toList
  | 35 => some "TQ2_0".toList
  | 39 => some "MXFP4".toList
  | 40 => some "NVFP4".toList
  | 41 => some "Q1_0".toList
  | 42 => some "Q2_0".toList
  | _ => none

def inventoryTensor (layout : Layout) (tensor : TensorInfo) :
    InventoryTensor :=
  ⟨tensor.name, (ggmlTypeName tensor.ggmlType).getD "UNKNOWN".toList,
    logicalShape tensor, layout.dataStart + tensor.offset, tensor.length⟩

def inventory {source : ByteSource} (layout : Layout)
    (h : parse source = .ok layout) : TensorInventory where
  format := .ggufV1
  tensors := layout.tensors.map (inventoryTensor layout)
  inside := by
    intro tensor hmem
    obtain ⟨info, hinfo, rfl⟩ := List.mem_map.mp hmem
    have hinside := (parse_tensors h info hinfo).2
    have hlen := source.len_lt
    simp only [inventoryTensor]
    omega

end Gguf

/-- A GGUF inventory; a file of another shape has none. -/
def ggufInventory (source : ByteSource) :
    Except PlanError (Option TensorInventory) :=
  if 24 ≤ source.len then
    match h : Gguf.parse source with
    | .ok layout => .ok (some (Gguf.inventory layout h))
    | .error .invalid => .ok none
    | .error .read => .error .read
    | .error .resourceExhausted => .error .resourceExhausted
  else .ok none

def safetensorsInventory (P : Platform) (source : ByteSource) :
    Except PlanError (Option TensorInventory) :=
  match h : Safetensors.readLayout P source with
  | .ok (some layout) => .ok (some (Safetensors.inventory layout h))
  | .ok none => .ok none
  | .error refusal => .error refusal

def inventory (P : Platform) (source : ByteSource) :
    Except PlanError (Option TensorInventory) := do
  source.checkUnchanged
  match ← ggufInventory source with
  | some found => .ok (some found)
  | none => safetensorsInventory P source

end TensorFS
