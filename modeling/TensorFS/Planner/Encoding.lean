import TensorFS.Planner.Inventory

namespace TensorFS

open Data

/-! How the dtypes of an inventory encode their elements. -/

/-- The elements of one encoded block and its bytes. -/
def blockOf (dtype : Text) : Option (Nat × Nat) :=
  match Safetensors.dtypeBits dtype with
  | some bits => some (8, bits)
  | none => (List.range 43).findSome? fun ggmlType =>
      if Gguf.ggmlTypeName ggmlType = some dtype then
        Gguf.ggmlLayout ggmlType
      else none

/-- The bytes of one encoded element, where it has a whole number of them. -/
def elementBytes (dtype : Text) : Option Nat := do
  let block ← blockOf dtype
  if block.1 ∣ block.2 then some (block.2 / block.1) else none

/-- The block dtypes that spend more than a byte on an element, and no whole
number of them. -/
def overweightDtypes : List Text := ["Q8_0", "Q8_1", "Q8_K"].map String.toList

theorem dtypeBits_cases {dtype : Text} {bits : Nat}
    (h : Safetensors.dtypeBits dtype = some bits) :
    bits ∈ [4, 6, 8, 16, 32, 64] := by
  unfold Safetensors.dtypeBits at h
  repeat' split at h
  all_goals cases h
  all_goals decide

theorem blockOf_cases {dtype : Text} {block : Nat × Nat}
    (h : blockOf dtype = some block) :
    0 < block.1 ∧ 0 < block.2 ∧
      (block.1 ∣ block.2 ∨ block.2 < block.1 ∨ dtype ∈ overweightDtypes) := by
  unfold blockOf at h
  split at h
  · rename_i bits hbits
    cases h
    have hall : ∀ bits ∈ [4, 6, 8, 16, 32, 64],
        0 < bits ∧ (8 ∣ bits ∨ bits < 8) := by
      decide
    obtain ⟨hpos, hcases⟩ := hall bits (dtypeBits_cases hbits)
    exact ⟨Nat.succ_pos 7, hpos, hcases.imp_right .inl⟩
  · obtain ⟨ggmlType, hmem, hfound⟩ := List.exists_of_findSome?_eq_some h
    split at hfound
    · rename_i hname
      have hall : ∀ ggmlType ∈ List.range 43,
          ∀ block ∈ Gguf.ggmlLayout ggmlType,
            0 < block.1 ∧ 0 < block.2 ∧
              (block.1 ∣ block.2 ∨ block.2 < block.1 ∨
                ∀ name ∈ Gguf.ggmlTypeName ggmlType,
                  name ∈ overweightDtypes) := by
        decide
      obtain ⟨helements, hbytes, hcases⟩ := hall ggmlType hmem block hfound
      exact ⟨helements, hbytes,
        hcases.imp_right (Or.imp_right fun hnames => hnames dtype hname)⟩
    · cases hfound

theorem elementBytes_overweight {dtype : Text}
    (h : dtype ∈ overweightDtypes) : elementBytes dtype = none := by
  have hall : ∀ dtype ∈ overweightDtypes, elementBytes dtype = none := by
    decide
  exact hall dtype h

/-- The canonical name of a ggml type encodes as the type does. -/
theorem blockOf_ggml {ggmlType : Nat} {block : Nat × Nat}
    (h : Gguf.ggmlLayout ggmlType = some block) :
    0 < block.1 ∧ ∃ name found, Gguf.ggmlTypeName ggmlType = some name ∧
      blockOf name = some found ∧ block.1 * found.2 = block.2 * found.1 := by
  have hsmall : ggmlType < 43 := by
    unfold Gguf.ggmlLayout at h
    split at h
    all_goals first | omega | cases h
  have hall : ∀ ggmlType ∈ List.range 43,
      ∀ block ∈ Gguf.ggmlLayout ggmlType,
        0 < block.1 ∧ ∃ name ∈ Gguf.ggmlTypeName ggmlType, ∃ found ∈ blockOf name,
          block.1 * found.2 = block.2 * found.1 := by
    decide
  obtain ⟨hpos, name, hname, found, hfound, heq⟩ :=
    hall ggmlType (List.mem_range.mpr hsmall) block h
  exact ⟨hpos, name, found, hname, hfound, heq⟩

/-- The bytes of a tensor are the blocks of its elements. -/
def InventoryTensor.Encoded (tensor : InventoryTensor) : Prop :=
  ∃ block, blockOf tensor.dtype = some block ∧
    tensor.length * block.1 =
      (tensor.shape.map UInt64.toNat).prod * block.2

theorem Safetensors.EntryOk.encoded {fileSize : Nat} {layout : Layout}
    {tensor : TensorEntry} (h : EntryOk fileSize layout.headerEnd tensor) :
    (inventoryTensor layout tensor).Encoded := by
  obtain ⟨offsets, hsize⟩ := h.size
  simp only [tensorByteSize, Option.bind_eq_bind, Option.bind_eq_some_iff,
    checkedMul_eq_some] at hsize
  obtain ⟨bits, hbits, elements, helements, total, ⟨rfl, -⟩, hsize⟩ := hsize
  split at hsize
  · rename_i hwhole
    have hproduct := checkedProduct_eq helements
    rw [Nat.one_mul] at hproduct
    refine ⟨(8, bits), by rw [inventoryTensor, blockOf, hbits], ?_⟩
    simp only [inventoryTensor, Option.some.injEq] at hsize ⊢
    rw [← hsize, ← hproduct]
    omega
  · cases hsize

theorem Gguf.tensorLength_eq {dimensions : List Nat} {block : Nat × Nat}
    {length : Nat} (hdimensions : dimensions ≠ [])
    (h : tensorLength dimensions block.1 block.2 = some length) :
    length * block.1 = dimensions.prod * block.2 := by
  obtain ⟨first, rest, rfl⟩ := List.exists_cons_of_ne_nil hdimensions
  by_cases hwhole : first % block.1 = 0
  · simp only [tensorLength, List.headD_cons, List.tail_cons, hwhole, if_true,
      Option.bind_eq_bind, Option.bind_eq_some_iff] at h
    obtain ⟨count, -, h⟩ := h
    split at h
    · simp only [Option.bind_eq_some_iff, checkedMul_eq_some] at h
      obtain ⟨row, ⟨rfl, -⟩, h⟩ := h
      have hfirst := Nat.div_mul_cancel (Nat.dvd_of_mod_eq_zero hwhole)
      rw [checkedProduct_eq h, List.prod_cons]
      calc first / block.1 * block.2 * rest.prod * block.1
          = first / block.1 * block.1 * rest.prod * block.2 := by ring
        _ = first * rest.prod * block.2 := by rw [hfirst]
    · cases h
  · simp [tensorLength, hwhole] at h

theorem Gguf.InfoOk.encoded {layout : Layout} {tensor : TensorInfo}
    (h : InfoOk tensor) : (inventoryTensor layout tensor).Encoded := by
  obtain ⟨block, hblock, hlength⟩ := h.block
  obtain ⟨declared, hcount, hdimensions, hsmall⟩ := h.declared
  obtain ⟨hpos, name, found, hname, hfound, hsame⟩ := blockOf_ggml hblock
  have hshape : (logicalShape tensor).map UInt64.toNat = declared.reverse := by
    rw [logicalShape, hdimensions, ← hcount, List.take_left, List.map_map]
    refine (List.map_congr_left fun dimension hmem => ?_).trans
      (List.map_id _)
    exact UInt64.toNat_ofNat_of_lt'
      (hsmall dimension (List.mem_reverse.mp hmem))
  have hprod : ((logicalShape tensor).map UInt64.toNat).prod =
      tensor.dimensions.prod := by
    rw [hshape, hdimensions, List.prod_append, List.prod_replicate, one_pow,
      Nat.mul_one, List.prod_reverse]
  have hne : tensor.dimensions ≠ [] := by
    refine List.ne_nil_of_length_pos ?_
    rw [hdimensions, List.length_append, List.length_replicate]
    omega
  have heq := tensorLength_eq hne hlength
  refine ⟨found, by rw [inventoryTensor, hname, Option.getD_some, hfound], ?_⟩
  rw [inventoryTensor, hprod]
  refine Nat.eq_of_mul_eq_mul_right hpos ?_
  calc tensor.length * found.1 * block.1
      = tensor.length * block.1 * found.1 := by ring
    _ = tensor.dimensions.prod * (block.2 * found.1) := by
        rw [heq, Nat.mul_assoc]
    _ = tensor.dimensions.prod * found.2 * block.1 := by
        rw [← hsame]
        ring

/-- Every tensor of an inventory is encoded as its dtype says. -/
theorem inventory_encoded {P : Platform} {source : ByteSource}
    {found : TensorInventory}
    (h : inventory P source = .ok (some found)) :
    ∀ tensor ∈ found.tensors, tensor.Encoded := by
  simp only [inventory, except_bind_eq_ok] at h
  obtain ⟨_, -, gguf, hgguf, h⟩ := h
  cases gguf with
  | some gguf =>
      cases h
      unfold ggufInventory at hgguf
      split at hgguf
      · split at hgguf
        · rename_i layout hparse
          cases hgguf
          intro tensor hmem
          obtain ⟨info, hinfo, rfl⟩ := List.mem_map.mp hmem
          exact (Gguf.parse_tensors hparse info hinfo).1.encoded
        all_goals cases hgguf
      · cases hgguf
  | none =>
      simp only [safetensorsInventory] at h
      split at h
      · rename_i layout hlayout
        cases h
        intro tensor hmem
        obtain ⟨entry, hentry, rfl⟩ := List.mem_map.mp hmem
        exact (Safetensors.readLayout_entries hlayout entry hentry).encoded
      all_goals cases h

end TensorFS
