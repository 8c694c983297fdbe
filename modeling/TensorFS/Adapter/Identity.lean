import TensorFS.Adapter.Cuts

namespace TensorFS

open Data

/-! A layout viewed as itself. -/

/-- The declared dtypes and rank admit the tensor. -/
def TensorPattern.accepts (entry : TensorPattern) (dtype : Text)
    (shape : List UInt64) : Bool :=
  if entry.dtypes ≠ [] ∧ dtype ∉ entry.dtypes then false
  else if entry.rank.any (· ≠ shape.length) then false
  else true

/-- Every tensor is declared and admitted, and every required declaration is
there. -/
structure Contract.Describes (contract : Contract)
    (inventory : TensorInventory) : Prop where
  matched : ∀ tensor ∈ inventory.tensors, ∃ entry ∈ contract.tensors,
    entry.pattern.isMatch tensor.name = true ∧
      entry.accepts tensor.dtype tensor.shape = true
  present : ∀ entry ∈ contract.tensors, entry.required = true →
    ∃ tensor ∈ inventory.tensors, entry.pattern.isMatch tensor.name = true

/-- The derived tensor is the file's own: name, dtype, shape, and the bytes in
their order. -/
structure DerivedTensor.Spans (derived : DerivedTensor)
    (tensor : InventoryTensor) : Prop where
  name : derived.name = tensor.name
  dtype : derived.dtype = tensor.dtype
  shape : derived.shape = tensor.shape
  transform : derived.transform = .identity
  owner : ∀ run ∈ derived.runs, run.tensor = tensor.name
  bytes : Contiguous (tensor.offset + tensor.length) tensor.offset
    derived.runs

/-- The derived tensors are the inventory's, each once. -/
def Adapter.Restores (adapter : Adapter) (inventory : TensorInventory) :
    Prop :=
  ∃ tensors, tensors.Perm inventory.tensors ∧
    List.Forall₂ DerivedTensor.Spans adapter.tensors tensors

namespace Adapter

/-- One declaration, at one choice of its values, and no other, reads the parts
of the tensor, expects them in their order, and names them as the tensor. -/
structure ReadBack (contract : Contract) (tensor : InventoryTensor)
    (entry : TensorPattern) (values : List Nat) : Prop where
  declared : entry ∈ contract.tensors
  name : entry.pattern.instantiate values = some tensor.name
  parts : ∃ base, entry.role.captures base = some values ∧
    (entrySuffixes entry).map (base ++ ·) = rolesOf contract tensor
  permute : entry.permute = contract.permuteFor tensor.name
  alone : ∀ other ∈ contract.tensors, ∀ found,
    ∀ role ∈ rolesOf contract tensor, Reads other found role →
      other = entry ∧ found = values

/-- When a contract and a file of its layout are viewed as what they are. -/
structure SelfViewable (contract : Contract) (inventory : TensorInventory) :
    Prop where
  inhabited : inventory.tensors ≠ []
  rowed : ∀ tensor ∈ inventory.tensors, Rowed tensor
  divided : ∀ tensor ∈ inventory.tensors, Divided contract tensor
  apart : (inventory.tensors.flatMap (rolesOf contract)).Nodup
  readBack : ∀ tensor ∈ inventory.tensors, ∃ entry values,
    ReadBack contract tensor entry values
  required : ∀ entry ∈ contract.tensors, entry.required = true →
    ∃ tensor ∈ inventory.tensors, ∃ role ∈ rolesOf contract tensor,
      ∃ values, Reads entry values role

variable {contract : Contract} {inventory : TensorInventory}
  {tensor : InventoryTensor} {entry : TensorPattern} {values : List Nat}
  {available : OrdMap Text SourceRun}

theorem map_role_cuts {tensors : List InventoryTensor} :
    (tensors.flatMap (cutsOf contract)).map SourceRun.role =
      tensors.flatMap (rolesOf contract) := by
  rw [List.map_flatMap]
  rfl

/-- The runs of a file whose cuts go under different roles. -/
structure Loaded (contract : Contract) (inventory : TensorInventory)
    (available : OrdMap Text SourceRun) : Prop where
  fits : Fits .empty (inventory.tensors.flatMap (cutsOf contract))
  runs : available =
    insertRuns .empty (inventory.tensors.flatMap (cutsOf contract))

theorem fits_empty_iff {cuts : List SourceRun} :
    Fits .empty cuts ↔ (cuts.map SourceRun.role).Nodup := by
  constructor
  · exact Fits.apart
  · intro h
    exact ⟨fun _ _ => OrdMap.get?_eq_none.mpr (by simp), h⟩

theorem Loaded.mem (h : Loaded contract inventory available)
    {pair : Text × SourceRun} :
    pair ∈ available.entries ↔ ∃ tensor ∈ inventory.tensors,
      ∃ run ∈ cutsOf contract tensor, pair = (run.role, run) := by
  rw [h.runs, mem_insertRuns h.fits]
  simp only [OrdMap.entries_empty, List.not_mem_nil, false_or,
    List.mem_flatMap]
  constructor
  · intro hgiven
    obtain ⟨run, ⟨tensor, htensor, hrun⟩, hpair⟩ := hgiven
    exact ⟨tensor, htensor, run, hrun, hpair⟩
  · intro hgiven
    obtain ⟨tensor, htensor, run, hrun, hpair⟩ := hgiven
    exact ⟨run, ⟨tensor, htensor, hrun⟩, hpair⟩

theorem Loaded.get (h : Loaded contract inventory available) {role : Text}
    {run : SourceRun} :
    available.get? role = some run ↔ ∃ tensor ∈ inventory.tensors,
      run ∈ cutsOf contract tensor ∧ run.role = role := by
  rw [OrdMap.get?_eq_some, h.mem]
  constructor
  · intro hgiven
    obtain ⟨tensor, htensor, other, hother, heq⟩ := hgiven
    cases heq
    exact ⟨tensor, htensor, hother, rfl⟩
  · intro hgiven
    obtain ⟨tensor, htensor, hrun, hrole⟩ := hgiven
    exact ⟨tensor, htensor, run, hrun, by rw [hrole]⟩

/-- A declaration reads a role of the file when it reads one of a tensor. -/
theorem Loaded.reads (h : Loaded contract inventory available) :
    (entry, values) ∈ readings available contract ↔
      entry ∈ contract.tensors ∧ ∃ tensor ∈ inventory.tensors,
        ∃ role ∈ rolesOf contract tensor, Reads entry values role := by
  rw [mem_readings]
  refine and_congr_right fun _ => ?_
  constructor
  · intro hgiven
    obtain ⟨pair, hpair, hreads⟩ := hgiven
    obtain ⟨tensor, htensor, run, hrun, rfl⟩ := h.mem.mp hpair
    exact ⟨tensor, htensor, run.role, List.mem_map_of_mem hrun, hreads⟩
  · intro hgiven
    obtain ⟨tensor, htensor, role, hrole, hreads⟩ := hgiven
    obtain ⟨run, hrun, rfl⟩ := List.mem_map.mp hrole
    exact ⟨(run.role, run), h.mem.mpr ⟨tensor, htensor, run, hrun, rfl⟩,
      hreads⟩

theorem readings_nodup (hdistinct : contract.tensors.Nodup) :
    (readings available contract).Nodup := by
  unfold readings
  rw [List.nodup_flatMap]
  constructor
  · intro entry _
    exact entryCaptures_nodup.map fun _ _ heq => (Prod.mk.inj heq).2
  · refine hdistinct.imp fun {entry other} hne pair hpair hother => ?_
    obtain ⟨_, -, rfl⟩ := List.mem_map.mp hpair
    obtain ⟨_, -, heq⟩ := List.mem_map.mp hother
    exact hne (Prod.mk.inj heq).1.symm

/-! Deriving one tensor. -/

theorem gatherRuns_eq_ok {base : Text} {suffixes : List Text}
    {runs : List SourceRun} :
    gatherRuns available base suffixes = .ok runs ↔
      List.Forall₂ (fun suffix run =>
        available.get? (base ++ suffix) = some run) suffixes runs := by
  induction suffixes generalizing runs with
  | nil =>
      rw [gatherRuns, List.forall₂_nil_left_iff, Except.ok.injEq, eq_comm]
  | cons suffix suffixes ih =>
      rw [gatherRuns, List.forall₂_cons_left_iff]
      split
      · rename_i hnone
        simp [hnone]
      · rename_i run hsome
        simp only [except_bind_eq_ok, Except.ok.injEq, ih, hsome,
          Option.some.injEq]
        constructor
        · intro h
          obtain ⟨rest, hrest, hruns⟩ := h
          exact ⟨run, rest, rfl, hrest, hruns.symm⟩
        · intro h
          obtain ⟨_, rest, hrun, hrest, hruns⟩ := h
          exact ⟨rest, hrest, hrun ▸ hruns.symm⟩

theorem checkRuns_eq_ok {name : Text} {first : SourceRun}
    {runs : List SourceRun} :
    checkRuns name first runs = .ok () ↔
      ∀ run ∈ runs, run.dtype = first.dtype ∧
        run.rowShape = first.rowShape ∧ run.permute = first.permute := by
  induction runs with
  | nil => simp [checkRuns]
  | cons run runs ih =>
      simp only [checkRuns, except_bind_eq_ok, ensure_eq_ok, exists_unit,
        ih, List.forall_mem_cons, and_assoc]

theorem transformBetween_eq_identity {name : Text}
    {source target : Option Permute} :
    transformBetween name source target = .ok .identity ↔
      source = target := by
  unfold transformBetween
  cases source <;> cases target <;> simp

/-- The tensor as the file has it. -/
def viewOf (contract : Contract) (tensor : InventoryTensor) :
    DerivedTensor where
  name := tensor.name
  dtype := tensor.dtype
  shape := tensor.shape
  runs := cutsOf contract tensor
  transform := .identity

theorem instanceTensor_eq_ok {derived : DerivedTensor} :
    instanceTensor available entry values = .ok derived ↔
      entry.pattern.instantiate values = some derived.name ∧
        (∃ base, entry.role.instantiate values = some base ∧
          List.Forall₂ (fun suffix run =>
            available.get? (base ++ suffix) = some run)
            (entrySuffixes entry) derived.runs) ∧
        derivedTensor derived.name derived.runs entry.permute =
          .ok derived := by
  have horFailed : ∀ (found : Option Text) (text : Text),
      orFailed found = .ok text ↔ found = some text := by
    intro found text
    cases found <;> simp [orFailed]
  simp only [instanceTensor, except_bind_eq_ok, horFailed, gatherRuns_eq_ok]
  constructor
  · intro h
    obtain ⟨name, hname, base, hbase, runs, hruns, hderived⟩ := h
    have hown := derivedTensor_runs hderived
    have hcalled : derived.name = name := by
      unfold derivedTensor at hderived
      split at hderived
      · cases hderived
      · simp only [except_bind_eq_ok] at hderived
        obtain ⟨_, _, _, _, h⟩ := hderived
        cases h
        rfl
    rw [hown, hcalled]
    exact ⟨hname, ⟨base, hbase, hruns⟩, hderived⟩
  · intro h
    obtain ⟨hname, ⟨base, hbase, hruns⟩, hderived⟩ := h
    exact ⟨_, hname, base, hbase, _, hruns, hderived⟩

/-- A derived tensor whose bytes stay where they are. -/
theorem derivedTensor_identity_iff {name : Text} {runs : List SourceRun}
    {target : Option Permute} {derived : DerivedTensor} :
    (derivedTensor name runs target = .ok derived ∧
        derived.transform = .identity) ↔
      ∃ first, runs.head? = some first ∧
        (∀ run ∈ runs, run.dtype = first.dtype ∧
          run.rowShape = first.rowShape ∧ run.permute = first.permute) ∧
        first.permute = target ∧
        derived = ⟨name, first.dtype,
          UInt64.ofNat (runs.map SourceRun.rows).sum :: first.rowShape, runs,
          .identity⟩ := by
  cases runs with
  | nil => simp [derivedTensor]
  | cons first rest =>
      simp only [derivedTensor, except_bind_eq_ok, exists_unit,
        checkRuns_eq_ok, Except.ok.injEq, List.head?_cons, Option.some.injEq,
        exists_eq_left']
      constructor
      · intro h
        obtain ⟨⟨hsame, transform, htransform, hderived⟩, hidentity⟩ := h
        subst hderived
        simp only at hidentity
        subst hidentity
        exact ⟨hsame, transformBetween_eq_identity.mp htransform, rfl⟩
      · intro h
        obtain ⟨hsame, htarget, hderived⟩ := h
        subst hderived
        exact ⟨⟨hsame, _, transformBetween_eq_identity.mpr htarget, rfl⟩, rfl⟩

/-- The tensor as the file has it is what its reading derives. -/
theorem instanceTensor_of_readBack
    (hloaded : Loaded contract inventory available)
    (hrole : (contract.baseRole tensor.name).isSome)
    (hmem : tensor ∈ inventory.tensors) (hrowed : Rowed tensor)
    (hdivided : Divided contract tensor)
    (hread : ReadBack contract tensor entry values) :
    instanceTensor available entry values = .ok (viewOf contract tensor) := by
  obtain ⟨base, hcaptures, hparts⟩ := hread.parts
  have hinside := inventory.inside tensor hmem
  rw [instanceTensor_eq_ok]
  refine ⟨hread.name, ⟨base, Pattern.instantiate_of_captures hcaptures, ?_⟩,
    ?_⟩
  · -- every suffix names the cut in its place
    have hroles : List.Forall₂ (fun suffix run => base ++ suffix = run.role)
        (entrySuffixes entry) (cutsOf contract tensor) := by
      rw [← List.forall₂_map_right_iff (f := SourceRun.role)
          (R := fun suffix role => base ++ suffix = role),
        ← List.forall₂_map_left_iff (f := (base ++ ·)) (R := (· = ·)),
        List.forall₂_eq_eq_eq]
      exact hparts
    have hboth := (List.forall₂_and_left (p := (· ∈ cutsOf contract tensor))
      _ _).mpr ⟨fun _ hrun => hrun, hroles.flip⟩
    refine hboth.flip.imp fun suffix run h => ?_
    exact hloaded.get.mpr ⟨tensor, hmem, h.1, h.2.symm⟩
  · obtain ⟨rows, hhead, hdivides⟩ := hrowed.rows
    obtain ⟨hpos, -, hrow, -⟩ := hrowed.rowBytes hhead
    have hlengths := lengths_cutsOf hrole
    have htotal : ((cutsOf contract tensor).map SourceRun.length).sum =
        tensor.length := by
      rw [hlengths, hdivided.total]
    have hwhole := (partsOf_rows (by omega) hdivided.settled).2 hrowed
    have hsum : ((cutsOf contract tensor).map SourceRun.rows).sum =
        rows.toNat := by
      rw [sum_rows (rowBytes tensor) (fun run hrun => ?_)
        fun run hrun => (cutsOf_same hrun).2.2.2.2, htotal, hrow,
        Nat.div_div_self hdivides hrowed.bytes.ne']
      obtain ⟨part, hpart, _, _, rfl⟩ := mem_cutsOf hrun
      exact hwhole part hpart
    have hshape : tensor.shape = rows :: tensor.shape.tail := by
      obtain ⟨tail, htail⟩ := List.head?_eq_some_iff.mp hhead
      rw [htail]
      rfl
    have hne : cutsOf contract tensor ≠ [] := by
      intro hnil
      rw [hnil] at htotal
      have hbytes := hrowed.bytes
      simp only [List.map_nil, List.sum_nil] at htotal
      omega
    refine (derivedTensor_identity_iff.mpr ?_).1
    obtain ⟨first, rest, hcuts⟩ := List.exists_cons_of_ne_nil hne
    have hfirst : first ∈ cutsOf contract tensor :=
      hcuts ▸ List.mem_cons_self
    obtain ⟨-, hdtype, hrowShape, hpermute, -⟩ := cutsOf_same hfirst
    refine ⟨first, ?_, fun run hrun => ?_,
      hpermute.trans hread.permute.symm, ?_⟩
    · simp only [viewOf]
      rw [hcuts]
      rfl
    · obtain ⟨-, hdtype', hrowShape', hpermute', -⟩ := cutsOf_same hrun
      exact ⟨hdtype'.trans hdtype.symm, hrowShape'.trans hrowShape.symm,
        hpermute'.trans hpermute.symm⟩
    · simp only [viewOf]
      rw [hsum, hdtype, hrowShape, UInt64.ofNat_toNat, ← hshape]

theorem viewOf_spans (hrole : (contract.baseRole tensor.name).isSome)
    (hmem : tensor ∈ inventory.tensors)
    (hdivided : Divided contract tensor) :
    (viewOf contract tensor).Spans tensor :=
  ⟨rfl, rfl, rfl, rfl, fun _ hrun => (cutsOf_same hrun).1,
    contiguous_cutsOf hrole (inventory.inside tensor hmem) hdivided.total⟩

/-! Reading a tensor back from what was derived for it. -/

theorem name_injective {tensors : List InventoryTensor}
    (hnames : (tensors.map InventoryTensor.name).Nodup)
    {tensor other : InventoryTensor} (hmem : tensor ∈ tensors)
    (hother : other ∈ tensors) (h : tensor.name = other.name) :
    tensor = other :=
  List.inj_on_of_nodup_map hnames hmem hother h

/-- What is derived for a tensor is its cuts, once every one of them is
taken. -/
theorem runs_of_spans (hloaded : Loaded contract inventory available)
    (hnames : (inventory.tensors.map InventoryTensor.name).Nodup)
    (hrole : (contract.baseRole tensor.name).isSome)
    (hmem : tensor ∈ inventory.tensors)
    (hsettled : ∃ declared, contract.runsOf (ε := AdapterError) tensor.name
      tensor.shape tensor.length = .ok declared)
    (hwhole : ∀ run ∈ cutsOf contract tensor, WholeRows tensor run)
    {derived : DerivedTensor}
    (hderived : instanceTensor available entry values = .ok derived)
    (hspans : derived.Spans tensor)
    (htaken : ∀ run ∈ cutsOf contract tensor, run ∈ derived.runs) :
    0 < tensor.length ∧ Divided contract tensor ∧
      derived.runs = cutsOf contract tensor := by
  obtain ⟨-, ⟨base, -, hgathered⟩, hshape⟩ := instanceTensor_eq_ok.mp hderived
  have hown : ∀ run ∈ derived.runs, run ∈ cutsOf contract tensor := by
    intro run hrun
    obtain ⟨suffix, -, hget⟩ := mem_of_forall₂ hgathered hrun
    obtain ⟨other, hother, hcut, -⟩ := hloaded.get.mp hget
    have hname := (cutsOf_same hcut).1.symm.trans (hspans.owner run hrun)
    exact name_injective hnames hother hmem hname ▸ hcut
  obtain ⟨first, hfirst, -⟩ :=
    derivedTensor_identity_iff.mp ⟨hshape, hspans.transform⟩
  have hbytes : 0 < tensor.length := by
    have hrow := (hwhole first (hown first (List.mem_of_head? hfirst))).1
    refine Nat.pos_of_ne_zero fun hzero => hrow ?_
    rw [rowBytes, hzero, Nat.zero_div]
  have hinside := inventory.inside tensor hmem
  have hpos : ∀ run ∈ cutsOf contract tensor, 0 < run.length := by
    intro run hrun
    obtain ⟨part, hpart, _, _, rfl⟩ := mem_cutsOf hrun
    exact (partsOf_rows (by omega) hsettled).1 hbytes part hpart
  have hcutsNodup : (cutsOf contract tensor).Nodup := by
    have hsub : (cutsOf contract tensor).Sublist
        (inventory.tensors.flatMap (cutsOf contract)) :=
      List.sublist_flatten_of_mem (List.mem_map_of_mem hmem)
    exact (hloaded.fits.apart.sublist (hsub.map SourceRun.role)).of_map
  have hrunsNodup : derived.runs.Nodup := by
    refine ((hspans.bytes.rising fun run hrun =>
      hpos run (hown run hrun)).2).imp fun hlt heq => ?_
    exact absurd hlt (heq ▸ lt_irrefl _)
  have hperm : derived.runs.Perm (cutsOf contract tensor) :=
    (List.perm_ext_iff_of_nodup hrunsNodup hcutsNodup).mpr fun run =>
      ⟨hown run, htaken run⟩
  have htotal : ((contract.partsOf tensor).map FusionRun.length).sum =
      tensor.length := by
    have hsum := (hperm.map SourceRun.length).sum_eq
    rw [lengths_cutsOf hrole] at hsum
    have hall := hspans.bytes.total
    omega
  exact ⟨hbytes, ⟨hsettled, htotal⟩, hspans.bytes.eq_of_perm hpos
    (contiguous_cutsOf hrole hinside htotal) hperm⟩

/-- Such a tensor is whole rows, under the permute of its declaration. -/
theorem rowed_of_spans (hlength : tensor.length < 2 ^ 64)
    (hrole : (contract.baseRole tensor.name).isSome)
    (hdivided : Divided contract tensor) (hbytes : 0 < tensor.length)
    (hwhole : ∀ run ∈ cutsOf contract tensor, WholeRows tensor run)
    {derived : DerivedTensor}
    (hderived : instanceTensor available entry values = .ok derived)
    (hspans : derived.Spans tensor)
    (hruns : derived.runs = cutsOf contract tensor) :
    Rowed tensor ∧ entry.permute = contract.permuteFor tensor.name := by
  obtain ⟨-, -, hshape⟩ := instanceTensor_eq_ok.mp hderived
  obtain ⟨first, hfirst, -, hpermute, hown⟩ :=
    derivedTensor_identity_iff.mp ⟨hshape, hspans.transform⟩
  rw [hruns] at hfirst
  have hmem := List.mem_of_head? hfirst
  refine ⟨⟨hbytes, ?_⟩, hpermute.symm.trans (cutsOf_same hmem).2.2.2.1⟩
  have htotal : ((cutsOf contract tensor).map SourceRun.length).sum =
      tensor.length := by
    rw [lengths_cutsOf hrole, hdivided.total]
  have hdims : tensor.shape =
      UInt64.ofNat (tensor.length / rowBytes tensor) :: first.rowShape := by
    rw [← hspans.shape, hown]
    simp only
    rw [hruns, sum_rows (rowBytes tensor)
      (fun run hrun => (hwhole run hrun).2)
      (fun run hrun => (cutsOf_same hrun).2.2.2.2), htotal]
  have hrows : rowBytes tensor ∣ tensor.length := by
    rw [← htotal]
    refine List.dvd_sum fun length hin => ?_
    obtain ⟨run, hrun, rfl⟩ := List.mem_map.mp hin
    exact (hwhole run hrun).2
  have hsmall : tensor.length / rowBytes tensor < 2 ^ 64 :=
    lt_of_le_of_lt (Nat.div_le_self _ _) hlength
  refine ⟨_, by rw [hdims]; rfl, ?_⟩
  rw [UInt64.toNat_ofNat_of_lt' hsmall]
  exact Nat.div_dvd_of_dvd hrows

end Adapter

end TensorFS
