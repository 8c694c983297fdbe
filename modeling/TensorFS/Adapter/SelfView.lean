import TensorFS.Adapter.Identity
import TensorFS.Data.Sha256
import TensorFS.Planner.Hash
import TensorFS.Tfm1.Bijection

namespace TensorFS

open Data

/-! When a file is viewed as what it is. -/

namespace Adapter

variable {contract : Contract} {inventory : TensorInventory}
  {tensor : InventoryTensor} {entry : TensorPattern} {values : List Nat}
  {available : OrdMap Text SourceRun}

theorem roleRuns_eq_ok (hroles : ∀ tensor ∈ inventory.tensors,
    (contract.baseRole tensor.name).isSome) :
    roleRuns contract inventory = .ok available ↔
      (∀ tensor ∈ inventory.tensors, (∃ declared, contract.runsOf
        (ε := AdapterError) tensor.name tensor.shape tensor.length =
          .ok declared) ∧
        ∀ run ∈ cutsOf contract tensor, WholeRows tensor run) ∧
      Loaded contract inventory available := by
  rw [roleRuns, foldlM_tensorRuns_eq_ok hroles]
  constructor
  · intro h
    obtain ⟨hall, hfits, hruns⟩ := h
    exact ⟨hall, hfits, hruns⟩
  · intro h
    obtain ⟨hall, hfits, hruns⟩ := h
    exact ⟨hall, hfits, hruns⟩

theorem decide_runPreserving_iff {adapter : Adapter} :
    Adapter.decide contract inventory contract =
        .ok (.runPreserving adapter) ↔
      ∃ available, roleRuns contract inventory = .ok available ∧
        adaptTo available contract = .ok (.runPreserving adapter) := by
  simp only [Adapter.decide, except_bind_eq_ok]
  refine exists_congr fun available => and_congr_right fun _ => ?_
  constructor
  · intro h
    split at h
    · rename_i hadapt
      cases h
      exact hadapt
    · cases h
    · cases h
  · intro h
    rw [h]

theorem rolesOf_ne_nil (hrole : (contract.baseRole tensor.name).isSome)
    (hbytes : 0 < tensor.length) (hdivided : Divided contract tensor) :
    rolesOf contract tensor ≠ [] := by
  intro hnil
  have hcuts : cutsOf contract tensor = [] := List.map_eq_nil_iff.mp hnil
  have htotal := hdivided.total
  rw [← lengths_cutsOf hrole, hcuts] at htotal
  simp only [List.map_nil, List.sum_nil] at htotal
  omega

/-- The reading reads back a tensor of the file. -/
def Reading (contract : Contract) (inventory : TensorInventory)
    (reading : TensorPattern × List Nat) (tensor : InventoryTensor) : Prop :=
  tensor ∈ inventory.tensors ∧
    ReadBack contract tensor reading.1 reading.2

/-- A tensor read back has a part that its declaration reads. -/
theorem ReadBack.reads (hread : ReadBack contract tensor entry values)
    (hne : rolesOf contract tensor ≠ []) :
    ∃ role ∈ rolesOf contract tensor, Reads entry values role := by
  obtain ⟨base, hbase, hparts⟩ := hread.parts
  obtain ⟨role, hrole⟩ := List.exists_mem_of_ne_nil _ hne
  have hin := hrole
  rw [← hparts] at hin
  obtain ⟨suffix, hsuffix, hbehind⟩ := List.mem_map.mp hin
  exact ⟨role, hrole, suffix, hsuffix, base, hbehind.symm, hbase⟩

theorem reading_biUnique
    (hnames : (inventory.tensors.map InventoryTensor.name).Nodup)
    (hroles : ∀ tensor ∈ inventory.tensors, rolesOf contract tensor ≠ []) :
    Relator.BiUnique (Reading contract inventory) := by
  constructor
  · intro reading reading' tensor hleft hright
    obtain ⟨entry, values⟩ := reading
    obtain ⟨other, found⟩ := reading'
    obtain ⟨hmem, hread⟩ := hleft
    obtain ⟨_, hother⟩ := hright
    obtain ⟨role, hrole, hreads⟩ := hother.reads (hroles tensor hmem)
    obtain ⟨hentry, hvalues⟩ :=
      hread.alone other hother.declared found role hrole hreads
    exact Prod.ext hentry.symm hvalues.symm
  · intro reading tensor other hleft hright
    obtain ⟨entry, values⟩ := reading
    obtain ⟨hmem, hread⟩ := hleft
    obtain ⟨hmem', hread'⟩ := hright
    exact name_injective hnames hmem hmem'
      (Option.some.inj (hread.name.symm.trans hread'.name))

/-- The readings of a viewable file, each with the tensor it is of. -/
theorem readings_perm (hdistinct : contract.tensors.Nodup)
    (hnames : (inventory.tensors.map InventoryTensor.name).Nodup)
    (hroles : ∀ tensor ∈ inventory.tensors, rolesOf contract tensor ≠ [])
    (hloaded : Loaded contract inventory available)
    (h : SelfViewable contract inventory) :
    ∃ tensors, tensors.Perm inventory.tensors ∧
      List.Forall₂ (Reading contract inventory)
        (readings available contract) tensors := by
  have hunique := reading_biUnique hnames hroles
  have hfound : ∀ reading ∈ readings available contract,
      ∃ tensor, Reading contract inventory reading tensor := by
    intro reading hmem
    obtain ⟨entry, values⟩ := reading
    obtain ⟨hentry, tensor, htensor, role, hrole, hreads⟩ :=
      hloaded.reads.mp hmem
    obtain ⟨other, found, hread⟩ := h.readBack tensor htensor
    obtain ⟨hown, hvalues⟩ := hread.alone entry hentry values role hrole hreads
    subst hown hvalues
    exact ⟨tensor, htensor, hread⟩
  obtain ⟨tensors, hpairs⟩ := forall₂_choose hfound
  refine ⟨tensors, ?_, hpairs⟩
  have hnodup : tensors.Nodup :=
    (List.rel_nodup hunique hpairs).mp (readings_nodup hdistinct)
  refine (List.perm_ext_iff_of_nodup hnodup
    (List.Nodup.of_map _ hnames)).mpr fun tensor => ?_
  constructor
  · intro hmem
    obtain ⟨_, -, hread⟩ := mem_of_forall₂ hpairs hmem
    exact hread.1
  · intro hmem
    obtain ⟨entry, values, hread⟩ := h.readBack tensor hmem
    have hlisted : (entry, values) ∈ readings available contract :=
      hloaded.reads.mpr ⟨hread.declared, tensor, hmem,
        hread.reads (hroles tensor hmem)⟩
    obtain ⟨found, hfound, hpair⟩ := mem_of_forall₂ hpairs.flip hlisted
    exact hunique.2 hpair ⟨hmem, hread⟩ ▸ hfound

theorem restores_of_selfViewable (hdistinct : contract.tensors.Nodup)
    (hnames : (inventory.tensors.map InventoryTensor.name).Nodup)
    (hroles : ∀ tensor ∈ inventory.tensors,
      (contract.baseRole tensor.name).isSome)
    (h : SelfViewable contract inventory) :
    ∃ adapter, Adapter.decide contract inventory contract =
        .ok (.runPreserving adapter) ∧ adapter.Restores inventory := by
  have hwhole : ∀ tensor ∈ inventory.tensors, (∃ declared, contract.runsOf
      (ε := AdapterError) tensor.name tensor.shape tensor.length =
        .ok declared) ∧
      ∀ run ∈ cutsOf contract tensor, WholeRows tensor run := by
    intro tensor hmem
    have hrowed := h.rowed tensor hmem
    have hdivided := h.divided tensor hmem
    have hinside := inventory.inside tensor hmem
    refine ⟨hdivided.settled, fun run hrun => ?_⟩
    obtain ⟨rows, hhead, -⟩ := hrowed.rows
    obtain ⟨part, hpart, _, _, rfl⟩ := mem_cutsOf hrun
    exact ⟨(hrowed.rowBytes hhead).2.2.2.ne',
      (partsOf_rows (by omega) hdivided.settled).2 hrowed part hpart⟩
  have hparts : ∀ tensor ∈ inventory.tensors, rolesOf contract tensor ≠ [] :=
    fun tensor hmem => rolesOf_ne_nil (hroles tensor hmem)
      (h.rowed tensor hmem).bytes (h.divided tensor hmem)
  have hloaded : Loaded contract inventory (insertRuns .empty
      (inventory.tensors.flatMap (cutsOf contract))) :=
    ⟨fits_empty_iff.mpr (map_role_cuts ▸ h.apart), rfl⟩
  obtain ⟨tensors, hperm, hpairs⟩ :=
    readings_perm hdistinct hnames hparts hloaded h
  have hin : ∀ tensor ∈ tensors, tensor ∈ inventory.tensors :=
    fun _ hmem => hperm.mem_iff.mp hmem
  refine ⟨⟨tensors.map (viewOf contract)⟩, decide_runPreserving_iff.mpr
    ⟨_, (roleRuns_eq_ok hroles).mpr ⟨hwhole, hloaded⟩, ?_⟩, tensors, hperm,
    ?_⟩
  · refine adaptTo_eq_ok.mpr ⟨?_, ?_, ?_, ?_, ?_⟩
    · intro entry hentry hgiven
      obtain ⟨hnone, hrequired⟩ := hgiven
      obtain ⟨tensor, hmem, role, hrole, values, hreads⟩ :=
        h.required entry hentry hrequired
      have hlisted := hloaded.reads.mpr
        ⟨hentry, tensor, hmem, role, hrole, hreads⟩
      have hread := mem_entryCaptures.mpr (mem_readings.mp hlisted).2
      rw [hnone] at hread
      cases hread
    · rw [List.forall₂_map_right_iff]
      refine hpairs.imp fun reading tensor ⟨hmem, hread⟩ => ?_
      exact instanceTensor_of_readBack hloaded (hroles tensor hmem) hmem
        (h.rowed tensor hmem) (h.divided tensor hmem) hread
    · intro hnil
      rw [List.map_eq_nil_iff] at hnil
      exact h.inhabited (List.nil_perm.mp (hnil ▸ hperm))
    · intro pair hpair
      obtain ⟨tensor, hmem, run, hrun, rfl⟩ := hloaded.mem.mp hpair
      rw [claimed, List.mem_flatMap]
      exact ⟨_, List.mem_map_of_mem (hperm.mem_iff.mpr hmem),
        List.mem_map_of_mem hrun⟩
    · rw [rearrangedNames, List.map_eq_nil_iff, List.filter_eq_nil_iff]
      intro derived hderived
      obtain ⟨tensor, -, rfl⟩ := List.mem_map.mp hderived
      simp [viewOf, Transform.isIdentity]
  · rw [List.forall₂_map_left_iff, List.forall₂_same]
    intro tensor hmem
    exact viewOf_spans (hroles tensor (hin tensor hmem)) (hin tensor hmem)
      (h.divided tensor (hin tensor hmem))

/-- The declaration derives the tensor as it is. -/
def Views (available : OrdMap Text SourceRun) (inventory : TensorInventory)
    (reading : TensorPattern × List Nat) (tensor : InventoryTensor) : Prop :=
  tensor ∈ inventory.tensors ∧ ∃ derived,
    instanceTensor available reading.1 reading.2 = .ok derived ∧
      derived.Spans tensor

theorem views_rightUnique
    (hnames : (inventory.tensors.map InventoryTensor.name).Nodup) :
    Relator.RightUnique (Views available inventory) := by
  intro reading tensor other hleft hright
  obtain ⟨hmem, derived, hderived, hspans⟩ := hleft
  obtain ⟨hmem', derived', hderived', hspans'⟩ := hright
  cases hderived.symm.trans hderived'
  exact name_injective hnames hmem hmem' (hspans.name.symm.trans hspans'.name)

/-- A restored file: what is derived, and what it is derived for. -/
structure Restored (contract : Contract) (inventory : TensorInventory)
    (available : OrdMap Text SourceRun) (adapter : Adapter)
    (tensors : List InventoryTensor) : Prop where
  whole : ∀ tensor ∈ inventory.tensors, (∃ declared, contract.runsOf
    (ε := AdapterError) tensor.name tensor.shape tensor.length =
      .ok declared) ∧
    ∀ run ∈ cutsOf contract tensor, WholeRows tensor run
  loaded : Loaded contract inventory available
  adapts : adaptTo available contract = .ok (.runPreserving adapter)
  perm : tensors.Perm inventory.tensors
  spans : List.Forall₂ DerivedTensor.Spans adapter.tensors tensors

namespace Restored

variable {adapter : Adapter} {tensors : List InventoryTensor}

theorem views (h : Restored contract inventory available adapter tensors) :
    List.Forall₂ (Views available inventory) (readings available contract)
      tensors := by
  have hin := (List.forall₂_and_left (p := (· ∈ inventory.tensors)) _ _).mpr
    ⟨fun _ hmem => h.perm.mem_iff.mp hmem, h.spans.flip⟩
  refine (forall₂_comp (adaptTo_eq_ok.mp h.adapts).2.1 hin.flip).imp ?_
  intro reading tensor hgiven
  obtain ⟨derived, hderived, hmem, hspans⟩ := hgiven
  exact ⟨hmem, derived, hderived, hspans⟩

/-- The reading that a tensor of the file is derived from is the only one. -/
theorem reading_unique
    (h : Restored contract inventory available adapter tensors)
    (hnames : (inventory.tensors.map InventoryTensor.name).Nodup)
    {reading other : TensorPattern × List Nat}
    (hreading : reading ∈ readings available contract)
    (hother : other ∈ readings available contract)
    (hviews : Views available inventory reading tensor)
    (hviews' : Views available inventory other tensor) : reading = other :=
  forall₂_injective h.views (h.perm.nodup_iff.mpr (.of_map _ hnames))
    (views_rightUnique hnames) hreading hother hviews hviews'

/-- Whoever derives a cut of a tensor derives the tensor. -/
theorem views_of_run
    (h : Restored contract inventory available adapter tensors)
    (hnames : (inventory.tensors.map InventoryTensor.name).Nodup)
    (hmem : tensor ∈ inventory.tensors) {run : SourceRun}
    (hrun : run ∈ cutsOf contract tensor)
    {reading : TensorPattern × List Nat}
    (hreading : reading ∈ readings available contract)
    {derived : DerivedTensor}
    (hderived : instanceTensor available reading.1 reading.2 = .ok derived)
    (hin : run ∈ derived.runs) : Views available inventory reading tensor := by
  obtain ⟨other, -, hother, found, hfound, hspans⟩ :=
    mem_of_forall₂ h.views.flip hreading
  cases hderived.symm.trans hfound
  have hname := (hspans.owner run hin).symm.trans (cutsOf_same hrun).1
  exact name_injective hnames hother hmem hname ▸
    ⟨hother, derived, hderived, hspans⟩

/-- A tensor's reading takes all of its cuts. -/
theorem taken (h : Restored contract inventory available adapter tensors)
    (hnames : (inventory.tensors.map InventoryTensor.name).Nodup)
    (hmem : tensor ∈ inventory.tensors)
    {reading : TensorPattern × List Nat}
    (hreading : reading ∈ readings available contract)
    {derived : DerivedTensor}
    (hderived : instanceTensor available reading.1 reading.2 = .ok derived)
    (hspans : derived.Spans tensor) :
    ∀ run ∈ cutsOf contract tensor, run ∈ derived.runs := by
  intro run hrun
  have hkeyed : ∀ pair ∈ available.entries, pair.2.role = pair.1 := by
    intro pair hpair
    obtain ⟨_, _, _, _, rfl⟩ := h.loaded.mem.mp hpair
    rfl
  obtain ⟨other, hother, hin⟩ :=
    (adaptTo_claims h.adapts rfl).mem_derived hkeyed
      (h.loaded.mem.mpr ⟨tensor, hmem, run, hrun, rfl⟩)
  obtain ⟨reading', hreading', hderived'⟩ :=
    mem_of_forall₂ (adaptTo_eq_ok.mp h.adapts).2.1 hother
  have hviews := h.views_of_run hnames hmem hrun hreading' hderived' hin
  have hsame := h.reading_unique hnames hreading hreading'
    ⟨hmem, derived, hderived, hspans⟩ hviews
  rw [hsame] at hderived
  cases hderived.symm.trans hderived'
  exact hin

/-- A tensor of a restored file is rows, is divided, and is read back. -/
theorem reads_back (h : Restored contract inventory available adapter tensors)
    (hnames : (inventory.tensors.map InventoryTensor.name).Nodup)
    (hmem : tensor ∈ inventory.tensors)
    (hrole : (contract.baseRole tensor.name).isSome) :
    Rowed tensor ∧ Divided contract tensor ∧
      ∃ entry values, ReadBack contract tensor entry values := by
  obtain ⟨hsettled, hwhole⟩ := h.whole tensor hmem
  obtain ⟨⟨entry, values⟩, hreading, hviews⟩ :=
    mem_of_forall₂ h.views (h.perm.mem_iff.mpr hmem)
  obtain ⟨-, derived, hderived, hspans⟩ := hviews
  have htaken := h.taken hnames hmem hreading hderived hspans
  obtain ⟨hbytes, hdivided, hruns⟩ := runs_of_spans h.loaded hnames hrole hmem
    hsettled hwhole hderived hspans htaken
  have hinside := inventory.inside tensor hmem
  obtain ⟨hrowed, hpermute⟩ := rowed_of_spans (by omega) hrole hdivided hbytes
    hwhole hderived hspans hruns
  refine ⟨hrowed, hdivided, entry, values, ?_⟩
  obtain ⟨hname, ⟨base, hbase, hgathered⟩, -⟩ :=
    instanceTensor_eq_ok.mp hderived
  obtain ⟨hentry, -, -, -, -, suffix, -, read, -, hcaptures⟩ :=
    h.loaded.reads.mp hreading
  have hsame := Pattern.instantiate_of_captures hcaptures
  cases hbase.symm.trans hsame
  refine ⟨hentry, hname.trans (congrArg some hspans.name), ⟨base, hcaptures,
    ?_⟩, hpermute, ?_⟩
  · rw [hruns] at hgathered
    have hroles : List.Forall₂ (fun suffix run => base ++ suffix = run.role)
        (entrySuffixes entry) (cutsOf contract tensor) :=
      hgathered.imp fun suffix run hget => by
        obtain ⟨_, _, _, hrole⟩ := h.loaded.get.mp hget
        exact hrole.symm
    rw [← List.forall₂_map_right_iff (f := SourceRun.role)
        (R := fun suffix role => base ++ suffix = role),
      ← List.forall₂_map_left_iff (f := (base ++ ·)) (R := (· = ·)),
      List.forall₂_eq_eq_eq] at hroles
    exact hroles
  · intro other hother found role hin hreads
    obtain ⟨run, hrun, rfl⟩ := List.mem_map.mp hin
    have hlisted : (other, found) ∈ readings available contract :=
      h.loaded.reads.mpr ⟨hother, tensor, hmem, run.role, hin, hreads⟩
    obtain ⟨suffix, hsuffix, base', hrole', hcaptures'⟩ := hreads
    obtain ⟨_, -, hviews'⟩ := mem_of_forall₂ h.views.flip hlisted
    obtain ⟨-, derived', hderived', -⟩ := hviews'
    obtain ⟨-, ⟨base'', hbase', hgathered'⟩, -⟩ :=
      instanceTensor_eq_ok.mp hderived'
    cases hbase'.symm.trans (Pattern.instantiate_of_captures hcaptures')
    obtain ⟨run', hrun', hget'⟩ := mem_of_forall₂ hgathered'.flip hsuffix
    have hget : available.get? run.role = some run :=
      h.loaded.get.mpr ⟨tensor, hmem, hrun, rfl⟩
    have hget'' : available.get? (base' ++ suffix) = some run' := hget'
    rw [← hrole', hget, Option.some.injEq] at hget''
    subst hget''
    have hviews := h.views_of_run hnames hmem hrun hlisted hderived' hrun'
    have heq := h.reading_unique hnames hlisted hreading hviews
      ⟨hmem, derived, hderived, hspans⟩
    exact ⟨(Prod.mk.inj heq).1, (Prod.mk.inj heq).2⟩

end Restored

theorem selfViewable_of_restores
    (hnames : (inventory.tensors.map InventoryTensor.name).Nodup)
    (hroles : ∀ tensor ∈ inventory.tensors,
      (contract.baseRole tensor.name).isSome)
    {adapter : Adapter}
    (hdecide : Adapter.decide contract inventory contract =
      .ok (.runPreserving adapter))
    (hrestores : adapter.Restores inventory) :
    SelfViewable contract inventory := by
  obtain ⟨available, hruns, hadapts⟩ := decide_runPreserving_iff.mp hdecide
  obtain ⟨hwhole, hloaded⟩ := (roleRuns_eq_ok hroles).mp hruns
  obtain ⟨tensors, hperm, hspans⟩ := hrestores
  have h : Restored contract inventory available adapter tensors :=
    ⟨hwhole, hloaded, hadapts, hperm, hspans⟩
  obtain ⟨hpresent, -, hne, -⟩ := adaptTo_eq_ok.mp hadapts
  have htensor := fun tensor hmem =>
    h.reads_back hnames hmem (hroles tensor hmem)
  refine ⟨fun hnil => hne ?_, fun tensor hmem => (htensor tensor hmem).1,
    fun tensor hmem => (htensor tensor hmem).2.1,
    map_role_cuts ▸ hloaded.fits.apart,
    fun tensor hmem => (htensor tensor hmem).2.2,
    fun entry hentry hrequired => ?_⟩
  · rw [hnil] at hperm
    rw [hperm.eq_nil, List.forall₂_nil_right_iff] at hspans
    exact hspans
  · have hread : entryCaptures available entry ≠ [] :=
      fun hnone => hpresent entry hentry ⟨hnone, hrequired⟩
    obtain ⟨values, hvalues⟩ := List.exists_mem_of_ne_nil _ hread
    obtain ⟨-, tensor, hmem, role, hrole, hreads⟩ := hloaded.reads.mp
      (mem_readings.mpr ⟨hentry, mem_entryCaptures.mp hvalues⟩)
    exact ⟨tensor, hmem, role, hrole, values, hreads⟩

theorem baseRole_of_describes
    (hholes : ∀ entry ∈ contract.tensors,
      entry.role.holes = entry.pattern.holes)
    (h : contract.Describes inventory) :
    ∀ tensor ∈ inventory.tensors,
      (contract.baseRole tensor.name).isSome := by
  intro tensor hmem
  obtain ⟨entry, hentry, hmatch, -⟩ := h.matched tensor hmem
  exact Contract.baseRole_isSome hholes
    (List.find?_isSome.mpr ⟨entry, hentry, hmatch⟩)

/-- A file that its contract describes is viewed as itself exactly when its
tensors are rows of whole bytes, its parts go under different roles, and each
tensor is read back by one declaration. -/
theorem decide_self_iff {P : Platform} {source : ByteSource}
    {contract : Contract} {found : TensorInventory}
    (hcontract : ∃ fromStr document,
      Contract.parse fromStr document = .ok contract)
    (hfound : TensorFS.inventory P source = .ok (some found))
    (hdescribes : contract.Describes found) :
    (∃ adapter, Adapter.decide contract found contract =
        .ok (.runPreserving adapter) ∧ adapter.Restores found) ↔
      SelfViewable contract found := by
  obtain ⟨fromStr, document, hcontract⟩ := hcontract
  obtain ⟨hdistinct, hholes⟩ := Contract.tensors_of_parse hcontract
  have hnames := inventory_names hfound
  have hroles := baseRole_of_describes hholes hdescribes
  constructor
  · intro h
    obtain ⟨adapter, hdecide, hrestores⟩ := h
    exact selfViewable_of_restores hnames hroles hdecide hrestores
  · exact restores_of_selfViewable hdistinct hnames hroles

/-! A GGUF with one tensor. -/

namespace SingleTensor

def platform : Platform := ⟨asciiUnicode, sha256, fun _ => none⟩

def directory (dimensions : List Nat) : Bytes :=
  leBytes 8 1 ++ [0x77] ++ leBytes 4 dimensions.length ++
    dimensions.flatMap (leBytes 8) ++ leBytes 4 0 ++ leBytes 8 0

def bytes (dimensions : List Nat) : Bytes :=
  Gguf.magic ++ leBytes 4 3 ++ leBytes 8 1 ++ leBytes 8 0 ++
    directory dimensions ++
    List.replicate (40 - (directory dimensions).length) 0 ++
    List.replicate 32 0

def scalar : Slice := ⟨bytes [], by decide +kernel⟩

def line : Slice := ⟨bytes [2], by decide +kernel⟩

def document : Text :=
  "\x7b\"format\":\"tensorfs-contract-v1\",".toList ++
    "\"tensors\":[\x7b\"role\":\"w\",\"pattern\":\"w\"\x7d]\x7d".toList

def rawContract : RawContract where
  format := contractFormat
  name := none
  version := none
  description := []
  dtype := none
  tensors := [{
    role := "w".toList
    pattern := "w".toList
    dtypes := []
    rank := none
    required := true
    fusion := none
    permute := none }]
  sets := .empty

def readDocument (text : Text) : Except Text RawContract :=
  if text = document then .ok rawContract else .error []

theorem accepted : ∃ fromStr document,
    Contract.parse fromStr document = .ok bareContract := by
  refine ⟨readDocument, document, ?_⟩
  rw [Contract.parse, readDocument, if_pos rfl]
  rfl

def stored (shape : List UInt64) (length : Nat) : InventoryTensor :=
  ⟨"w".toList, "F32".toList, shape, 64, length⟩

theorem inventory_of_tensors {source : ByteSource}
    {tensors : List InventoryTensor}
    (h : (TensorFS.inventory platform source).map
      (Option.map TensorInventory.tensors) = .ok (some tensors)) :
    ∃ found, TensorFS.inventory platform source = .ok (some found) ∧
      found.tensors = tensors := by
  cases hread : TensorFS.inventory platform source with
  | error refusal =>
      rw [hread] at h
      cases h
  | ok found =>
      rw [hread] at h
      cases found with
      | none => cases h
      | some found =>
          simp only [Except.map, Option.map_some, Except.ok.injEq,
            Option.some.injEq] at h
          exact ⟨found, rfl, h⟩

theorem describes {found : TensorInventory} {shape : List UInt64}
    {length : Nat} (h : found.tensors = [stored shape length]) :
    bareContract.Describes found := by
  constructor
  · rw [h]
    intro tensor hmem
    cases List.mem_singleton.mp hmem
    exact ⟨bareEntry "w".toList, List.mem_cons_self, rfl, rfl⟩
  · rw [h]
    intro entry hmem _
    cases List.mem_singleton.mp hmem
    exact ⟨_, List.mem_cons_self, rfl⟩

def view : Adapter where
  tensors := [{
    name := "w".toList
    dtype := "F32".toList
    shape := [2]
    runs := [⟨"w".toList, "w".toList, "F32".toList, none, 64, 8, 2, []⟩]
    transform := .identity }]

end SingleTensor

open SingleTensor

/-- A scalar comes back as a list of one. -/
theorem decide_scalar :
    (∃ fromStr document,
      Contract.parse fromStr document = .ok bareContract) ∧
    ∃ found, TensorFS.inventory platform scalar.source = .ok (some found) ∧
      found.tensors = [stored [] 4] ∧ bareContract.Describes found ∧
      ¬ ∃ adapter, Adapter.decide bareContract found bareContract =
        .ok (.runPreserving adapter) ∧ adapter.Restores found := by
  refine ⟨accepted, ?_⟩
  have hread : (TensorFS.inventory platform scalar.source).map
      (Option.map TensorInventory.tensors) = .ok (some [stored [] 4]) := by
    decide +kernel
  obtain ⟨found, hfound, htensors⟩ := inventory_of_tensors hread
  have hdescribes := describes htensors
  refine ⟨found, hfound, htensors, hdescribes, ?_⟩
  intro h
  obtain ⟨adapter, hdecide, hrestores⟩ := h
  obtain ⟨fromStr, document, haccepted⟩ := accepted
  have hroles := baseRole_of_describes
    (Contract.tensors_of_parse haccepted).2 hdescribes
  have h := selfViewable_of_restores (inventory_names hfound) hroles hdecide
    hrestores
  obtain ⟨rows, hhead, -⟩ := (h.rowed (stored [] 4)
    (htensors ▸ List.mem_cons_self)).rows
  cases hhead

theorem decide_self_iff_line :
    ∃ found, TensorFS.inventory platform line.source = .ok (some found) ∧
      found.tensors = [stored [2] 8] ∧ bareContract.Describes found ∧
      SelfViewable bareContract found := by
  have hread : (TensorFS.inventory platform line.source).map
      (Option.map TensorInventory.tensors) = .ok (some [stored [2] 8]) := by
    decide +kernel
  obtain ⟨found, hfound, htensors⟩ := inventory_of_tensors hread
  have hdescribes := describes htensors
  refine ⟨found, hfound, htensors, hdescribes,
    (decide_self_iff accepted hfound hdescribes).mp ⟨view, ?_, ?_⟩⟩
  · simp only [Adapter.decide, roleRuns, htensors]
    decide
  · refine ⟨_, .refl _, ?_⟩
    rw [htensors]
    refine .cons ⟨rfl, rfl, rfl, rfl, fun run hrun => ?_, rfl, rfl⟩ .nil
    cases List.mem_singleton.mp hrun
    rfl

end Adapter

end TensorFS
