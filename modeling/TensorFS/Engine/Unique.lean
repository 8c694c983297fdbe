import TensorFS.Engine.Pairing
import TensorFS.Engine.Stamp

namespace TensorFS.Go

open Data

/-! One checkpoint, one stamp. -/

namespace Catalog

variable {catalog : Catalog}

/-- The pair is catalogued, and its rule is plain or acted on some tensor of
its layout. -/
structure Computes (catalog : Catalog) (id : LayoutID) (layout : Layout) :
    Prop where
  listed : id ∈ catalog.order
  computed : catalog.layout id = .ok layout
  acted : ¬ ((catalog.rules.get? id.quant).any QuantRule.transforms = true ∧
    layout.transformed = 0)

/-- The entries of no two pairs' layouts can be put side by side. -/
def Apart (catalog : Catalog) : Prop :=
  ∀ left right first second, catalog.Computes left first →
    catalog.Computes right second → left ≠ right →
      ∀ rows, ¬ Pairing first second rows

theorem mem_stampAll {files : List ArtifactFile} {id : LayoutID} :
    id ∈ catalog.stampAll files ↔ ∃ layout, catalog.Computes id layout ∧
      ∃ found, matchLayout files layout = .ok found := by
  rw [stampAll_eq, List.mem_filter, identifies]
  cases hlayout : catalog.layout id with
  | error fault =>
      constructor
      · rintro ⟨_, hfalse⟩
        cases hfalse
      · rintro ⟨layout, hcomputes, _⟩
        rw [hcomputes.computed] at hlayout
        cases hlayout
  | ok layout =>
      have hmatch : (matchLayout files layout).toOption.isSome = true ↔
          ∃ found, matchLayout files layout = .ok found := by
        simp only [Option.isSome_iff_exists, toOption_eq_some]
      simp only [Bool.and_eq_true, hmatch, Bool.not_eq_true']
      constructor
      · rintro ⟨hlisted, hacted, hfound⟩
        refine ⟨layout, ⟨hlisted, hlayout, ?_⟩, hfound⟩
        rintro ⟨htransforms, hzero⟩
        rw [htransforms, Bool.true_and, decide_eq_false_iff_not] at hacted
        exact hacted hzero
      · rintro ⟨other, hcomputes, hfound⟩
        have hsame := hcomputes.computed
        rw [hlayout, Except.ok.injEq] at hsame
        subst hsame
        refine ⟨hcomputes.listed, ?_, hfound⟩
        rw [Bool.and_eq_false_iff, decide_eq_false_iff_not]
        by_cases htransforms : (catalog.rules.get? id.quant).any
            QuantRule.transforms = true
        · exact .inr fun hzero => hcomputes.acted ⟨htransforms, hzero⟩
        · exact .inl (by simpa using htransforms)

/-- Apart layouts have no checkpoint in common. -/
theorem Apart.eq_of_mem (h : catalog.Apart) {files : List ArtifactFile}
    {left right : LayoutID} (hleft : left ∈ catalog.stampAll files)
    (hright : right ∈ catalog.stampAll files) : left = right := by
  obtain ⟨first, hfirst, found, hfound⟩ := mem_stampAll.mp hleft
  obtain ⟨second, hsecond, other, hother⟩ := mem_stampAll.mp hright
  by_contra hne
  obtain ⟨rows, hrows⟩ := pairing_of_assignments
    (hasAssignment_of_match hfound) (hasAssignment_of_match hother)
  exact h left right first second hfirst hsecond hne rows hrows

theorem index_nodup (catalog : Catalog) : catalog.index.Nodup := by
  rw [index, List.nodup_flatMap]
  constructor
  · intro topology _
    exact (List.Nodup.of_map Prod.fst catalog.rules.keys_nodup).map_on
      fun left hleft right hright heq => List.inj_on_of_nodup_map
        catalog.rules.keys_nodup hleft hright (LayoutID.mk.inj heq).2.1
  · refine (List.pairwise_map.mp catalog.topologies.keys_nodup).imp
      fun hne id hleft hright => ?_
    obtain ⟨_, _, rfl⟩ := List.mem_map.mp hleft
    obtain ⟨_, _, heq⟩ := List.mem_map.mp hright
    exact hne (LayoutID.mk.inj heq).1.symm

end Catalog

theorem loadCatalog_order {corpus : Corpus} {catalog : Catalog}
    (h : loadCatalog corpus = .ok catalog) : catalog.order.Nodup := by
  simp only [loadCatalog, except_bind_eq_ok] at h
  obtain ⟨topologies, _, rules, _, morphisms, _, arrangements, _, _, _, _, _,
    _, _, outgoing, _, h⟩ := h
  cases h
  exact Catalog.index_nodup _

theorem length_le_one {α : Type} {xs : List α} (hnodup : xs.Nodup)
    (h : ∀ x ∈ xs, ∀ y ∈ xs, x = y) : xs.length ≤ 1 := by
  match xs with
  | [] => exact Nat.zero_le 1
  | [_] => exact le_refl 1
  | x :: y :: rest =>
      have hmem : y ∈ y :: rest := List.mem_cons_self
      have hsame := h x List.mem_cons_self y (List.mem_cons_of_mem x hmem)
      exact absurd (hsame ▸ hmem) (List.nodup_cons.mp hnodup).1

/-- A search with at most one hit finds it in any order. -/
theorem find?_eq_of_perm {α : Type} {p : α → Bool} {left right : List α}
    (hperm : left.Perm right) (h : (right.filter p).length ≤ 1) :
    left.find? p = right.find? p := by
  have hfilter := hperm.filter p
  rw [← List.head?_filter, ← List.head?_filter]
  cases hright : right.filter p with
  | nil =>
      rw [hright] at hfilter
      rw [hfilter.eq_nil]
  | cons found rest =>
      rw [hright, List.length_cons] at h
      have hrest : rest = [] := List.eq_nil_of_length_eq_zero (by omega)
      rw [hright, hrest] at hfilter
      rw [List.perm_singleton.mp hfilter, hrest]

/-- Where no two layouts of a loaded catalog can be put side by side, headers
have one stamp whatever the order; and where they can be, in layouts that need
what two of their components take, some headers have two. -/
theorem one_stamp (corpus : Corpus) (catalog : Catalog)
    (hload : loadCatalog corpus = .ok catalog) :
    (catalog.Apart →
      (∀ files, (catalog.stampAll files).length ≤ 1) ∧
      ∀ files order id, order.Perm catalog.order →
        (({ catalog with order := order } : Catalog).stamp files = .ok id ↔
          catalog.stamp files = .ok id)) ∧
    ((∀ id layout, catalog.Computes id layout → Regular layout) →
      (∀ files : List ArtifactFile, (files.map ArtifactFile.path).Nodup →
        (catalog.stampAll files).length ≤ 1) → catalog.Apart) := by
  have horder := loadCatalog_order hload
  have hnodup : ∀ files, (catalog.stampAll files).Nodup :=
    fun files => horder.filter _
  refine ⟨fun hapart => ?_, ?_⟩
  · have hone : ∀ files, (catalog.stampAll files).length ≤ 1 := fun files =>
      length_le_one (hnodup files) fun _ hleft _ hright =>
        hapart.eq_of_mem hleft hright
    refine ⟨hone, fun files order id hperm => ?_⟩
    rw [Catalog.stamp_ok_iff, Catalog.stamp_ok_iff]
    have hfind := find?_eq_of_perm hperm
      (p := catalog.identifies files) (by
        rw [← Catalog.stampAll_eq]
        exact hone files)
    rw [← hfind]
    rfl
  · intro hregular hone left right first second hfirst hsecond hne rows hrows
    obtain ⟨files, hpaths, hfound, hfound'⟩ := hrows.common
      (hregular left first hfirst) (hregular right second hsecond)
    have hleft := Catalog.mem_stampAll.mpr ⟨first, hfirst, hfound⟩
    have hright := Catalog.mem_stampAll.mpr ⟨second, hsecond, hfound'⟩
    refine hne ?_
    have hlength := hone files hpaths
    cases hstamps : catalog.stampAll files with
    | nil =>
        rw [hstamps] at hleft
        cases hleft
    | cons found rest =>
        rw [hstamps, List.length_cons] at hlength
        have hrest : rest = [] := List.eq_nil_of_length_eq_zero (by omega)
        rw [hstamps, hrest, List.mem_singleton] at hleft hright
        exact hleft.trans hright.symm

/-! Two rules that compute one layout. -/

namespace OneLayoutTwice

def net : Topology where
  handle := ⟨"cozy.net".toList, 1⟩
  dtype := "F16".toList
  components := [⟨[], roleBackbone, .empty, OrdMap.empty.insert ['w'] [4]⟩]

def rawNet : RawTopology where
  format := some topologyFormat
  name := some "cozy.net".toList
  version := some 1
  dtype := "F16".toList
  components := [⟨[], roleBackbone, .empty, OrdMap.empty.insert ['w'] [4]⟩]
  digest := []

def rule (name base : String) : QuantRule where
  handle := ⟨name.toList, 1⟩
  declaredDtype := "float16".toList
  capabilityFloorSM := 0
  baseDtype := base.toList
  referenceTolerant := false
  conventions := .empty
  scopeRoles := []
  lossy := false
  inverse := []
  eligible := none
  emissions := []

def rawRule (name base : String) : RawQuantRule where
  format := some quantRuleFormat
  name := some name.toList
  version := some 1
  declaredDtype := "float16".toList
  capabilityFloorSM := 0
  baseDtype := base.toList
  referenceTolerant := false
  conventions := .empty
  scopeRoles := []
  lossy := false
  inverse := []
  eligible := none
  emissions := []
  digest := []

def contiguous : LayoutMorphism where
  handle := defaultLayout
  layoutClass := "inductor".toList
  rank := 0
  subAxes := []
  extents := []
  perm := []
  candidate := false

def rawContiguous : RawLayoutMorphism where
  format := some layoutMorphismFormat
  name := some "torch.contiguous".toList
  version := some 1
  layoutClass := "inductor".toList
  rank := 0
  subAxes := []
  permutation := []
  candidate := false
  provenance := ["default".toList]
  digest := []

def corpus (rules : List (Text × Option RawQuantRule))
    (h : rules.Pairwise fun left right => left.1 < right.1) : Corpus where
  topologies := OrdMap.empty.insert "net.json".toList (some rawNet)
  rules := ⟨rules, h⟩
  morphisms := .empty
  layouts := OrdMap.empty.insert "contiguous.json".toList (some rawContiguous)
  displayNames := []

theorem parsed_net : parseTopology rawNet = .ok net := by
  have hhandle : namedHandle "cozy.net".toList 1 = .ok net.handle := by
    decide +kernel
  rw [parseTopology_of rfl rfl rfl hhandle (by decide) (by decide) rfl rfl,
    byName]
  exact congrArg (fun components => Except.ok (Topology.mk net.handle
    net.dtype components)) (List.mergeSort_singleton _)

theorem parsed_rule {name base : String}
    (hhandle : namedHandle name.toList 1 = .ok ⟨name.toList, 1⟩)
    (hbase : base.toList ≠ []) :
    parseQuantRule (rawRule name base) = .ok (rule name base) :=
  parseQuantRule_of rfl rfl rfl hhandle (List.cons_ne_nil _ _) hbase
    (iff_of_true rfl rfl) (fun h => h.1 rfl) rfl rfl

theorem parsed_contiguous :
    parseLayoutMorphism rawContiguous = .ok contiguous := by
  have hhandle : namedHandle "torch.contiguous".toList 1 =
      .ok defaultLayout := by
    decide +kernel
  simp only [parseLayoutMorphism, rawContiguous, hhandle]
  rfl

/-- The catalog of the one topology and some rules. -/
def catalog (rules : OrdMap Handle QuantRule) : Catalog where
  topologies := OrdMap.empty.insert net.handle net
  rules := rules
  morphisms := .empty
  arrangements := OrdMap.empty.insert defaultLayout contiguous
  outgoing := .empty
  order := rules.entries.map fun rule => ⟨net.handle, rule.1, defaultLayout⟩

theorem loads {files : List (Text × Option RawQuantRule)}
    {hfiles : files.Pairwise fun left right => left.1 < right.1}
    {rules : OrdMap Handle QuantRule}
    (hrules : readDirectory parseQuantRule QuantRule.handle .rule .empty files =
      .ok rules) (hsome : rules.entries.length ≠ 0) :
    loadCatalog (corpus files hfiles) = .ok (catalog rules) := by
  have htopologies : readDirectory parseTopology Topology.handle .topology
      .empty (corpus files hfiles).topologies.entries =
      .ok (OrdMap.empty.insert net.handle net) := by
    change readDirectory _ _ _ _ [("net.json".toList, some rawNet)] = _
    rw [readDirectory, parsed_net]
    rfl
  have harrangements : readDirectory parseLayoutMorphism LayoutMorphism.handle
      .arrangement .empty (corpus files hfiles).layouts.entries =
      .ok (OrdMap.empty.insert defaultLayout contiguous) := by
    change readDirectory _ _ _ _
      [("contiguous.json".toList, some rawContiguous)] = _
    rw [readDirectory, parsed_contiguous]
    rfl
  unfold loadCatalog
  refine except_bind_eq_ok.mpr ⟨_, htopologies, ?_⟩
  refine except_bind_eq_ok.mpr ⟨_, hrules, ?_⟩
  refine except_bind_eq_ok.mpr ⟨.empty, rfl, ?_⟩
  refine except_bind_eq_ok.mpr ⟨_, harrangements, ?_⟩
  refine except_bind_eq_ok.mpr ⟨(), rfl, ?_⟩
  refine except_bind_eq_ok.mpr
    ⟨(), ensure_of ⟨by decide, hsome⟩, ?_⟩
  refine except_bind_eq_ok.mpr ⟨(), rfl, ?_⟩
  refine except_bind_eq_ok.mpr ⟨.empty, rfl, ?_⟩
  refine congrArg (fun order => Except.ok { catalog rules with order := order })
    ?_
  exact List.flatMap_singleton _ _

def rules : OrdMap Handle QuantRule :=
  (OrdMap.empty.insert ⟨"cozy.copy".toList, 1⟩
    (rule "cozy.copy" "@reference")).insert ⟨"cozy.plain".toList, 1⟩
    (rule "cozy.plain" "F16")

def header : ArtifactFile :=
  ⟨"net.safetensors".toList, [⟨['w'], "F16".toList, [4], 8⟩],
    List.nodup_singleton _⟩

theorem read_rules : readDirectory parseQuantRule QuantRule.handle .rule .empty
    [("copy.json".toList, some (rawRule "cozy.copy" "@reference")),
      ("plain.json".toList, some (rawRule "cozy.plain" "F16"))] =
    .ok rules := by
  have hcopy : namedHandle "cozy.copy".toList 1 =
      .ok ⟨"cozy.copy".toList, 1⟩ := by
    decide +kernel
  have hplain : namedHandle "cozy.plain".toList 1 =
      .ok ⟨"cozy.plain".toList, 1⟩ := by
    decide +kernel
  rw [readDirectory, @parsed_rule "cozy.copy" "@reference" hcopy (by decide)]
  refine except_bind_eq_ok.mpr ⟨(), rfl, ?_⟩
  rw [readDirectory, @parsed_rule "cozy.plain" "F16" hplain (by decide)]
  exact except_bind_eq_ok.mpr ⟨(), ensure_of (by decide), rfl⟩

def layout (quant : Handle) : Layout where
  id := ⟨net.handle, quant, defaultLayout⟩
  components := [⟨[], OrdMap.empty.insert ['w'] ⟨["F16".toList], [4], false⟩⟩]
  transformed := 0

theorem matches_header (quant : Handle) :
    ∃ found, matchLayout [header] (layout quant) = .ok found := by
  have hsorted : byPath [header] = [header] := List.mergeSort_singleton _
  unfold matchLayout
  rw [hsorted]
  exact ⟨_, rfl⟩

theorem identifies_header :
    ∀ id ∈ (catalog rules).order,
      (catalog rules).identifies [header] id = true := by
  have hidentifies : ∀ quant,
      (catalog rules).layout ⟨net.handle, quant, defaultLayout⟩ =
        .ok (layout quant) →
      (rules.get? quant).any QuantRule.transforms = false →
      (catalog rules).identifies [header]
        ⟨net.handle, quant, defaultLayout⟩ = true := by
    intro quant hlayout hplain
    obtain ⟨found, hfound⟩ := matches_header quant
    rw [Catalog.identifies, hlayout]
    change (!((rules.get? quant).any QuantRule.transforms && _) &&
      (matchLayout [header] (layout quant)).toOption.isSome) = true
    rw [hplain, hfound]
    rfl
  intro id hid
  rcases List.mem_pair.mp hid with rfl | rfl
  · exact hidentifies _ rfl rfl
  · exact hidentifies _ rfl rfl

end OneLayoutTwice

/-- The loader takes both rules, and one header has both stamps; which of them
is the answer depends on the order. -/
theorem two_stamps :
    loadCatalog (OneLayoutTwice.corpus
      [("copy.json".toList, some (OneLayoutTwice.rawRule "cozy.copy"
        "@reference")), ("plain.json".toList,
          some (OneLayoutTwice.rawRule "cozy.plain" "F16"))] (by decide)) =
        .ok (OneLayoutTwice.catalog OneLayoutTwice.rules) ∧
    (OneLayoutTwice.catalog OneLayoutTwice.rules).stampAll
        [OneLayoutTwice.header] =
      [⟨OneLayoutTwice.net.handle, ⟨"cozy.copy".toList, 1⟩, defaultLayout⟩,
        ⟨OneLayoutTwice.net.handle, ⟨"cozy.plain".toList, 1⟩,
          defaultLayout⟩] ∧
    (OneLayoutTwice.catalog OneLayoutTwice.rules).stamp
        [OneLayoutTwice.header] =
      .ok ⟨OneLayoutTwice.net.handle, ⟨"cozy.copy".toList, 1⟩,
        defaultLayout⟩ ∧
    ({ OneLayoutTwice.catalog OneLayoutTwice.rules with
        order := (OneLayoutTwice.catalog OneLayoutTwice.rules).order.reverse } :
      Catalog).stamp [OneLayoutTwice.header] =
      .ok ⟨OneLayoutTwice.net.handle, ⟨"cozy.plain".toList, 1⟩,
        defaultLayout⟩ := by
  have hall := OneLayoutTwice.identifies_header
  refine ⟨OneLayoutTwice.loads OneLayoutTwice.read_rules (by decide), ?_, ?_,
    ?_⟩
  · rw [Catalog.stampAll_eq, List.filter_eq_self.mpr hall]
    rfl
  · rw [Catalog.stamp_ok_iff]
    exact List.find?_cons_of_pos (hall _ List.mem_cons_self)
  · rw [Catalog.stamp_ok_iff]
    exact List.find?_cons_of_pos
      (hall _ (List.mem_cons_of_mem _ List.mem_cons_self))

/-! Two rules that compute the same tensor in two dtypes. -/

namespace TwoDtypes

open OneLayoutTwice

def rules : OrdMap Handle QuantRule :=
  (OrdMap.empty.insert ⟨"cozy.copy".toList, 1⟩
    (rule "cozy.copy" "@reference")).insert ⟨"cozy.half".toList, 1⟩
    (rule "cozy.half" "BF16")

theorem read_rules : readDirectory parseQuantRule QuantRule.handle .rule .empty
    [("copy.json".toList, some (rawRule "cozy.copy" "@reference")),
      ("half.json".toList, some (rawRule "cozy.half" "BF16"))] =
    .ok rules := by
  have hcopy : namedHandle "cozy.copy".toList 1 =
      .ok ⟨"cozy.copy".toList, 1⟩ := by
    decide +kernel
  have hhalf : namedHandle "cozy.half".toList 1 =
      .ok ⟨"cozy.half".toList, 1⟩ := by
    decide +kernel
  rw [readDirectory, @parsed_rule "cozy.copy" "@reference" hcopy (by decide)]
  refine except_bind_eq_ok.mpr ⟨(), rfl, ?_⟩
  rw [readDirectory, @parsed_rule "cozy.half" "BF16" hhalf (by decide)]
  exact except_bind_eq_ok.mpr ⟨(), ensure_of (by decide), rfl⟩

def layout (quant : Handle) (dtype : String) : Layout where
  id := ⟨net.handle, quant, defaultLayout⟩
  components :=
    [⟨[], OrdMap.empty.insert ['w'] ⟨[dtype.toList], [4], false⟩⟩]
  transformed := 0

theorem entry_dtypes {quant : Handle} {dtype : String} {slot : Nat × Text}
    {entry : LayoutTensor}
    (h : (layout quant dtype).entryAt slot = some entry) :
    entry.dtypes = [dtype.toList] := by
  obtain ⟨component, hcomponent, hget⟩ := Option.bind_eq_some_iff.mp h
  have hcomponent := List.mem_singleton.mp (List.mem_of_getElem? hcomponent)
  rw [hcomponent] at hget
  have hmem := OrdMap.get?_eq_some.mp hget
  rw [OrdMap.mem_insert] at hmem
  rcases hmem with heq | hold
  · exact congrArg LayoutTensor.dtypes (Prod.mk.inj heq).2
  · simp at hold

/-- Layouts of two dtypes have no tensor in common. -/
theorem not_pairing {left right : Handle} {first second : String}
    (hne : first.toList ≠ second.toList) (rows : List Row) :
    ¬ Pairing (layout left first) (layout right second) rows := by
  intro h
  have hrow : (0, ['w']) ∈ rows.map fun row => (row.left, row.key) :=
    h.left.required (0, ['w']) ⟨[first.toList], [4], false⟩ rfl rfl
  obtain ⟨row, hrow, _⟩ := List.mem_map.mp hrow
  obtain ⟨entry, other, hentry, hother, _, dtype, hleft, hright⟩ :=
    h.meets row hrow
  rw [entry_dtypes hentry, List.mem_singleton] at hleft
  rw [entry_dtypes hother, List.mem_singleton] at hright
  exact hne (hleft.symm.trans hright)

theorem apart : (catalog rules).Apart := by
  intro left right first second hfirst hsecond hne rows
  have hcomputed : ∀ id computed, (catalog rules).Computes id computed →
      (id = ⟨net.handle, ⟨"cozy.copy".toList, 1⟩, defaultLayout⟩ ∧
        computed = layout ⟨"cozy.copy".toList, 1⟩ "F16") ∨
      (id = ⟨net.handle, ⟨"cozy.half".toList, 1⟩, defaultLayout⟩ ∧
        computed = layout ⟨"cozy.half".toList, 1⟩ "BF16") := by
    intro id computed h
    have hlayout := h.computed
    rcases List.mem_pair.mp h.listed with rfl | rfl
    · exact .inl ⟨rfl, (Except.ok.inj hlayout).symm⟩
    · exact .inr ⟨rfl, (Except.ok.inj hlayout).symm⟩
  rcases hcomputed left first hfirst with ⟨rfl, rfl⟩ | ⟨rfl, rfl⟩ <;>
    rcases hcomputed right second hsecond with ⟨rfl, rfl⟩ | ⟨rfl, rfl⟩
  · exact absurd rfl hne
  · exact not_pairing (by decide) rows
  · exact not_pairing (by decide) rows
  · exact absurd rfl hne

end TwoDtypes

/-- Headers have at most one of the two stamps, and one has the first. -/
theorem one_stamp_of_two :
    loadCatalog (OneLayoutTwice.corpus
      [("copy.json".toList, some (OneLayoutTwice.rawRule "cozy.copy"
        "@reference")), ("half.json".toList,
          some (OneLayoutTwice.rawRule "cozy.half" "BF16"))] (by decide)) =
        .ok (OneLayoutTwice.catalog TwoDtypes.rules) ∧
      (∀ files, ((OneLayoutTwice.catalog TwoDtypes.rules).stampAll
        files).length ≤ 1) ∧
      ⟨OneLayoutTwice.net.handle, ⟨"cozy.copy".toList, 1⟩, defaultLayout⟩ ∈
        (OneLayoutTwice.catalog TwoDtypes.rules).stampAll
          [OneLayoutTwice.header] := by
  have hloads := @OneLayoutTwice.loads _ (by decide) _ TwoDtypes.read_rules
    (by decide)
  refine ⟨hloads, ((one_stamp _ _ hloads).1 TwoDtypes.apart).1, ?_⟩
  refine Catalog.mem_stampAll.mpr ⟨OneLayoutTwice.layout _,
    ⟨List.mem_cons_self, rfl, ?_⟩, OneLayoutTwice.matches_header _⟩
  exact fun hacted => absurd hacted.1 (by decide)

end TensorFS.Go
