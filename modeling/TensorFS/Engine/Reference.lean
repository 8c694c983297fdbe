import TensorFS.Engine.Entries
import TensorFS.Engine.Rivals

namespace TensorFS.Go

open Data

/-! The layout of an extracted topology. -/

namespace QuantRule

variable {rule : QuantRule} {topology : Topology}

/-- Every key passes through with the element type the reference has. -/
def Keeps (rule : QuantRule) (topology : Topology) : Prop :=
  ∀ component ∈ topology.components, ∀ entry ∈ component.tensors.entries,
    referenceDtype topology component entry.1 ∈
      rule.passthroughDtypes topology component entry.1

theorem isEligible_plain (hplain : rule.eligible = none)
    (component : TopologyComponent) (key : Text) (shape : List UInt64) :
    rule.isEligible topology component key shape = false := by
  rw [isEligible, hplain]

theorem applyKeys_plain (hplain : rule.eligible = none)
    (component : TopologyComponent) (tensors : OrdMap Text LayoutTensor)
    (count : Nat) (entries : List (Text × List UInt64)) :
    ∃ out, rule.applyKeys topology component tensors count entries =
      .ok (out, count) := by
  induction entries generalizing tensors with
  | nil => exact ⟨tensors, rfl⟩
  | cons entry entries ih =>
      obtain ⟨key, shape⟩ := entry
      rw [applyKeys, isEligible_plain hplain, if_neg Bool.false_ne_true]
      exact ih _

theorem applyComponents_plain (hplain : rule.eligible = none)
    (components : List TopologyComponent) :
    ∃ computed, rule.applyComponents topology components =
      .ok (computed, 0) := by
  induction components with
  | nil => exact ⟨[], rfl⟩
  | cons component components ih =>
      obtain ⟨tensors, htensors⟩ := @applyKeys_plain rule topology hplain
        component .empty 0 component.tensors.entries
      obtain ⟨computed, hcomputed⟩ := ih
      refine ⟨⟨component.name, tensors⟩ :: computed, ?_⟩
      rw [applyComponents, htensors, except_ok_bind, hcomputed]
      rfl

/-- A plain rule passes every key through. -/
theorem apply_plain (hplain : rule.eligible = none) (topology : Topology) :
    ∃ layout, rule.apply topology = .ok layout ∧
      List.Forall₂ (fun component computed => computed.name = component.name ∧
        ∀ key entry, computed.tensors.get? key = some entry ↔
          ∃ shape, component.tensors.get? key = some shape ∧
            entry = ⟨rule.passthroughDtypes topology component key, shape,
              false⟩) topology.components layout.components := by
  obtain ⟨computed, hcomputed⟩ := @applyComponents_plain rule topology hplain
    topology.components
  refine ⟨⟨⟨topology.handle, rule.handle, defaultLayout⟩, computed, 0⟩, ?_, ?_⟩
  · rw [QuantRule.apply, hcomputed]
    rfl
  · refine (applyComponents_ok hcomputed).imp ?_
    rintro component _ ⟨tensors, count, hkeys, rfl⟩
    have howns := owns_of_applyKeys hkeys fun entry _ _ _ _ hacted => by
      rw [isEligible_plain hplain] at hacted
      cases hacted
    refine ⟨rfl, fun key entry => ?_⟩
    have hblock : ∀ shape, component.tensors.get? key = some shape →
        tensors.get? key = some
          ⟨rule.passthroughDtypes topology component key, shape, false⟩ :=
      fun shape hshape => (howns.blocks (key, shape)
        (OrdMap.get?_eq_some.mp hshape)).2 (isEligible_plain hplain ..)
    constructor
    · intro hentry
      have hname : key ∈ rule.namesOf topology component :=
        howns.names.mem_iff.mp (List.mem_map_of_mem
          (OrdMap.get?_eq_some.mp hentry))
      obtain ⟨found, hfound, hkey⟩ := List.mem_flatMap.mp hname
      rw [blockOf, isEligible_plain hplain, if_neg Bool.false_ne_true,
        List.mem_singleton] at hkey
      have hshape : component.tensors.get? key = some found.2 := by
        rw [hkey]
        exact OrdMap.get?_eq_some.mpr hfound
      have hsame := hblock found.2 hshape
      rw [hentry, Option.some.injEq] at hsame
      exact ⟨found.2, hshape, hsame⟩
    · rintro ⟨shape, hshape, rfl⟩
      exact hblock shape hshape

end QuantRule

/-- The layout a plain rule makes of an extracted topology describes the
members it was extracted from. -/
theorem describes_extracted {rule : QuantRule} {name : Text}
    {version : UInt32} {files : List ArtifactFile} {topology : Topology}
    {layout : Layout} (hpaths : (files.map ArtifactFile.path).Nodup)
    (htopology : topologyFromHeaders name version files = .ok topology)
    (hkeeps : rule.Keeps topology)
    (hlayout : List.Forall₂ (fun component computed =>
      computed.name = component.name ∧
        ∀ key entry, computed.tensors.get? key = some entry ↔
          ∃ shape, component.tensors.get? key = some shape ∧
            entry = ⟨rule.passthroughDtypes topology component key, shape,
              false⟩) topology.components layout.components) :
    Describes layout (sortedParts files) files := by
  obtain ⟨hcomponents, hsorted⟩ := topologyFromHeaders_ok htopology
  have hdisjointed : ∀ part ∈ sortedParts files, Disjointed part.members :=
    fun part hpart => partsOf_disjointed (mem_sortedParts.mp hpart)
  have hindexed : ∀ (index : Nat) (part : Part) (computed : LayoutComponent),
      (sortedParts files)[index]? = some part →
      layout.components[index]? = some computed →
      part.component topology.dtype ∈ topology.components ∧
      ∀ key entry, computed.tensors.get? key = some entry ↔
        ∃ shape,
          (part.component topology.dtype).tensors.get? key = some shape ∧
          entry = ⟨rule.passthroughDtypes topology
            (part.component topology.dtype) key, shape, false⟩ := by
    intro index part computed hpart hcomputed
    have hcomponent : topology.components[index]? =
        some (part.component topology.dtype) := by
      rw [hcomponents, List.getElem?_map, hpart, Option.map_some]
    refine ⟨List.mem_of_getElem? hcomponent, ?_⟩
    obtain ⟨hlt, hleft⟩ := List.getElem?_eq_some_iff.mp hcomponent
    obtain ⟨hlt', hright⟩ := List.getElem?_eq_some_iff.mp hcomputed
    have hpair := hlayout.get hlt hlt'
    rw [List.get_eq_getElem, List.get_eq_getElem, hleft, hright] at hpair
    exact hpair.2
  refine ⟨hpaths, sortedParts_perm files, hsorted, ?_, hdisjointed, ?_, ?_⟩
  · have hnames : List.Forall₂ (· = ·)
        (topology.components.map TopologyComponent.name)
        (layout.components.map LayoutComponent.name) :=
      List.forall₂_map_left_iff.mpr (List.forall₂_map_right_iff.mpr
        (hlayout.imp fun _ _ hpair => hpair.1.symm))
    rw [List.forall₂_eq_eq_eq] at hnames
    rw [← hnames, hcomponents, List.map_map]
    rfl
  · intro index part computed hpart hcomputed file hfile tensor htensor
    obtain ⟨hmem, hentries⟩ := hindexed index part computed hpart hcomputed
    have hpart' := hdisjointed part (List.mem_of_getElem? hpart)
    have hshape := @Part.component_get? part topology.dtype file tensor hpart'
      hfile htensor
    refine ⟨_, (hentries tensor.name _).mpr ⟨tensor.shape, hshape, rfl⟩, rfl,
      ?_⟩
    have hreference := hkeeps _ hmem _ (OrdMap.get?_eq_some.mp hshape)
    rwa [Part.reference_eq rfl hpart' hfile htensor] at hreference
  · intro index part computed hpart hcomputed key entry hentry
    obtain ⟨_, hentries⟩ := hindexed index part computed hpart hcomputed
    obtain ⟨shape, hshape, _⟩ := (hentries key entry).mp hentry
    exact Part.component_key hshape

/-- The members of an extracted topology match its plain layout, each at the
component it was extracted into, exactly when no rival component outscores a
member's own. -/
theorem extraction_matches (rule : QuantRule) (hplain : rule.eligible = none)
    (name : Text) (version : UInt32) (files : List ArtifactFile)
    (hpaths : (files.map ArtifactFile.path).Nodup) (topology : Topology)
    (htopology : topologyFromHeaders name version files = .ok topology)
    (hkeeps : rule.Keeps topology) :
    ∃ layout, rule.apply topology = .ok layout ∧
      ((∃ found, matchLayout files layout = .ok found ∧
        ∀ part ∈ partsOf files, ∀ file ∈ part.members,
          found.assignment.get? file.path = some part.name) ↔
      Upheld layout (partsOf files)) := by
  obtain ⟨layout, hlayout, hcomponents⟩ :=
    QuantRule.apply_plain hplain topology
  refine ⟨layout, hlayout, ?_⟩
  have hdescribes := describes_extracted hpaths htopology hkeeps hcomponents
  have hiff := hdescribes.upheld_iff
  simp only [Upheld, mem_sortedParts] at hiff ⊢
  exact hiff

/-! Shards named before their sibling, whose component sorts first. -/

namespace SplitFamily

def member (path : String) (keys : List Text) (h : keys.Nodup) :
    ArtifactFile where
  path := path.toList
  tensors := keys.map fun key => ⟨key, "F16".toList, [4], 8⟩
  names_nodup := by
    rw [List.map_map]
    exact h.map fun _ _ heq => heq

def first : ArtifactFile :=
  member "d/x-1.safetensors" [['a']] (by decide)

def second : ArtifactFile :=
  member "d/x-2.safetensors" [['b'], ['c']] (by decide)

def sibling : ArtifactFile :=
  member "d/x.safetensors" [['a'], ['b']] (by decide)

def files : List ArtifactFile := [first, second, sibling]

theorem byPath_files : byPath files = files :=
  List.mergeSort_of_pairwise (by decide)

theorem parts : partsOf files = [⟨"x-1".toList, roleOther, [first, second]⟩,
    ⟨['x'], roleOther, [sibling]⟩] := by
  have hgroups : (groupByDirectory .empty files).entries = [(['d'], files)] :=
    rfl
  have hparts : partitionMembers files = [[first, second], [sibling]] := by
    rw [partitionMembers, byPath_files]
    rfl
  rw [partsOf, hgroups, List.flatMap_singleton, directoryParts, hparts]
  rfl

/-- The parts' names sort against the members' paths. -/
def topology : Topology where
  handle := ⟨"cozy.split".toList, 1⟩
  dtype := "F16".toList
  components := [Part.component "F16".toList ⟨['x'], roleOther, [sibling]⟩,
    Part.component "F16".toList ⟨"x-1".toList, roleOther, [first, second]⟩]

theorem byName_pair {left right : TopologyComponent}
    (h : right.name < left.name) : byName [left, right] = [right, left] := by
  simp [byName, List.mergeSort, List.MergeSort.Internal.splitInTwo, h.not_ge]

theorem extracted :
    topologyFromHeaders "cozy.split".toList 1 files = .ok topology := by
  have hhandle : namedHandle "cozy.split".toList 1 = .ok topology.handle := by
    decide +kernel
  have hdtype : referenceTreeDtype files = topology.dtype := by
    decide +kernel
  have hcomponents : byName ((partsOf files).map
      (Part.component topology.dtype)) = topology.components := by
    rw [parts]
    exact byName_pair (by decide)
  have hnames : indexNames topology.handle [] topology.components = .ok () :=
    checkNames_eq_ok.mpr ⟨by decide, fun _ _ hseen => by cases hseen⟩
  simp only [topologyFromHeaders, hhandle, hdtype, hcomponents, hnames,
    except_ok_bind]

def rule : QuantRule where
  handle := ⟨"cozy.plain".toList, 1⟩
  declaredDtype := "reference".toList
  capabilityFloorSM := 0
  baseDtype := "@reference".toList
  referenceTolerant := false
  conventions := .empty
  scopeRoles := []
  lossy := false
  inverse := []
  eligible := none
  emissions := []

theorem keeps (topology : Topology) : rule.Keeps topology := by
  intro component _ entry _
  rw [QuantRule.passthroughDtypes,
    if_pos (show rule.baseDtype = "@reference".toList from rfl)]
  exact List.mem_singleton_self _

end SplitFamily

/-- The sibling of a two-shard family is refused as a duplicate of the shard the
engine sent to its component. -/
theorem sibling_refused :
    parseQuantRule ⟨some quantRuleFormat, some "cozy.plain".toList, some 1,
      "reference".toList, 0, "@reference".toList, false, .empty, [], false, [],
      none, [], []⟩ = .ok SplitFamily.rule ∧
    SplitFamily.rule.Keeps SplitFamily.topology ∧
    topologyFromHeaders "cozy.split".toList 1 SplitFamily.files =
      .ok SplitFamily.topology ∧
    ∃ layout, SplitFamily.rule.apply SplitFamily.topology = .ok layout ∧
      matchLayout SplitFamily.files layout =
        .error { reason := .duplicate, lane := some layout.id,
                 member := "d/x.safetensors".toList, component := ['x'],
                 tensor := ['a'] } := by
  refine ⟨?_, SplitFamily.keeps _, SplitFamily.extracted, ?_⟩
  · have hhandle : namedHandle "cozy.plain".toList 1 =
        .ok SplitFamily.rule.handle := by
      decide +kernel
    exact parseQuantRule_of rfl rfl rfl hhandle (by decide) (by decide)
      (by decide) (by decide) rfl rfl
  · refine ⟨_, rfl, ?_⟩
    unfold matchLayout
    rw [SplitFamily.byPath_files]
    rfl

namespace Twins

def left : ArtifactFile :=
  SplitFamily.member "d/x.safetensors" [['a']] (by decide)

def right : ArtifactFile :=
  SplitFamily.member "d/y.safetensors" [['a']] (by decide)

theorem parts : partsOf [left, right] = [⟨['x'], roleOther, [left]⟩,
    ⟨['y'], roleOther, [right]⟩] := by
  have hgroups : (groupByDirectory .empty [left, right]).entries =
      [(['d'], [left, right])] := rfl
  have hsorted : byPath [left, right] = [left, right] :=
    List.mergeSort_of_pairwise (by decide)
  have hparts : partitionMembers [left, right] = [[left], [right]] := by
    rw [partitionMembers, hsorted]
    rfl
  rw [partsOf, hgroups, List.flatMap_singleton, directoryParts, hparts]
  rfl

def topology : Topology where
  handle := ⟨"cozy.twins".toList, 1⟩
  dtype := "F16".toList
  components := [Part.component "F16".toList ⟨['x'], roleOther, [left]⟩,
    Part.component "F16".toList ⟨['y'], roleOther, [right]⟩]

theorem extracted :
    topologyFromHeaders "cozy.twins".toList 1 [left, right] = .ok topology := by
  have hhandle : namedHandle "cozy.twins".toList 1 = .ok topology.handle := by
    decide +kernel
  have hdtype : referenceTreeDtype [left, right] = topology.dtype := by
    decide +kernel
  have hcomponents : byName ((partsOf [left, right]).map
      (Part.component topology.dtype)) = topology.components := by
    rw [parts]
    exact List.mergeSort_of_pairwise (by decide)
  have hnames : indexNames topology.handle [] topology.components = .ok () :=
    checkNames_eq_ok.mpr ⟨by decide, fun _ _ hseen => by cases hseen⟩
  simp only [topologyFromHeaders, hhandle, hdtype, hcomponents, hnames,
    except_ok_bind]

/-- The second twin's key is carried by the first, so each stays at home. -/
theorem upheld (layout : Layout) : Upheld layout (partsOf [left, right]) := by
  rw [parts]
  intro own hown file hfile rival hrival _
  rcases List.mem_pair.mp hown with rfl | rfl <;>
    rcases List.mem_pair.mp hrival with rfl | rfl <;>
    rw [List.mem_singleton.mp hfile]
  · exact ⟨fun hlt => absurd hlt (lt_irrefl _), fun _ => Nat.le_add_left _ _⟩
  · exact ⟨fun hlt => absurd hlt (by decide), fun _ => Nat.zero_le _⟩
  · refine ⟨fun _ => ?_, fun hlt => absurd hlt (by decide)⟩
    have hcarried : carriedBefore layout ⟨['x'], roleOther, [left]⟩ right =
        1 := by
      have hpath : left.path < right.path := by decide
      have hname : ['a'] ∈ left.names := by decide
      simp [carriedBefore, right, SplitFamily.member] at hpath ⊢
      exact ⟨.inr hpath, hname⟩
    rw [hcarried]
    decide
  · exact ⟨fun hlt => absurd hlt (lt_irrefl _), fun _ => Nat.le_add_left _ _⟩

end Twins

/-- Two copies of one network side by side match, each at its own component. -/
theorem twins_match :
    ∃ layout, SplitFamily.rule.apply Twins.topology = .ok layout ∧
      ∃ found, matchLayout [Twins.left, Twins.right] layout = .ok found ∧
        ∀ part ∈ partsOf [Twins.left, Twins.right], ∀ file ∈ part.members,
          found.assignment.get? file.path = some part.name := by
  obtain ⟨layout, hlayout, hiff⟩ := extraction_matches SplitFamily.rule rfl
    "cozy.twins".toList 1 [Twins.left, Twins.right] (by decide)
    Twins.topology Twins.extracted (SplitFamily.keeps _)
  exact ⟨layout, hlayout, hiff.mpr (Twins.upheld layout)⟩

end TensorFS.Go
