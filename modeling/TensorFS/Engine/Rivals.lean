import TensorFS.Engine.ExtractSpec
import TensorFS.Engine.MatchSpec

namespace TensorFS.Go

open Data

/-! Where the engine sends the members of a topology's own headers. -/

/-! The assignment it reports. -/

/-- The report names the component of each assigned member. -/
def Reports (layout : Layout) (assignment : OrdMap Text Text)
    (pairs : Assigned) : Prop :=
  ∀ pair ∈ pairs,
    assignment.get? pair.1.path = some (componentName layout pair.2)

theorem coverTensors_assignment {layout : Layout} {path : Text} {index : Nat}
    {progress result : Progress} {tensors : List InventoryTensor}
    (h : coverTensors layout path index progress tensors = .ok result) :
    result.assignment = progress.assignment := by
  induction tensors generalizing progress with
  | nil =>
      cases h
      rfl
  | cons tensor tensors ih =>
      unfold coverTensors at h
      split_ifs at h
      have hrest := ih h
      exact hrest

theorem assign_reports {layout : Layout} {progress result : Progress}
    {pairs : Assigned} {file : ArtifactFile} {index : Nat}
    (h : assign layout progress file index = .ok result)
    (hreports : Reports layout progress.assignment pairs)
    (hpath : ∀ pair ∈ pairs, pair.1.path ≠ file.path) :
    Reports layout result.assignment (pairs ++ [(file, index)]) := by
  obtain ⟨middle, hmiddle, hend⟩ := except_bind_eq_ok.mp h
  cases hend
  intro pair hpair
  rw [OrdMap.get?_insert, coverTensors_assignment hmiddle]
  rcases List.mem_append.mp hpair with hpair | hpair
  · rw [if_neg (hpath pair hpair)]
    exact hreports pair hpair
  · rw [List.mem_singleton.mp hpair, if_pos rfl]

theorem assignLoop_reports {layout : Layout}
    {loop : Progress → List ArtifactFile → Except Refusal Progress}
    {choice : Progress → ArtifactFile → Nat}
    {choose : Assigned → ArtifactFile → Nat}
    (hnil : ∀ progress, loop progress [] = .ok progress)
    (hcons : ∀ progress file files, loop progress (file :: files) =
      assign layout progress file (choice progress file) >>=
        fun progress => loop progress files)
    (hchoice : ∀ progress pairs file, Tracks progress pairs →
      choice progress file = choose pairs file)
    {progress result : Progress} {pairs : Assigned}
    {files : List ArtifactFile} (htracks : Tracks progress pairs)
    (hreports : Reports layout progress.assignment pairs)
    (hpaths : ((pairs.map Prod.fst ++ files).map ArtifactFile.path).Nodup)
    (h : loop progress files = .ok result) :
    Reports layout result.assignment (extendBy choose pairs files) := by
  induction files generalizing progress pairs with
  | nil =>
      rw [hnil] at h
      cases h
      exact hreports
  | cons file files ih =>
      rw [hcons, hchoice progress pairs file htracks] at h
      obtain ⟨middle, hmiddle, htail⟩ := except_bind_eq_ok.mp h
      have hassign := @assign_eq_ok layout progress pairs file
        (choose pairs file) htracks
      refine ih (hassign.2 middle hmiddle)
        (assign_reports hmiddle hreports ?_) ?_ htail
      · intro pair hpair heq
        rw [List.map_append, List.map_cons] at hpaths
        refine List.disjoint_of_nodup_append hpaths
          (List.mem_map_of_mem (List.mem_map_of_mem hpair)) ?_
        rw [heq]
        exact List.mem_cons_self
      · have hsame : (pairs ++ [(file, choose pairs file)]).map Prod.fst ++
            files = pairs.map Prod.fst ++ file :: files := by simp
        rwa [hsame]

theorem matchLayout_reports {layout : Layout} {files : List ArtifactFile}
    {found : Match} (hpaths : (files.map ArtifactFile.path).Nodup)
    (h : matchLayout files layout = .ok found) :
    Reports layout found.assignment
      (greedy layout (settledOf layout files) (ambiguousOf layout files)) := by
  obtain ⟨_, _, hrest⟩ := except_bind_eq_ok.mp h
  obtain ⟨middle, hmiddle, hrest⟩ := except_bind_eq_ok.mp hrest
  obtain ⟨last, hlast, hrest⟩ := except_bind_eq_ok.mp hrest
  obtain ⟨_, _, hend⟩ := except_bind_eq_ok.mp hrest
  cases hend
  have hperm : ((byPath files).filter (unambiguous layout) ++
      ambiguousOf layout files).Perm files :=
    (List.filter_append_perm (unambiguous layout) (byPath files)).trans
      (List.mergeSort_perm files _)
  have hnodup := (hperm.map ArtifactFile.path).nodup_iff.mpr hpaths
  have hmiddle' : Reports layout middle.assignment (settledOf layout files) :=
    @assignLoop_reports layout (assignSettled layout)
      (fun _ file => (pendingOf layout file).headD 0)
      (fun _ file => (pendingOf layout file).headD 0)
      (fun _ => rfl) (fun _ _ _ => rfl) (fun _ _ _ _ => rfl)
      .start middle [] _ Tracks.start (fun _ hpair => by cases hpair)
      (by
        rw [List.map_append] at hnodup
        exact (List.nodup_append.mp hnodup).1) hmiddle
  have htracks := (@assignSettled_eq_ok layout .start []
    ((byPath files).filter (unambiguous layout)) Tracks.start
    List.Pairwise.nil).2 middle hmiddle
  refine @assignLoop_reports layout (assignAmbiguous layout)
    (fun progress file => pick layout progress.covered file)
    (fun chosen file => pick layout (carriedBy chosen) file)
    (fun _ => rfl) (fun _ _ _ => rfl) (fun _ _ _ htracks => pick_congr htracks)
    middle last (settledOf layout files) _ htracks hmiddle' ?_ hlast
  obtain ⟨tail, htail, hfiles⟩ := extendBy_append
    (fun _ file => (pendingOf layout file).headD 0) []
    ((byPath files).filter (unambiguous layout))
  rw [settledOf, settle, htail, List.nil_append, hfiles]
  exact hnodup

/-- Members chosen one by one end up where `own` says exactly when each choice,
seeing the ones before it there, is `own`. -/
theorem extendBy_eq_map {choose : Assigned → ArtifactFile → Nat}
    {own : ArtifactFile → Nat} {chosen : Assigned}
    {files : List ArtifactFile} :
    extendBy choose chosen files =
        chosen ++ files.map (fun file => (file, own file)) ↔
      ∀ front file back, files = front ++ file :: back →
        choose (chosen ++ front.map fun file => (file, own file)) file =
          own file := by
  induction files generalizing chosen with
  | nil => simp [extendBy]
  | cons head files ih =>
      rw [extendBy]
      constructor
      · intro h
        obtain ⟨tail, htail, _⟩ := extendBy_append choose
          (chosen ++ [(head, choose chosen head)]) files
        have hhead : choose chosen head = own head := by
          rw [htail, List.append_assoc] at h
          have hsame := List.append_cancel_left h
          rw [List.singleton_append, List.map_cons, List.cons.injEq,
            Prod.mk.injEq] at hsame
          exact hsame.1.2
        rw [hhead, List.map_cons, List.append_cons chosen _ (files.map _)] at h
        have hrest := ih.mp h
        intro front file back hsplit
        cases front with
        | nil =>
            rw [List.nil_append, List.cons.injEq] at hsplit
            rw [List.map_nil, List.append_nil, ← hsplit.1, hhead]
        | cons first front =>
            rw [List.cons_append, List.cons.injEq] at hsplit
            rw [← hsplit.1, List.map_cons, List.append_cons]
            exact hrest front file back hsplit.2
      · intro h
        have hhead : choose chosen head = own head := by
          have hfirst := h [] head files rfl
          rwa [List.map_nil, List.append_nil] at hfirst
        rw [hhead, List.map_cons, List.append_cons chosen _ (files.map _)]
        refine ih.mpr fun front file back hsplit => ?_
        have hlater := h (head :: front) file back (by rw [hsplit]; rfl)
        rwa [List.map_cons, List.append_cons] at hlater

/-! A layout read off the members themselves. -/

/-- The index of the part a member is in. -/
def ownOf (parts : List Part) (file : ArtifactFile) : Nat :=
  parts.findIdx fun part =>
    part.members.any fun member => decide (member.path = file.path)

/-- Each component of the layout describes the members of one part. -/
structure Describes (layout : Layout) (parts : List Part)
    (files : List ArtifactFile) : Prop where
  paths : (files.map ArtifactFile.path).Nodup
  perm : (parts.flatMap Part.members).Perm files
  sorted : (parts.map Part.name).Pairwise (· < ·)
  names : layout.components.map LayoutComponent.name = parts.map Part.name
  disjointed : ∀ part ∈ parts, Disjointed part.members
  declares : ∀ (index : Nat) (part : Part) (component : LayoutComponent),
    parts[index]? = some part → layout.components[index]? = some component →
    ∀ file ∈ part.members, Declares component file
  carried : ∀ (index : Nat) (part : Part) (component : LayoutComponent),
    parts[index]? = some part → layout.components[index]? = some component →
    ∀ key entry, component.tensors.get? key = some entry →
      ∃ file ∈ part.members, key ∈ file.names

namespace Describes

variable {layout : Layout} {parts : List Part} {files : List ArtifactFile}

theorem mem_files (h : Describes layout parts files) {file : ArtifactFile} :
    file ∈ files ↔ ∃ part ∈ parts, file ∈ part.members := by
  rw [← h.perm.mem_iff, List.mem_flatMap]

theorem length_eq (h : Describes layout parts files) :
    layout.components.length = parts.length := by
  rw [← List.length_map LayoutComponent.name, h.names, List.length_map]

theorem path_injective (h : Describes layout parts files)
    {left right : ArtifactFile} (hleft : left ∈ files) (hright : right ∈ files)
    (heq : left.path = right.path) : left = right :=
  List.inj_on_of_nodup_map h.paths hleft hright heq

/-- Two parts hold different members. -/
theorem part_unique (h : Describes layout parts files) {i j : Nat}
    {left right : Part} (hleft : parts[i]? = some left)
    (hright : parts[j]? = some right) {file : ArtifactFile}
    (hfile : file ∈ left.members) (hother : file ∈ right.members) : i = j := by
  have hnodup : (parts.flatMap Part.members).Nodup :=
    h.perm.nodup_iff.mpr (List.Nodup.of_map _ h.paths)
  have hpairwise := List.pairwise_iff_getElem.mp
    (List.nodup_flatMap.mp hnodup).2
  obtain ⟨hi, rfl⟩ := List.getElem?_eq_some_iff.mp hleft
  obtain ⟨hj, rfl⟩ := List.getElem?_eq_some_iff.mp hright
  rcases lt_trichotomy i j with hlt | heq | hgt
  · exact absurd hother (hpairwise i j hi hj hlt hfile)
  · exact heq
  · exact absurd hfile (hpairwise j i hj hi hgt hother)

theorem ownOf_eq (h : Describes layout parts files) {index : Nat} {part : Part}
    (hpart : parts[index]? = some part) {file : ArtifactFile}
    (hfile : file ∈ part.members) : ownOf parts file = index := by
  obtain ⟨hindex, rfl⟩ := List.getElem?_eq_some_iff.mp hpart
  refine (List.findIdx_eq hindex).mpr ⟨?_, fun j hj => ?_⟩
  · exact List.any_eq_true.mpr ⟨file, hfile, decide_eq_true rfl⟩
  · rw [Bool.eq_false_iff, Ne, List.any_eq_true]
    rintro ⟨member, hmember, hpath⟩
    have hmem : ∀ (k : Nat) (hk : k < parts.length),
        ∀ other ∈ parts[k].members, other ∈ files := fun k hk other hother =>
      h.mem_files.mpr ⟨parts[k], List.getElem_mem hk, hother⟩
    have hsame := h.path_injective (hmem j (hj.trans hindex) member hmember)
      (hmem index hindex file hfile) (of_decide_eq_true hpath)
    rw [hsame] at hmember
    exact absurd (h.part_unique (List.getElem?_eq_getElem _)
      (List.getElem?_eq_getElem hindex) hmember hfile) hj.ne

theorem own_part (h : Describes layout parts files) {file : ArtifactFile}
    (hfile : file ∈ files) :
    ∃ part, parts[ownOf parts file]? = some part ∧ file ∈ part.members := by
  obtain ⟨part, hpart, hmember⟩ := h.mem_files.mp hfile
  obtain ⟨index, hindex⟩ := List.getElem?_of_mem hpart
  exact ⟨part, by rwa [h.ownOf_eq hindex hmember], hmember⟩

theorem component_of (h : Describes layout parts files) {index : Nat}
    {part : Part} (hpart : parts[index]? = some part) :
    ∃ component, layout.components[index]? = some component ∧
      component.name = part.name := by
  have hnames := congrArg (fun names => names[index]?) h.names
  simp only [List.getElem?_map, hpart, Option.map_some,
    Option.map_eq_some_iff] at hnames
  exact hnames

theorem componentName_eq (h : Describes layout parts files) {index : Nat}
    {part : Part} (hpart : parts[index]? = some part) :
    componentName layout index = part.name := by
  obtain ⟨component, hcomponent, hname⟩ := h.component_of hpart
  rw [componentName, hcomponent]
  exact hname

theorem own_pending (h : Describes layout parts files) {file : ArtifactFile}
    (hfile : file ∈ files) : ownOf parts file ∈ pendingOf layout file := by
  obtain ⟨part, hpart, hmember⟩ := h.own_part hfile
  obtain ⟨component, hcomponent, _⟩ := h.component_of hpart
  exact mem_pendingOf.mpr ⟨component, hcomponent,
    h.declares _ part component hpart hcomponent file hmember⟩

theorem names_lt (h : Describes layout parts files) {i j : Nat}
    {left right : Part} (hleft : parts[i]? = some left)
    (hright : parts[j]? = some right) : left.name < right.name ↔ i < j := by
  obtain ⟨hi, rfl⟩ := List.getElem?_eq_some_iff.mp hleft
  obtain ⟨hj, rfl⟩ := List.getElem?_eq_some_iff.mp hright
  have hsorted := List.pairwise_iff_getElem.mp (List.pairwise_map.mp h.sorted)
  constructor
  · intro hlt
    by_contra hge
    rcases (not_lt.mp hge).lt_or_eq with hgt | rfl
    · exact hlt.asymm (hsorted j i hj hi hgt)
    · exact lt_irrefl _ hlt
  · exact hsorted i j hi hj

/-- Two members of one part share no key. -/
theorem disjoint (h : Describes layout parts files)
    {left right : ArtifactFile} (hleft : left ∈ files) (hright : right ∈ files)
    (hne : left ≠ right) (hown : ownOf parts left = ownOf parts right) :
    List.Disjoint left.names right.names := by
  obtain ⟨part, hpart, hmember⟩ := h.own_part hleft
  obtain ⟨other, hother, hmember'⟩ := h.own_part hright
  rw [← hown, hpart, Option.some.injEq] at hother
  subst hother
  have : Std.Symm fun left right : ArtifactFile =>
    List.Disjoint left.names right.names := ⟨fun _ _ hxy => hxy.symm⟩
  exact (h.disjointed part (List.mem_of_getElem? hpart)).forall hmember
    hmember' hne

/-- Every member in its own component is a fitting assignment. -/
theorem fits (h : Describes layout parts files) :
    Fits layout (files.map fun file => (file, ownOf parts file)) where
  declared pair hpair := by
    obtain ⟨file, hfile, rfl⟩ := List.mem_map.mp hpair
    exact mem_pendingOf.mp (h.own_pending hfile)
  noneTwice := by
    rw [NoneTwice, List.pairwise_map]
    have hnodup := List.Nodup.of_map _ h.paths
    exact hnodup.imp_of_mem fun hleft hright hne hown =>
      h.disjoint hleft hright hne hown
  carried index component hcomponent key entry hentry _ := by
    have hindex : index < parts.length :=
      h.length_eq ▸ (List.getElem?_eq_some_iff.mp hcomponent).1
    have hpart := List.getElem?_eq_getElem hindex
    obtain ⟨file, hmember, hkey⟩ :=
      h.carried index _ component hpart hcomponent key entry hentry
    refine ⟨(file, ownOf parts file), List.mem_map_of_mem ?_,
      h.ownOf_eq hpart hmember, hkey⟩
    exact h.mem_files.mpr ⟨_, List.getElem_mem hindex, hmember⟩

/-- A member only its own component accepts is sent there. -/
theorem settledOf_eq (h : Describes layout parts files) :
    settledOf layout files = ((byPath files).filter (unambiguous layout)).map
      fun file => (file, ownOf parts file) := by
  rw [Go.settledOf_eq]
  refine List.map_congr_left fun file hfile => ?_
  obtain ⟨hmem, hone⟩ := List.mem_filter.mp hfile
  have hown := h.own_pending ((List.mergeSort_perm files _).mem_iff.mp hmem)
  simp only [unambiguous, decide_eq_true_eq] at hone
  obtain ⟨only, honly⟩ := List.length_eq_one_iff.mp hone
  rw [honly] at hown ⊢
  rw [List.mem_singleton.mp hown, List.headD_cons]

/-- All members are assigned to their own components exactly when the greedy
pass sends the ambiguous ones there. -/
theorem matches_iff (h : Describes layout parts files) :
    (∃ found, matchLayout files layout = .ok found ∧
      ∀ part ∈ parts, ∀ file ∈ part.members,
        found.assignment.get? file.path = some part.name) ↔
      greedy layout (settledOf layout files) (ambiguousOf layout files) =
        settledOf layout files ++ (ambiguousOf layout files).map
          fun file => (file, ownOf parts file) := by
  have hperm : ((byPath files).filter (unambiguous layout) ++
      ambiguousOf layout files).Perm files :=
    (List.filter_append_perm (unambiguous layout) (byPath files)).trans
      (List.mergeSort_perm files _)
  constructor
  · rintro ⟨found, hfound, hassigned⟩
    have hreports := matchLayout_reports h.paths hfound
    have hfits := matchLayout_ok_iff.mp ⟨found, hfound⟩
    obtain ⟨tail, htail, hfiles⟩ := extendBy_append
      (fun chosen file => pick layout (carriedBy chosen) file)
      (settledOf layout files) (ambiguousOf layout files)
    rw [greedy, htail] at hreports hfits ⊢
    rw [← hfiles, List.map_map]
    refine congrArg _ ((List.map_id tail).symm.trans
      (List.map_congr_left fun pair hpair => ?_))
    have hmem := List.mem_append_right (settledOf layout files) hpair
    have hfile : pair.1 ∈ files := hperm.mem_iff.mp
      (List.mem_append_right _ (hfiles ▸ List.mem_map_of_mem hpair))
    obtain ⟨part, hpart, hmember⟩ := h.own_part hfile
    obtain ⟨component, hcomponent, _⟩ := hfits.declared pair hmem
    have hindex : pair.2 < parts.length :=
      h.length_eq ▸ (List.getElem?_eq_some_iff.mp hcomponent).1
    have hother := List.getElem?_eq_getElem hindex
    have hname : parts[pair.2].name = part.name := by
      have hget := hassigned part (List.mem_of_getElem? hpart) pair.1 hmember
      rw [hreports pair hmem, h.componentName_eq hother,
        Option.some.injEq] at hget
      exact hget
    have heq : pair.2 = ownOf parts pair.1 := by
      rcases lt_trichotomy pair.2 (ownOf parts pair.1) with hlt | heq | hgt
      · exact absurd hname ((h.names_lt hother hpart).mpr hlt).ne
      · exact heq
      · exact absurd hname ((h.names_lt hpart hother).mpr hgt).ne'
    exact Prod.ext rfl heq
  · intro hgreedy
    have hfits : Fits layout (greedy layout (settledOf layout files)
        (ambiguousOf layout files)) := by
      rw [hgreedy, h.settledOf_eq, ← List.map_append]
      exact h.fits.perm (hperm.symm.map _)
    obtain ⟨found, hfound⟩ := matchLayout_ok_iff.mpr hfits
    refine ⟨found, hfound, fun part hpart file hmember => ?_⟩
    have hreports := matchLayout_reports h.paths hfound
    rw [hgreedy, h.settledOf_eq, ← List.map_append] at hreports
    obtain ⟨index, hindex⟩ := List.getElem?_of_mem hpart
    have hfile := h.mem_files.mpr ⟨part, hpart, hmember⟩
    have hget := hreports (file, ownOf parts file)
      (List.mem_map_of_mem (hperm.mem_iff.mpr hfile))
    rw [hget]
    simp only
    rw [h.ownOf_eq hindex hmember, h.componentName_eq hindex]

end Describes

/-! Scores against a rival. -/

/-- The point a part gets for the member's directory name. -/
def hinted (file : ArtifactFile) (part : Part) : Nat :=
  if directoryHint file.path = part.name then 1 else 0

/-- How many of a member's keys are carried by the members of a part that the
engine places before it: the ones only one component accepts, and the ones
earlier in path order. -/
def carriedBefore (layout : Layout) (part : Part) (file : ArtifactFile) :
    Nat :=
  file.tensors.countP fun tensor => part.members.any fun other =>
    (unambiguous layout other || decide (other.path < file.path)) &&
      decide (tensor.name ∈ other.names)

/-- The component of this name declares the member. -/
def Declared (layout : Layout) (part : Part) (file : ArtifactFile) : Prop :=
  ∃ component ∈ layout.components,
    component.name = part.name ∧ Declares component file

/-- No component that also declares a member outscores the member's own. -/
def Upheld (layout : Layout) (parts : List Part) : Prop :=
  ∀ own ∈ parts, ∀ file ∈ own.members, ∀ rival ∈ parts,
    Declared layout rival file →
      (rival.name < own.name → hinted file rival <
        carriedBefore layout rival file + hinted file own) ∧
      (own.name < rival.name → hinted file rival ≤
        carriedBefore layout rival file + hinted file own)

namespace Describes

variable {layout : Layout} {parts : List Part} {files : List ArtifactFile}
  {file : ArtifactFile} {front back : List ArtifactFile}

theorem ambiguousOf_sorted (h : Describes layout parts files) :
    (ambiguousOf layout files).Pairwise fun left right =>
      left.path < right.path := by
  have hsorted : (byPath files).Pairwise fun left right =>
      left.path ≤ right.path := by
    refine (List.pairwise_mergeSort ?_ ?_ files).imp
      fun h => of_decide_eq_true h
    · intro a b c hab hbc
      exact decide_eq_true
        ((of_decide_eq_true hab).trans (of_decide_eq_true hbc))
    · intro a b
      simpa using le_total a.path b.path
  have hnodup : ((byPath files).map ArtifactFile.path).Nodup :=
    ((List.mergeSort_perm files _).map _).nodup_iff.mpr h.paths
  exact (hsorted.imp₂ (fun _ _ hle hne => lt_of_le_of_ne hle hne)
    (List.pairwise_map.mp hnodup)).filter _

theorem mem_ambiguousOf :
    file ∈ ambiguousOf layout files ↔
      file ∈ files ∧ unambiguous layout file = false := by
  rw [ambiguousOf, List.mem_filter, Bool.not_eq_true', byPath,
    (List.mergeSort_perm files _).mem_iff]

/-- The members placed between the settled ones and this one. -/
theorem mem_front (h : Describes layout parts files)
    (hsplit : ambiguousOf layout files = front ++ file :: back)
    {other : ArtifactFile} :
    other ∈ front ↔ other ∈ ambiguousOf layout files ∧
      other.path < file.path := by
  have hsorted := h.ambiguousOf_sorted
  rw [hsplit] at hsorted ⊢
  obtain ⟨_, hbehind, hacross⟩ := List.pairwise_append.mp hsorted
  constructor
  · intro hmem
    exact ⟨List.mem_append_left _ hmem,
      hacross other hmem file List.mem_cons_self⟩
  · rintro ⟨hmem, hlt⟩
    rcases List.mem_append.mp hmem with hfront | hback
    · exact hfront
    · rcases List.mem_cons.mp hback with rfl | hback
      · exact absurd hlt (lt_irrefl _)
      · exact absurd hlt
          ((List.pairwise_cons.mp hbehind).1 other hback).asymm

theorem mem_covered (h : Describes layout parts files)
    (hsplit : ambiguousOf layout files = front ++ file :: back) {index : Nat}
    {part : Part} (hpart : parts[index]? = some part) {key : Text} :
    key ∈ carriedBy (settledOf layout files ++
        front.map fun file => (file, ownOf parts file)) index ↔
      ∃ other ∈ part.members, (unambiguous layout other = true ∨
        other.path < file.path) ∧ key ∈ other.names := by
  rw [mem_carriedBy, h.settledOf_eq, ← List.map_append]
  simp only [List.mem_map, List.mem_append, List.mem_filter,
    (List.mergeSort_perm files _).mem_iff, byPath, h.mem_front hsplit,
    mem_ambiguousOf]
  constructor
  · rintro ⟨_, ⟨other, hplaced, rfl⟩, rfl, hkey⟩
    have hother : other ∈ files := by
      rcases hplaced with ⟨hmem, _⟩ | ⟨⟨hmem, _⟩, _⟩ <;> exact hmem
    obtain ⟨found, hfound, hmember⟩ := h.own_part hother
    rw [hpart, Option.some.injEq] at hfound
    subst hfound
    refine ⟨other, hmember, ?_, hkey⟩
    rcases hplaced with ⟨_, hone⟩ | ⟨_, hlt⟩
    · exact .inl hone
    · exact .inr hlt
  · rintro ⟨other, hmember, hplaced, hkey⟩
    have hother := h.mem_files.mpr ⟨part, List.mem_of_getElem? hpart, hmember⟩
    refine ⟨_, ⟨other, ?_, rfl⟩, h.ownOf_eq hpart hmember, hkey⟩
    by_cases hone : unambiguous layout other = true
    · exact .inl ⟨hother, hone⟩
    · rw [Bool.not_eq_true] at hone
      refine .inr ⟨⟨hother, hone⟩, ?_⟩
      rcases hplaced with hsettled | hlt
      · rw [hone] at hsettled
        cases hsettled
      · exact hlt

/-- What a candidate covers of the member before it is placed costs it. -/
theorem score_add (h : Describes layout parts files)
    (hsplit : ambiguousOf layout files = front ++ file :: back) {index : Nat}
    {part : Part} (hpart : parts[index]? = some part) :
    score layout (carriedBy (settledOf layout files ++
        front.map fun file => (file, ownOf parts file))) file index +
        carriedBefore layout part file =
      file.tensors.length + hinted file part := by
  have hcarried : crowding (settledOf layout files ++
      front.map fun file => (file, ownOf parts file)) file index =
        carriedBefore layout part file := by
    refine List.countP_congr fun tensor _ => ?_
    rw [decide_eq_true_eq, h.mem_covered hsplit hpart, List.any_eq_true]
    simp only [Bool.and_eq_true, Bool.or_eq_true, decide_eq_true_eq]
  have hhint : hint layout file index = hinted file part := by
    rw [hint, h.componentName_eq hpart, hinted]
  rw [← hcarried, ← hhint]
  exact score_add_crowding _ _ _ _

theorem carriedBefore_own (h : Describes layout parts files)
    (hfile : file ∈ ambiguousOf layout files) {part : Part}
    (hpart : part ∈ parts) (hmember : file ∈ part.members) :
    carriedBefore layout part file = 0 := by
  obtain ⟨index, hindex⟩ := List.getElem?_of_mem hpart
  obtain ⟨hmem, hmany⟩ := mem_ambiguousOf.mp hfile
  refine List.countP_eq_zero.mpr fun tensor htensor hany => ?_
  obtain ⟨other, hother, hcarries⟩ := List.any_eq_true.mp hany
  simp only [Bool.and_eq_true, Bool.or_eq_true, decide_eq_true_eq] at hcarries
  have hne : other ≠ file := by
    rintro rfl
    rcases hcarries.1 with hone | hlt
    · rw [hmany] at hone
      cases hone
    · exact lt_irrefl _ hlt
  have hmem' := h.mem_files.mpr ⟨part, hpart, hother⟩
  exact h.disjoint hmem' hmem hne
    ((h.ownOf_eq hindex hother).trans (h.ownOf_eq hindex hmember).symm)
    hcarries.2 (List.mem_map_of_mem htensor)

theorem declared_iff (h : Describes layout parts files) {index : Nat}
    {part : Part} (hpart : parts[index]? = some part) :
    Declared layout part file ↔ index ∈ pendingOf layout file := by
  rw [mem_pendingOf]
  constructor
  · rintro ⟨component, hcomponent, hname, hdeclares⟩
    obtain ⟨found, hfound⟩ := List.getElem?_of_mem hcomponent
    have hindex : found < parts.length :=
      h.length_eq ▸ (List.getElem?_eq_some_iff.mp hfound).1
    have hother := List.getElem?_eq_getElem hindex
    have hsame : found = index := by
      have hnames : parts[found].name = part.name := by
        rw [← hname, ← h.componentName_eq hother, componentName, hfound]
        rfl
      rcases lt_trichotomy found index with hlt | heq | hgt
      · exact absurd hnames ((h.names_lt hother hpart).mpr hlt).ne
      · exact heq
      · exact absurd hnames ((h.names_lt hpart hother).mpr hgt).ne'
    exact ⟨component, hsame ▸ hfound, hdeclares⟩
  · rintro ⟨component, hcomponent, hdeclares⟩
    refine ⟨component, List.mem_of_getElem? hcomponent, ?_, hdeclares⟩
    rw [← h.componentName_eq hpart, componentName, hcomponent]
    rfl

/-- The own component of an ambiguous member wins exactly when no rival
outscores it. -/
theorem wins_iff (h : Describes layout parts files)
    (hsplit : ambiguousOf layout files = front ++ file :: back) {own : Part}
    (hown : own ∈ parts) (hmember : file ∈ own.members) :
    Wins layout (carriedBy (settledOf layout files ++
        front.map fun file => (file, ownOf parts file))) file
        (ownOf parts file) ↔
      ∀ rival ∈ parts, Declared layout rival file →
        (rival.name < own.name → hinted file rival <
          carriedBefore layout rival file + hinted file own) ∧
        (own.name < rival.name → hinted file rival ≤
          carriedBefore layout rival file + hinted file own) := by
  have hfile : file ∈ ambiguousOf layout files := by
    rw [hsplit]
    exact List.mem_append_right _ List.mem_cons_self
  obtain ⟨place, hplace⟩ := List.getElem?_of_mem hown
  rw [h.ownOf_eq hplace hmember]
  have hscore := h.score_add hsplit hplace
  rw [h.carriedBefore_own hfile hown hmember, Nat.add_zero] at hscore
  constructor
  · intro hwins rival hrival hdeclared
    obtain ⟨index, hindex⟩ := List.getElem?_of_mem hrival
    obtain ⟨hbefore, hbehind⟩ :=
      hwins index ((h.declared_iff hindex).mp hdeclared)
    have hother := h.score_add hsplit hindex
    refine ⟨fun hlt => ?_, fun hlt => ?_⟩
    · have := hbefore ((h.names_lt hindex hplace).mp hlt)
      omega
    · have := hbehind ((h.names_lt hplace hindex).mp hlt)
      omega
  · intro hrivals index hpending
    obtain ⟨component, hcomponent, _⟩ := mem_pendingOf.mp hpending
    have hlt : index < parts.length :=
      h.length_eq ▸ (List.getElem?_eq_some_iff.mp hcomponent).1
    have hindex := List.getElem?_eq_getElem hlt
    obtain ⟨hbefore, hbehind⟩ := hrivals _ (List.getElem_mem hlt)
      ((h.declared_iff hindex).mpr hpending)
    have hother := h.score_add hsplit hindex
    refine ⟨fun hless => ?_, fun hless => ?_⟩
    · have := hbefore ((h.names_lt hindex hplace).mpr hless)
      omega
    · have := hbehind ((h.names_lt hplace hindex).mpr hless)
      omega

/-- A member that a rival declares too is ambiguous. -/
theorem ambiguous_of_rival (h : Describes layout parts files) {own rival : Part}
    (hown : own ∈ parts) (hmember : file ∈ own.members)
    (hrival : rival ∈ parts) (hdeclared : Declared layout rival file)
    (hne : rival.name ≠ own.name) : file ∈ ambiguousOf layout files := by
  have hfile := h.mem_files.mpr ⟨own, hown, hmember⟩
  refine mem_ambiguousOf.mpr ⟨hfile, ?_⟩
  obtain ⟨place, hplace⟩ := List.getElem?_of_mem hown
  obtain ⟨index, hindex⟩ := List.getElem?_of_mem hrival
  have hpending := (h.declared_iff hindex).mp hdeclared
  have hself := h.own_pending hfile
  rw [h.ownOf_eq hplace hmember] at hself
  rw [unambiguous, decide_eq_false_iff_not, List.length_eq_one_iff]
  rintro ⟨only, honly⟩
  rw [honly] at hpending hself
  rw [List.mem_singleton.mp hpending] at hindex
  rw [List.mem_singleton.mp hself, hindex, Option.some.injEq] at hplace
  exact hne (hplace ▸ rfl)

theorem upheld_iff (h : Describes layout parts files) :
    (∃ found, matchLayout files layout = .ok found ∧
      ∀ part ∈ parts, ∀ file ∈ part.members,
        found.assignment.get? file.path = some part.name) ↔
      Upheld layout parts := by
  rw [h.matches_iff, greedy, extendBy_eq_map]
  constructor
  · intro hpicks own hown file hmember rival hrival hdeclared
    by_cases hsame : rival.name = own.name
    · rw [hsame]
      exact ⟨fun hlt => absurd hlt (lt_irrefl _),
        fun hlt => absurd hlt (lt_irrefl _)⟩
    · obtain ⟨front, back, hsplit⟩ := List.append_of_mem
        (h.ambiguous_of_rival hown hmember hrival hdeclared hsame)
      have hfile := h.mem_files.mpr ⟨own, hown, hmember⟩
      have hwins := (pick_eq_iff (h.own_pending hfile)).mp
        (hpicks front file back hsplit)
      exact (h.wins_iff hsplit hown hmember).mp hwins rival hrival hdeclared
  · intro hupheld front file back hsplit
    have hmem : file ∈ ambiguousOf layout files := by
      rw [hsplit]
      exact List.mem_append_right _ List.mem_cons_self
    have hfile := (mem_ambiguousOf.mp hmem).1
    obtain ⟨own, hown, hmember⟩ := h.mem_files.mp hfile
    exact (pick_eq_iff (h.own_pending hfile)).mpr
      ((h.wins_iff hsplit hown hmember).mpr (hupheld own hown file hmember))

end Describes

end TensorFS.Go
