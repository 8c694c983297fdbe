import TensorFS.Engine.Extract

namespace TensorFS.Go

open Data

/-! What an extracted topology says of the members. -/

theorem groupByDirectory_perm (grouped : OrdMap Text (List ArtifactFile))
    (files : List ArtifactFile) :
    ((groupByDirectory grouped files).entries.flatMap Prod.snd).Perm
      (grouped.entries.flatMap Prod.snd ++ files) := by
  induction files generalizing grouped with
  | nil => rw [groupByDirectory, List.append_nil]
  | cons file files ih =>
      rw [List.append_cons (grouped.entries.flatMap Prod.snd)]
      exact (ih _).trans ((grouped.insert_append_perm _ file).append_right files)

theorem addToFamily_perm (member : ArtifactFile)
    (families : List (Text × List ArtifactFile)) :
    ((addToFamily member families).flatMap Prod.snd).Perm
      (families.flatMap Prod.snd ++ [member]) := by
  induction families with
  | nil => exact .refl _
  | cons family families ih =>
      unfold addToFamily
      split
      · simp only [List.flatMap_cons, List.append_assoc]
        exact List.Perm.append_left _ List.perm_append_comm
      · rw [List.flatMap_cons, List.flatMap_cons, List.append_assoc]
        exact ih.append_left _

theorem families_perm (families : List (Text × List ArtifactFile))
    (members : List ArtifactFile) :
    ((members.foldl (fun families member => addToFamily member families)
      families).flatMap Prod.snd).Perm
      (families.flatMap Prod.snd ++ members) := by
  induction members generalizing families with
  | nil => rw [List.foldl_nil, List.append_nil]
  | cons member members ih =>
      refine (ih _).trans ?_
      rw [List.append_cons]
      exact (addToFamily_perm member families).append_right _

/-! A part's members share no key. -/

def Disjointed (members : List ArtifactFile) : Prop :=
  members.Pairwise fun left right => List.Disjoint left.names right.names

theorem placeMember_perm (member : ArtifactFile)
    (parts : List (List Text × List ArtifactFile)) :
    ((placeMember member parts).flatMap Prod.snd).Perm
      (parts.flatMap Prod.snd ++ [member]) := by
  induction parts with
  | nil => exact .refl _
  | cons part parts ih =>
      unfold placeMember
      split
      · rw [List.flatMap_cons, List.flatMap_cons, List.append_assoc]
        exact ih.append_left _
      · simp only [List.flatMap_cons, List.append_assoc]
        exact List.Perm.append_left _ List.perm_append_comm

theorem overlaps_eq_false {covered : List Text} {member : ArtifactFile} :
    overlaps covered member = false ↔ List.Disjoint covered member.names := by
  rw [overlaps, List.any_eq_false, List.disjoint_right]
  simp [ArtifactFile.names]

theorem placeMember_disjointed {member : ArtifactFile}
    {parts : List (List Text × List ArtifactFile)}
    (h : ∀ part ∈ parts, part.1 = part.2.flatMap ArtifactFile.names ∧
      Disjointed part.2) :
    ∀ part ∈ placeMember member parts,
      part.1 = part.2.flatMap ArtifactFile.names ∧ Disjointed part.2 := by
  induction parts with
  | nil =>
      intro part hpart
      rw [List.mem_singleton.mp hpart]
      exact ⟨by simp, List.pairwise_singleton _ _⟩
  | cons head parts ih =>
      obtain ⟨covered, members⟩ := head
      have hhead := h _ List.mem_cons_self
      simp only at hhead
      obtain ⟨hcovered, hmembers⟩ := hhead
      have hparts := fun part hpart => h part (List.mem_cons_of_mem _ hpart)
      intro part hpart
      unfold placeMember at hpart
      split at hpart
      · rcases List.mem_cons.mp hpart with rfl | hpart
        · exact ⟨hcovered, hmembers⟩
        · exact ih hparts part hpart
      · rename_i hfresh
        rw [Bool.not_eq_true, overlaps_eq_false, hcovered] at hfresh
        rcases List.mem_cons.mp hpart with rfl | hpart
        · refine ⟨by simp [hcovered], List.pairwise_append.mpr
            ⟨hmembers, List.pairwise_singleton _ _, ?_⟩⟩
          intro left hleft right hright key hkey
          rw [List.mem_singleton.mp hright]
          exact hfresh (List.mem_flatMap.mpr ⟨left, hleft, hkey⟩)
        · exact hparts part hpart

theorem familyParts_spec (members : List ArtifactFile) :
    (familyParts members).flatten.Perm members ∧
      ∀ part ∈ familyParts members, Disjointed part := by
  have hgeneral : ∀ parts : List (List Text × List ArtifactFile),
      (∀ part ∈ parts, part.1 = part.2.flatMap ArtifactFile.names ∧
        Disjointed part.2) →
      ((members.foldl (fun parts member => placeMember member parts)
        parts).flatMap Prod.snd).Perm (parts.flatMap Prod.snd ++ members) ∧
      ∀ part ∈ members.foldl (fun parts member => placeMember member parts)
        parts, Disjointed part.2 := by
    induction members with
    | nil =>
        intro parts hparts
        rw [List.foldl_nil, List.append_nil]
        exact ⟨.refl _, fun part hpart => (hparts part hpart).2⟩
    | cons member members ih =>
        intro parts hparts
        obtain ⟨hperm, hdisjoint⟩ := ih _
          (@placeMember_disjointed member parts hparts)
        refine ⟨hperm.trans ?_, hdisjoint⟩
        rw [List.append_cons]
        exact (placeMember_perm member parts).append_right _
  obtain ⟨hperm, hdisjoint⟩ := hgeneral [] fun _ hpart => by cases hpart
  refine ⟨?_, fun part hpart => ?_⟩
  · rw [familyParts, ← List.flatMap_def]
    exact hperm
  · obtain ⟨found, hfound, rfl⟩ := List.mem_map.mp hpart
    exact hdisjoint found hfound

theorem partitionMembers_spec (members : List ArtifactFile) :
    (partitionMembers members).flatten.Perm members ∧
      ∀ part ∈ partitionMembers members, Disjointed part := by
  constructor
  · rw [partitionMembers, ← List.flatMap_id', List.flatMap_assoc]
    simp only [List.flatMap_id']
    refine (List.Perm.flatMap_left _ fun family _ =>
      (familyParts_spec family.2).1).trans ?_
    refine (families_perm [] (byPath members)).trans ?_
    exact List.mergeSort_perm members _
  · intro part hpart
    obtain ⟨family, _, hfamily⟩ := List.mem_flatMap.mp hpart
    exact (familyParts_spec family.2).2 part hfamily

/-- Every member is read into one part. -/
theorem partsOf_perm (files : List ArtifactFile) :
    ((partsOf files).flatMap Part.members).Perm files := by
  rw [partsOf, List.flatMap_assoc]
  refine (List.Perm.flatMap_left _ fun entry _ => ?_).trans
    (groupByDirectory_perm .empty files)
  rw [directoryParts, List.flatMap_map]
  simp only [List.flatMap_id']
  exact (partitionMembers_spec entry.2).1

theorem partsOf_disjointed {files : List ArtifactFile} {part : Part}
    (h : part ∈ partsOf files) : Disjointed part.members := by
  obtain ⟨entry, _, hpart⟩ := List.mem_flatMap.mp h
  obtain ⟨members, hmembers, rfl⟩ := List.mem_map.mp hpart
  exact (partitionMembers_spec entry.2).2 members hmembers

/-! A part's component. -/

theorem readTensors_other {dtype key : Text}
    {maps : OrdMap Text (List UInt64) × OrdMap Text Text}
    {tensors : List InventoryTensor}
    (h : key ∉ tensors.map InventoryTensor.name) :
    (readTensors dtype maps tensors).1.get? key = maps.1.get? key ∧
      (readTensors dtype maps tensors).2.get? key = maps.2.get? key := by
  induction tensors generalizing maps with
  | nil => exact ⟨rfl, rfl⟩
  | cons tensor tensors ih =>
      rw [List.map_cons, List.mem_cons, not_or] at h
      obtain ⟨hshapes, hdtypes⟩ := @ih (maps.1.insert tensor.name tensor.shape,
        if tensor.dtype ≠ dtype then maps.2.insert tensor.name tensor.dtype
        else maps.2) h.2
      refine ⟨hshapes.trans ?_, hdtypes.trans ?_⟩
      · rw [OrdMap.get?_insert, if_neg h.1]
      · split
        · rw [OrdMap.get?_insert, if_neg h.1]
        · rfl

theorem readTensors_get? {dtype : Text}
    {maps : OrdMap Text (List UInt64) × OrdMap Text Text}
    {tensors : List InventoryTensor}
    (hnodup : (tensors.map InventoryTensor.name).Nodup)
    {tensor : InventoryTensor} (h : tensor ∈ tensors) :
    (readTensors dtype maps tensors).1.get? tensor.name =
        some tensor.shape ∧
      (readTensors dtype maps tensors).2.get? tensor.name =
        if tensor.dtype ≠ dtype then some tensor.dtype
        else maps.2.get? tensor.name := by
  induction tensors generalizing maps with
  | nil => cases h
  | cons head tensors ih =>
      rw [List.map_cons, List.nodup_cons] at hnodup
      unfold readTensors
      rcases List.mem_cons.mp h with rfl | h
      · obtain ⟨hshapes, hdtypes⟩ := @readTensors_other dtype tensor.name
          (maps.1.insert tensor.name tensor.shape,
            if tensor.dtype ≠ dtype then maps.2.insert tensor.name tensor.dtype
            else maps.2) tensors hnodup.1
        refine ⟨hshapes.trans ?_, hdtypes.trans ?_⟩
        · rw [OrdMap.get?_insert, if_pos rfl]
        · split
          · rw [OrdMap.get?_insert, if_pos rfl]
          · rfl
      · obtain ⟨hshapes, hdtypes⟩ := @ih (maps.1.insert head.name head.shape,
          if head.dtype ≠ dtype then maps.2.insert head.name head.dtype
          else maps.2) hnodup.2 h
        refine ⟨hshapes, hdtypes.trans ?_⟩
        have hne : tensor.name ≠ head.name := fun heq =>
          hnodup.1 (heq ▸ List.mem_map_of_mem h)
        split
        · rfl
        · split
          · rw [OrdMap.get?_insert, if_neg hne]
          · rfl

theorem Disjointed.names_nodup {members : List ArtifactFile}
    (h : Disjointed members) :
    ((members.flatMap ArtifactFile.tensors).map
      InventoryTensor.name).Nodup := by
  rw [List.map_flatMap]
  exact List.nodup_flatMap.mpr ⟨fun member _ => member.names_nodup, h⟩

section

variable {part : Part} {dtype : Text} {file : ArtifactFile}
  {tensor : InventoryTensor}

/-- A component holds each tensor of its members at that tensor's shape. -/
theorem Part.component_get? (hpart : Disjointed part.members)
    (hfile : file ∈ part.members) (htensor : tensor ∈ file.tensors) :
    (part.component dtype).tensors.get? tensor.name = some tensor.shape :=
  (readTensors_get? hpart.names_nodup
    (List.mem_flatMap.mpr ⟨file, hfile, htensor⟩)).1

/-- The reference element type of a key is its tensor's. -/
theorem Part.reference_eq {topology : Topology}
    (hdtype : topology.dtype = dtype) (hpart : Disjointed part.members)
    (hfile : file ∈ part.members) (htensor : tensor ∈ file.tensors) :
    referenceDtype topology (part.component dtype) tensor.name =
      tensor.dtype := by
  have hisland := (@readTensors_get? dtype (.empty, .empty) _
    hpart.names_nodup tensor (List.mem_flatMap.mpr ⟨file, hfile, htensor⟩)).2
  rw [OrdMap.get?_empty] at hisland
  rw [referenceDtype, Part.component, hisland, hdtype]
  split
  · rfl
  · rename_i hsame
    exact (not_not.mp hsame).symm

/-- And it holds nothing else. -/
theorem Part.component_key {key : Text} {shape : List UInt64}
    (h : (part.component dtype).tensors.get? key = some shape) :
    ∃ file ∈ part.members, key ∈ file.names := by
  by_contra hnone
  have hkey : key ∉ (part.members.flatMap ArtifactFile.tensors).map
      InventoryTensor.name := by
    rw [List.map_flatMap]
    intro hmem
    exact hnone (List.mem_flatMap.mp hmem)
  have hother := (@readTensors_other dtype key (.empty, .empty) _ hkey).1
  rw [Part.component, hother, OrdMap.get?_empty] at h
  cases h

end

/-! The topology. -/

/-- The parts in the order of their names. -/
def sortedParts (files : List ArtifactFile) : List Part :=
  (partsOf files).mergeSort fun left right => decide (left.name ≤ right.name)

theorem mem_sortedParts {files : List ArtifactFile} {part : Part} :
    part ∈ sortedParts files ↔ part ∈ partsOf files :=
  (List.mergeSort_perm _ _).mem_iff

theorem sortedParts_perm (files : List ArtifactFile) :
    ((sortedParts files).flatMap Part.members).Perm files :=
  ((List.mergeSort_perm _ _).flatMap_right _).trans (partsOf_perm files)

theorem byName_parts (dtype : Text) (files : List ArtifactFile) :
    byName ((partsOf files).map (Part.component dtype)) =
      (sortedParts files).map (Part.component dtype) :=
  (List.map_mergeSort (f := Part.component dtype) fun _ _ _ _ => rfl).symm

theorem checkNames_eq_ok {handle : Handle} {seen : List Text}
    {components : List TopologyComponent} {u : Unit} :
    indexNames handle seen components = .ok u ↔
      (components.map TopologyComponent.name).Nodup ∧
        ∀ component ∈ components, component.name ∉ seen := by
  induction components generalizing seen with
  | nil => simp [indexNames]
  | cons component components ih =>
      simp only [indexNames, except_bind_eq_ok, ensure_eq_ok, ih,
        List.map_cons, List.nodup_cons, List.mem_cons, not_or,
        forall_eq_or_imp, List.mem_map, not_exists, not_and]
      constructor
      · rintro ⟨_, hfresh, hnodup, hseen⟩
        exact ⟨⟨fun other hother => (hseen other hother).1, hnodup⟩, hfresh,
          fun other hother => (hseen other hother).2⟩
      · rintro ⟨⟨hne, hnodup⟩, hfresh, hseen⟩
        exact ⟨(), hfresh, hnodup,
          fun other hother => ⟨hne other hother, hseen other hother⟩⟩

/-- An extracted topology is the members' parts, no two of one name. -/
theorem topologyFromHeaders_ok {name : Text} {version : UInt32}
    {files : List ArtifactFile} {topology : Topology}
    (h : topologyFromHeaders name version files = .ok topology) :
    topology.components =
        (sortedParts files).map (Part.component topology.dtype) ∧
      ((sortedParts files).map Part.name).Pairwise (· < ·) := by
  unfold topologyFromHeaders at h
  cases hhandle : namedHandle name version with
  | error fault =>
      rw [hhandle] at h
      cases h
  | ok handle =>
      simp only [hhandle, except_bind_eq_ok] at h
      obtain ⟨_, hnames, h⟩ := h
      cases h
      rw [byName_parts] at hnames ⊢
      refine ⟨rfl, ?_⟩
      have hnodup := (checkNames_eq_ok.mp hnames).1
      rw [List.map_map] at hnodup
      have hsorted : ((sortedParts files).map Part.name).Pairwise (· ≤ ·) := by
        rw [List.pairwise_map]
        refine (List.pairwise_mergeSort ?_ ?_ (partsOf files)).imp
          fun h => of_decide_eq_true h
        · intro a b c hab hbc
          exact decide_eq_true
            ((of_decide_eq_true hab).trans (of_decide_eq_true hbc))
        · intro a b
          simpa using le_total a.name b.name
      exact hsorted.imp₂ (fun _ _ hle hne => lt_of_le_of_ne hle hne) hnodup

end TensorFS.Go
