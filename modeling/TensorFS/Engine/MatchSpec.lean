import TensorFS.Engine.MatchLayout

namespace TensorFS.Go

open Data

/-! What a match means: an assignment of the members to the components. -/

/-- The component declares every tensor of the member, at its shape and with
its dtype. -/
def Declares (component : LayoutComponent) (file : ArtifactFile) : Prop :=
  ∀ tensor ∈ file.tensors, ∃ entry,
    component.tensors.get? tensor.name = some entry ∧
      entry.shape = tensor.shape ∧ tensor.dtype ∈ entry.dtypes

abbrev Assigned := List (ArtifactFile × Nat)

/-- No key of a component is carried by two of its members. -/
def NoneTwice (pairs : Assigned) : Prop :=
  pairs.Pairwise fun left right =>
    left.2 = right.2 → List.Disjoint left.1.names right.1.names

structure Fits (layout : Layout) (pairs : Assigned) : Prop where
  declared : ∀ pair ∈ pairs, ∃ component,
    layout.components[pair.2]? = some component ∧ Declares component pair.1
  noneTwice : NoneTwice pairs
  carried : ∀ index component, layout.components[index]? = some component →
    ∀ key entry, component.tensors.get? key = some entry →
      entry.optional = false →
        ∃ pair ∈ pairs, pair.2 = index ∧ key ∈ pair.1.names

/-- The members can be assigned to components that declare them, disjointly and
completely. -/
def HasAssignment (layout : Layout) (files : List ArtifactFile) : Prop :=
  ∃ pairs : Assigned, pairs.map Prod.fst = files ∧ Fits layout pairs

theorem NoneTwice.perm {left right : Assigned} (h : NoneTwice left)
    (hperm : left.Perm right) : NoneTwice right := by
  refine List.Pairwise.perm h hperm ?_
  intro a b hab heq
  exact (hab heq.symm).symm

theorem Fits.perm {layout : Layout} {left right : Assigned}
    (h : Fits layout left) (hperm : left.Perm right) : Fits layout right where
  declared pair hpair := h.declared pair (hperm.mem_iff.mpr hpair)
  noneTwice := h.noneTwice.perm hperm
  carried index component hcomponent key entry hentry hoptional := by
    obtain ⟨pair, hpair, hcarried⟩ :=
      h.carried index component hcomponent key entry hentry hoptional
    exact ⟨pair, hperm.mem_iff.mp hpair, hcarried⟩

theorem HasAssignment.perm {layout : Layout}
    {files others : List ArtifactFile} (h : HasAssignment layout files)
    (hperm : files.Perm others) : HasAssignment layout others := by
  obtain ⟨pairs, rfl, hfits⟩ := h
  have hcomp : Relation.Comp (fun a b => a = List.map Prod.fst b)
      List.Perm others pairs := by
    rw [List.eq_map_comp_perm]
    exact hperm.symm
  obtain ⟨shuffled, rfl, hshuffled⟩ := hcomp
  exact ⟨shuffled, rfl, hfits.perm hshuffled.symm⟩

/-! Candidates. -/

theorem acceptTensors_eq_ok {component : LayoutComponent} {path : Text}
    {matched : Nat} {tensors : List InventoryTensor} {u : Unit} :
    acceptTensors component path matched tensors = .ok u ↔
      ∀ tensor ∈ tensors, ∃ entry,
        component.tensors.get? tensor.name = some entry ∧
          entry.shape = tensor.shape ∧ tensor.dtype ∈ entry.dtypes := by
  induction tensors generalizing matched with
  | nil => simp [acceptTensors]
  | cons tensor tensors ih =>
      unfold acceptTensors
      cases hget : component.tensors.get? tensor.name with
      | none => simp [hget]
      | some entry =>
          by_cases hshape : entry.shape = tensor.shape
          · by_cases hdtype : tensor.dtype ∈ entry.dtypes
            · simp [hget, hshape, hdtype, LayoutTensor.accepts, ih]
            · simp [hget, hshape, hdtype, LayoutTensor.accepts]
          · simp [hget, hshape]

theorem accepted_iff {component : LayoutComponent} {file : ArtifactFile} :
    accepted component file = true ↔ Declares component file := by
  unfold accepted Declares
  rw [← @acceptTensors_eq_ok component file.path 0 file.tensors ()]
  unfold componentAccepts
  cases acceptTensors component file.path 0 file.tensors <;> simp

theorem mem_pendingOf {layout : Layout} {file : ArtifactFile} {index : Nat} :
    index ∈ pendingOf layout file ↔ ∃ component,
      layout.components[index]? = some component ∧
        Declares component file := by
  unfold pendingOf
  rw [List.mem_filter, List.mem_range]
  constructor
  · rintro ⟨hindex, hany⟩
    rw [List.getElem?_eq_getElem hindex] at hany
    exact ⟨layout.components[index], List.getElem?_eq_getElem hindex,
      accepted_iff.mp hany⟩
  · rintro ⟨component, hcomponent, hdeclares⟩
    refine ⟨(List.getElem?_eq_some_iff.mp hcomponent).1, ?_⟩
    rw [hcomponent]
    exact accepted_iff.mpr hdeclares

theorem bestCandidate_mem {layout : Layout} {covered : Nat → List Text}
    {file : ArtifactFile} {best : Option (Nat × Nat)} {indexes : List Nat}
    {found : Nat × Nat}
    (h : bestCandidate layout covered file best indexes = some found) :
    best = some found ∨ found.1 ∈ indexes := by
  induction indexes generalizing best with
  | nil => exact .inl h
  | cons index indexes ih =>
      unfold bestCandidate at h
      simp only at h
      split at h
      · rcases ih h with hbest | hmem
        · cases hbest
          exact .inr List.mem_cons_self
        · exact .inr (List.mem_cons_of_mem _ hmem)
      · rcases ih h with hbest | hmem
        · exact .inl hbest
        · exact .inr (List.mem_cons_of_mem _ hmem)

theorem bestCandidate_isSome {layout : Layout} {covered : Nat → List Text}
    {file : ArtifactFile} {best : Option (Nat × Nat)} {indexes : List Nat}
    (h : best ≠ none ∨ indexes ≠ []) :
    bestCandidate layout covered file best indexes ≠ none := by
  induction indexes generalizing best with
  | nil =>
      rcases h with hbest | hnil
      · exact hbest
      · exact absurd rfl hnil
  | cons index indexes ih =>
      unfold bestCandidate
      simp only
      split
      · exact ih (.inl (by simp))
      · rename_i hfound
        refine ih (.inl ?_)
        rintro rfl
        simp at hfound

theorem pick_mem {layout : Layout} {covered : Nat → List Text}
    {file : ArtifactFile} (h : pendingOf layout file ≠ []) :
    pick layout covered file ∈ pendingOf layout file := by
  unfold pick
  cases hbest : bestCandidate layout covered file none
      (pendingOf layout file) with
  | none => exact absurd hbest (bestCandidate_isSome (.inr h))
  | some found =>
      rcases bestCandidate_mem hbest with hnone | hmem
      · cases hnone
      · exact hmem

theorem pick_congr {layout : Layout} {covered covered' : Nat → List Text}
    {file : ArtifactFile}
    (h : ∀ index key, key ∈ covered index ↔ key ∈ covered' index) :
    pick layout covered file = pick layout covered' file := by
  have hscore : score layout covered file = score layout covered' file := by
    funext index
    unfold score
    simp only [h]
  have hbest : ∀ best indexes, bestCandidate layout covered file best indexes =
      bestCandidate layout covered' file best indexes := by
    intro best indexes
    induction indexes generalizing best with
    | nil => rfl
    | cons index indexes ih =>
        unfold bestCandidate
        simp only [hscore, ih]
  unfold pick
  rw [hbest]

theorem bestCandidate_first {layout : Layout} {covered : Nat → List Text}
    {file : ArtifactFile} {best found : Nat × Nat} {indexes : List Nat}
    (hindexes : indexes.Pairwise (· < ·))
    (h : bestCandidate layout covered file (some best) indexes = some found) :
    (found = best ∧
      ∀ index ∈ indexes, score layout covered file index ≤ best.2) ∨
    (found.1 ∈ indexes ∧ found.2 = score layout covered file found.1 ∧
      best.2 < found.2 ∧
      ∀ index ∈ indexes, score layout covered file index ≤ found.2 ∧
        (index < found.1 → score layout covered file index < found.2)) := by
  induction indexes generalizing best with
  | nil =>
      cases h
      exact .inl ⟨rfl, fun _ hmem => by cases hmem⟩
  | cons index indexes ih =>
      obtain ⟨hindex, hindexes⟩ := List.pairwise_cons.mp hindexes
      unfold bestCandidate at h
      simp only [Option.all_some, decide_eq_true_eq] at h
      split_ifs at h with hbetter
      · rcases ih hindexes h with ⟨rfl, hrest⟩ | ⟨hmem, hscore, hgt, hrest⟩
        · refine .inr ⟨List.mem_cons_self, rfl, hbetter, fun other hother => ?_⟩
          rcases List.mem_cons.mp hother with rfl | hother
          · exact ⟨le_refl _, fun hlt => absurd hlt (lt_irrefl _)⟩
          · exact ⟨hrest other hother,
              fun hlt => absurd hlt (hindex other hother).asymm⟩
        · refine .inr ⟨List.mem_cons_of_mem _ hmem, hscore,
            hbetter.trans hgt, fun other hother => ?_⟩
          rcases List.mem_cons.mp hother with rfl | hother
          · exact ⟨hgt.le, fun _ => hgt⟩
          · exact hrest other hother
      · rw [not_lt] at hbetter
        rcases ih hindexes h with ⟨rfl, hrest⟩ | ⟨hmem, hscore, hgt, hrest⟩
        · refine .inl ⟨rfl, fun other hother => ?_⟩
          rcases List.mem_cons.mp hother with rfl | hother
          · exact hbetter
          · exact hrest other hother
        · refine .inr ⟨List.mem_cons_of_mem _ hmem, hscore, hgt,
            fun other hother => ?_⟩
          rcases List.mem_cons.mp hother with rfl | hother
          · exact ⟨(hbetter.trans_lt hgt).le, fun _ => hbetter.trans_lt hgt⟩
          · exact hrest other hother

/-- The candidate outscores those before it and is not outscored by those
behind it. -/
def Wins (layout : Layout) (covered : Nat → List Text) (file : ArtifactFile)
    (index : Nat) : Prop :=
  ∀ other ∈ pendingOf layout file,
    (other < index →
      score layout covered file other < score layout covered file index) ∧
    (index < other →
      score layout covered file other ≤ score layout covered file index)

theorem pick_wins {layout : Layout} {covered : Nat → List Text}
    {file : ArtifactFile} (h : pendingOf layout file ≠ []) :
    Wins layout covered file (pick layout covered file) := by
  have hsorted : (pendingOf layout file).Pairwise (· < ·) :=
    List.pairwise_lt_range.filter _
  unfold pick
  cases hpending : pendingOf layout file with
  | nil => exact absurd hpending h
  | cons index indexes =>
      rw [hpending] at hsorted
      obtain ⟨hindex, hindexes⟩ := List.pairwise_cons.mp hsorted
      have hbest : bestCandidate layout covered file none (index :: indexes) =
          bestCandidate layout covered file
            (some (index, score layout covered file index)) indexes := by
        simp [bestCandidate]
      rw [hbest]
      cases hfound : bestCandidate layout covered file
          (some (index, score layout covered file index)) indexes with
      | none => exact absurd hfound (bestCandidate_isSome (.inl (by simp)))
      | some found =>
          intro other hother
          rw [hpending] at hother
          rw [Option.map_some, Option.getD_some]
          rcases bestCandidate_first hindexes hfound with
            ⟨rfl, hrest⟩ | ⟨hmem, hscore, hgt, hrest⟩
          · rcases List.mem_cons.mp hother with rfl | hother
            · exact ⟨fun hlt => absurd hlt (lt_irrefl _), fun _ => le_refl _⟩
            · exact ⟨fun hlt => absurd hlt (hindex other hother).asymm,
                fun _ => hrest other hother⟩
          · rw [← hscore]
            rcases List.mem_cons.mp hother with rfl | hother
            · exact ⟨fun _ => hgt, fun _ => hgt.le⟩
            · exact ⟨(hrest other hother).2, fun _ => (hrest other hother).1⟩

/-- The engine's pick is the one candidate that wins. -/
theorem pick_eq_iff {layout : Layout} {covered : Nat → List Text}
    {file : ArtifactFile} {index : Nat} (h : index ∈ pendingOf layout file) :
    pick layout covered file = index ↔ Wins layout covered file index := by
  have hne := List.ne_nil_of_mem h
  constructor
  · rintro rfl
    exact pick_wins hne
  · intro hwins
    have hpick := @pick_wins layout covered file hne index h
    have hindex := hwins _ (@pick_mem layout covered file hne)
    rcases lt_trichotomy (pick layout covered file) index with hlt | heq | hgt
    · exact absurd (hindex.1 hlt) (hpick.2 hlt).not_gt
    · exact heq
    · exact absurd (hpick.1 hgt) (hindex.2 hgt).not_gt

/-! Assigning members one by one. -/

/-- The keys the assigned members bring to a component. -/
def carriedBy (pairs : Assigned) (index : Nat) : List Text :=
  pairs.flatMap fun pair => if pair.2 = index then pair.1.names else []

theorem mem_carriedBy {pairs : Assigned} {index : Nat} {key : Text} :
    key ∈ carriedBy pairs index ↔
      ∃ pair ∈ pairs, pair.2 = index ∧ key ∈ pair.1.names := by
  unfold carriedBy
  rw [List.mem_flatMap]
  refine exists_congr fun pair => and_congr_right fun _ => ?_
  split
  · rename_i heq
    simp [heq]
  · rename_i hne
    simp [hne]

/-- The progress covers exactly what the assigned members carry. -/
def Tracks (progress : Progress) (pairs : Assigned) : Prop :=
  ∀ index key, key ∈ progress.covered index ↔ key ∈ carriedBy pairs index

theorem Tracks.start : Tracks .start [] := by
  intro index key
  simp [Progress.start, carriedBy]

theorem coverTensors_eq_ok {layout : Layout} {path : Text} {index : Nat}
    {progress : Progress} {tensors : List InventoryTensor}
    (hnodup : (tensors.map InventoryTensor.name).Nodup) :
    ((∃ result, coverTensors layout path index progress tensors =
        .ok result) ↔
      ∀ tensor ∈ tensors, tensor.name ∉ progress.covered index) ∧
    ∀ result, coverTensors layout path index progress tensors = .ok result →
      ∀ other key, key ∈ result.covered other ↔
        key ∈ progress.covered other ∨
          (other = index ∧ key ∈ tensors.map InventoryTensor.name) := by
  induction tensors generalizing progress with
  | nil =>
      refine ⟨by simp [coverTensors], ?_⟩
      intro result hresult
      cases hresult
      simp
  | cons tensor tensors ih =>
      obtain ⟨hfresh, hrest⟩ := List.nodup_cons.mp hnodup
      unfold coverTensors
      by_cases hcovered : tensor.name ∈ progress.covered index
      · rw [if_pos hcovered]
        refine ⟨?_, fun result hresult => by cases hresult⟩
        constructor
        · rintro ⟨result, hresult⟩
          cases hresult
        · exact fun hall => absurd hcovered (hall tensor List.mem_cons_self)
      · rw [if_neg hcovered]
        have hstep := @ih { progress with
            covered := Function.update progress.covered index
              (tensor.name :: progress.covered index),
            matched := progress.matched + 1 } hrest
        constructor
        · rw [hstep.1]
          simp only [Function.update_self, List.mem_cons, not_or,
            forall_eq_or_imp, hcovered, not_false_eq_true, true_and]
          constructor
          · exact fun hall other hother => (hall other hother).2
          · intro hall other hother
            refine ⟨?_, hall other hother⟩
            intro heq
            exact hfresh (heq ▸ List.mem_map_of_mem hother)
        · intro result hresult other key
          rw [hstep.2 result hresult other key]
          by_cases hother : other = index
          · subst hother
            simp only [Function.update_self, List.mem_cons, true_and,
              List.map_cons]
            tauto
          · simp [hother]

theorem assign_eq_ok {layout : Layout} {progress : Progress}
    {pairs : Assigned} {file : ArtifactFile} {index : Nat}
    (htracks : Tracks progress pairs) :
    ((∃ result, assign layout progress file index = .ok result) ↔
      ∀ key ∈ file.names, key ∉ carriedBy pairs index) ∧
    ∀ result, assign layout progress file index = .ok result →
      Tracks result (pairs ++ [(file, index)]) := by
  have hcover := @coverTensors_eq_ok layout file.path index progress
    file.tensors file.names_nodup
  unfold assign
  constructor
  · simp only [except_bind_eq_ok, Except.ok.injEq, exists_and_left,
      exists_comm]
    constructor
    · rintro ⟨middle, hmiddle, _⟩ key hkey
      obtain ⟨tensor, htensor, rfl⟩ := List.mem_map.mp hkey
      rw [← htracks index tensor.name]
      exact hcover.1.mp ⟨middle, hmiddle⟩ tensor htensor
    · intro hall
      obtain ⟨middle, hmiddle⟩ := hcover.1.mpr fun tensor htensor => by
        rw [htracks index tensor.name]
        exact hall _ (List.mem_map_of_mem htensor)
      exact ⟨middle, hmiddle, _, rfl⟩
  · intro result hresult other key
    obtain ⟨middle, hmiddle, hend⟩ := except_bind_eq_ok.mp hresult
    cases hend
    have hkeys := hcover.2 middle hmiddle other key
    rw [hkeys, htracks other key, mem_carriedBy, mem_carriedBy]
    simp only [List.mem_append, List.mem_singleton]
    constructor
    · rintro (⟨pair, hpair, hcarried⟩ | ⟨rfl, hmem⟩)
      · exact ⟨pair, .inl hpair, hcarried⟩
      · exact ⟨(file, other), .inr rfl, rfl, hmem⟩
    · rintro ⟨pair, hpair | rfl, hindex, hmem⟩
      · exact .inl ⟨pair, hpair, hindex, hmem⟩
      · exact .inr ⟨hindex.symm, hmem⟩

theorem noneTwice_snoc {pairs : Assigned} {file : ArtifactFile}
    {index : Nat} :
    NoneTwice (pairs ++ [(file, index)]) ↔
      NoneTwice pairs ∧ ∀ key ∈ file.names, key ∉ carriedBy pairs index := by
  unfold NoneTwice
  rw [List.pairwise_append]
  simp only [List.pairwise_singleton, true_and, List.mem_singleton,
    forall_eq]
  refine and_congr_right fun _ => ?_
  constructor
  · intro hall key hkey hcarried
    obtain ⟨pair, hpair, hindex, hmem⟩ := mem_carriedBy.mp hcarried
    exact hall pair hpair hindex hmem hkey
  · intro hall pair hpair hindex key hmem hkey
    exact hall key hkey (mem_carriedBy.mpr ⟨pair, hpair, hindex, hmem⟩)

/-- The members sent where `choose` says, each seeing the ones before it. -/
def extendBy (choose : Assigned → ArtifactFile → Nat) :
    Assigned → List ArtifactFile → Assigned
  | chosen, [] => chosen
  | chosen, file :: files =>
      extendBy choose (chosen ++ [(file, choose chosen file)]) files

theorem extendBy_append (choose : Assigned → ArtifactFile → Nat)
    (chosen : Assigned) (files : List ArtifactFile) :
    ∃ tail, extendBy choose chosen files = chosen ++ tail ∧
      tail.map Prod.fst = files := by
  induction files generalizing chosen with
  | nil => exact ⟨[], by simp [extendBy], rfl⟩
  | cons file files ih =>
      obtain ⟨tail, htail, hfiles⟩ := ih (chosen ++ [(file, choose chosen file)])
      refine ⟨(file, choose chosen file) :: tail, ?_, by simp [hfiles]⟩
      rw [extendBy, htail, List.append_assoc]
      rfl

theorem NoneTwice.of_extendBy {choose : Assigned → ArtifactFile → Nat}
    {chosen : Assigned} {files : List ArtifactFile}
    (h : NoneTwice (extendBy choose chosen files)) : NoneTwice chosen := by
  obtain ⟨tail, htail, _⟩ := extendBy_append choose chosen files
  rw [htail] at h
  exact (List.pairwise_append.mp h).1

/-- A loop that assigns each member by its own choice succeeds exactly when the
members it sends to one component stay disjoint. -/
theorem assignLoop_eq_ok {layout : Layout}
    {loop : Progress → List ArtifactFile → Except Refusal Progress}
    {choice : Progress → ArtifactFile → Nat}
    {choose : Assigned → ArtifactFile → Nat}
    (hnil : ∀ progress, loop progress [] = .ok progress)
    (hcons : ∀ progress file files, loop progress (file :: files) =
      assign layout progress file (choice progress file) >>=
        fun progress => loop progress files)
    (hchoice : ∀ progress pairs file, Tracks progress pairs →
      choice progress file = choose pairs file)
    {progress : Progress} {pairs : Assigned} {files : List ArtifactFile}
    (htracks : Tracks progress pairs) (hpairs : NoneTwice pairs) :
    ((∃ result, loop progress files = .ok result) ↔
      NoneTwice (extendBy choose pairs files)) ∧
    ∀ result, loop progress files = .ok result →
      Tracks result (extendBy choose pairs files) := by
  induction files generalizing progress pairs with
  | nil =>
      rw [hnil]
      refine ⟨⟨fun _ => hpairs, fun _ => ⟨_, rfl⟩⟩, ?_⟩
      intro result hresult
      cases hresult
      exact htracks
  | cons file files ih =>
      have hassign := @assign_eq_ok layout progress pairs file
        (choice progress file) htracks
      rw [hchoice progress pairs file htracks] at hassign
      rw [hcons, hchoice progress pairs file htracks, extendBy]
      constructor
      · constructor
        · rintro ⟨result, hresult⟩
          obtain ⟨middle, hmiddle, htail⟩ := except_bind_eq_ok.mp hresult
          have hfree := hassign.1.mp ⟨middle, hmiddle⟩
          exact (ih (hassign.2 middle hmiddle)
            (noneTwice_snoc.mpr ⟨hpairs, hfree⟩)).1.mp ⟨result, htail⟩
        · intro hnone
          have hbegins := hnone.of_extendBy
          obtain ⟨middle, hmiddle⟩ :=
            hassign.1.mpr (noneTwice_snoc.mp hbegins).2
          obtain ⟨result, hresult⟩ :=
            (ih (hassign.2 middle hmiddle) hbegins).1.mpr hnone
          exact ⟨result, except_bind_eq_ok.mpr ⟨middle, hmiddle, hresult⟩⟩
      · intro result hresult
        obtain ⟨middle, hmiddle, htail⟩ := except_bind_eq_ok.mp hresult
        have hfree := hassign.1.mp ⟨middle, hmiddle⟩
        exact (ih (hassign.2 middle hmiddle)
          (noneTwice_snoc.mpr ⟨hpairs, hfree⟩)).2 result htail

/-- The engine's pass over the members that several components accept. -/
def greedy (layout : Layout) : Assigned → List ArtifactFile → Assigned :=
  extendBy fun chosen file => pick layout (carriedBy chosen) file

/-- Its pass over the members that one component accepts. -/
def settle (layout : Layout) : Assigned → List ArtifactFile → Assigned :=
  extendBy fun _ file => (pendingOf layout file).headD 0

theorem assignSettled_eq_ok {layout : Layout} {progress : Progress}
    {pairs : Assigned} {files : List ArtifactFile}
    (htracks : Tracks progress pairs) (hpairs : NoneTwice pairs) :
    ((∃ result, assignSettled layout progress files = .ok result) ↔
      NoneTwice (settle layout pairs files)) ∧
    ∀ result, assignSettled layout progress files = .ok result →
      Tracks result (settle layout pairs files) :=
  @assignLoop_eq_ok layout (assignSettled layout)
    (fun _ file => (pendingOf layout file).headD 0)
    (fun _ file => (pendingOf layout file).headD 0)
    (fun _ => rfl) (fun _ _ _ => rfl) (fun _ _ _ _ => rfl)
    progress pairs files htracks hpairs

theorem assignAmbiguous_eq_ok {layout : Layout} {progress : Progress}
    {pairs : Assigned} {files : List ArtifactFile}
    (htracks : Tracks progress pairs) (hpairs : NoneTwice pairs) :
    ((∃ result, assignAmbiguous layout progress files = .ok result) ↔
      NoneTwice (greedy layout pairs files)) ∧
    ∀ result, assignAmbiguous layout progress files = .ok result →
      Tracks result (greedy layout pairs files) :=
  @assignLoop_eq_ok layout (assignAmbiguous layout)
    (fun progress file => pick layout progress.covered file)
    (fun chosen file => pick layout (carriedBy chosen) file)
    (fun _ => rfl) (fun _ _ _ => rfl)
    (fun _ _ _ htracks => pick_congr htracks)
    progress pairs files htracks hpairs

/-! The final check. -/

theorem missingKey_eq_ok {layout : Layout} {progress : Progress}
    {index : Nat} {component : LayoutComponent}
    {entries : List (Text × LayoutTensor)} {u : Unit} :
    missingKey layout progress index component entries = .ok u ↔
      ∀ key entry, (key, entry) ∈ entries → entry.optional = false →
        key ∈ progress.covered index := by
  induction entries with
  | nil => simp [missingKey]
  | cons head entries ih =>
      obtain ⟨key, entry⟩ := head
      unfold missingKey
      by_cases hskip : key ∈ progress.covered index ∨ entry.optional = true
      · rw [if_pos hskip, ih]
        constructor
        · intro hall other found hmem hoptional
          rcases List.mem_cons.mp hmem with heq | hmem
          · cases heq
            rcases hskip with hcovered | htrue
            · exact hcovered
            · rw [hoptional] at htrue
              cases htrue
          · exact hall other found hmem hoptional
        · intro hall other found hmem hoptional
          exact hall other found (List.mem_cons_of_mem _ hmem) hoptional
      · rw [if_neg hskip]
        obtain ⟨hcovered, hoptional⟩ := not_or.mp hskip
        constructor
        · intro h
          cases h
        · intro hall
          exact absurd (hall key entry List.mem_cons_self
            (by simpa using hoptional)) hcovered

theorem checkComplete_eq_ok {layout : Layout} {progress : Progress}
    {start : Nat} {components : List LayoutComponent} {u : Unit} :
    checkComplete layout progress start components = .ok u ↔
      ∀ index component, components[index]? = some component →
        ∀ key entry, component.tensors.get? key = some entry →
          entry.optional = false → key ∈ progress.covered (start + index) := by
  induction components generalizing start with
  | nil => simp [checkComplete]
  | cons head components ih =>
      simp only [checkComplete, except_bind_eq_ok, exists_unit, ih,
        missingKey_eq_ok]
      constructor
      · rintro ⟨hhead, hrest⟩ index component hcomponent key entry hentry
          hoptional
        cases index with
        | zero =>
            cases hcomponent
            exact hhead key entry (OrdMap.get?_eq_some.mp hentry) hoptional
        | succ index =>
            have hkey := hrest index component hcomponent key entry hentry
              hoptional
            rwa [Nat.add_assoc, Nat.add_comm 1] at hkey
      · intro hall
        refine ⟨fun key entry hentry hoptional => ?_, ?_⟩
        · exact hall 0 head rfl key entry (OrdMap.get?_eq_some.mpr hentry)
            hoptional
        · intro index component hcomponent key entry hentry hoptional
          rw [Nat.add_assoc, Nat.add_comm 1]
          exact hall (index + 1) component hcomponent key entry hentry
            hoptional

theorem checkPending_eq_ok {layout : Layout} {files : List ArtifactFile}
    {u : Unit} :
    checkPending layout files = .ok u ↔
      ∀ file ∈ files, pendingOf layout file ≠ [] := by
  induction files with
  | nil => simp [checkPending]
  | cons file files ih =>
      unfold checkPending
      by_cases hempty : pendingOf layout file = []
      · simp [hempty]
      · simp [hempty, ih]

/-! Success is the fit of the engine's own assignment. -/

def settledOf (layout : Layout) (files : List ArtifactFile) : Assigned :=
  settle layout [] ((byPath files).filter (unambiguous layout))

def ambiguousOf (layout : Layout) (files : List ArtifactFile) :
    List ArtifactFile :=
  (byPath files).filter fun file => !unambiguous layout file

theorem settle_eq (layout : Layout) (chosen : Assigned)
    (files : List ArtifactFile) :
    settle layout chosen files = chosen ++ files.map fun file =>
      (file, (pendingOf layout file).headD 0) := by
  unfold settle
  induction files generalizing chosen with
  | nil => simp [extendBy]
  | cons file files ih =>
      rw [extendBy, ih, List.append_assoc]
      rfl

theorem settledOf_eq (layout : Layout) (files : List ArtifactFile) :
    settledOf layout files = ((byPath files).filter (unambiguous layout)).map
      fun file => (file, (pendingOf layout file).headD 0) := by
  rw [settledOf, settle_eq, List.nil_append]

/-- A member only one component accepts has nowhere else to go. -/
theorem Fits.settled {layout : Layout} {pairs : Assigned}
    {files : List ArtifactFile} (hfits : Fits layout pairs)
    (hfiles : ∀ file ∈ files, unambiguous layout file = true)
    {front : Assigned} (hfront : front ⊆ pairs)
    (hmap : front.map Prod.fst = files) :
    front = files.map fun file =>
      (file, (pendingOf layout file).headD 0) := by
  subst hmap
  rw [List.map_map]
  refine (List.map_id' front).symm.trans (List.map_congr_left ?_)
  intro pair hpair
  have hone := hfiles pair.1 (List.mem_map_of_mem hpair)
  have hmem := mem_pendingOf.mpr (hfits.declared pair (hfront hpair))
  simp only [unambiguous, decide_eq_true_eq] at hone
  obtain ⟨only, honly⟩ := List.length_eq_one_iff.mp hone
  rw [honly] at hmem
  have hindex := List.mem_singleton.mp hmem
  simp only [Function.comp_apply, honly, List.headD_cons, ← hindex]

/-- The order the members are placed in: the ones a single component accepts,
then the others, by path. -/
def inTurn (layout : Layout) (files : List ArtifactFile) : List ArtifactFile :=
  (byPath files).filter (unambiguous layout) ++ ambiguousOf layout files

theorem inTurn_perm (layout : Layout) (files : List ArtifactFile) :
    (inTurn layout files).Perm files :=
  (List.filter_append_perm (unambiguous layout) (byPath files)).trans
    (List.mergeSort_perm files _)

theorem declared_of_pending {layout : Layout}
    {choose : Assigned → ArtifactFile → Nat} {chosen : Assigned}
    {files : List ArtifactFile}
    (hchosen : ∀ pair ∈ chosen, pair.2 ∈ pendingOf layout pair.1)
    (hchoose : ∀ chosen, ∀ file ∈ files,
      choose chosen file ∈ pendingOf layout file) :
    ∀ pair ∈ extendBy choose chosen files,
      pair.2 ∈ pendingOf layout pair.1 := by
  induction files generalizing chosen with
  | nil => exact hchosen
  | cons file files ih =>
      refine ih ?_ fun chosen other hother =>
        hchoose chosen other (List.mem_cons_of_mem _ hother)
      intro pair hpair
      rcases List.mem_append.mp hpair with hpair | hpair
      · exact hchosen pair hpair
      · rw [List.mem_singleton.mp hpair]
        exact hchoose chosen file List.mem_cons_self

theorem matchLayout_ok_iff {layout : Layout} {files : List ArtifactFile} :
    (∃ found, matchLayout files layout = .ok found) ↔
      Fits layout (greedy layout (settledOf layout files)
        (ambiguousOf layout files)) := by
  have hnone : NoneTwice [] := List.Pairwise.nil
  have hsettled := @assignSettled_eq_ok layout .start []
    ((byPath files).filter (unambiguous layout)) Tracks.start hnone
  have hheadD : ∀ {file : ArtifactFile}, pendingOf layout file ≠ [] →
      (pendingOf layout file).headD 0 ∈ pendingOf layout file := by
    intro file hne
    cases hpending : pendingOf layout file with
    | nil => exact absurd hpending hne
    | cons index rest => exact List.mem_cons_self
  constructor
  · rintro ⟨found, hfound⟩
    obtain ⟨_, hpending, hrest⟩ := except_bind_eq_ok.mp hfound
    obtain ⟨middle, hmiddle, hrest⟩ := except_bind_eq_ok.mp hrest
    obtain ⟨last, hlast, hrest⟩ := except_bind_eq_ok.mp hrest
    obtain ⟨_, hcomplete, _⟩ := except_bind_eq_ok.mp hrest
    have hambiguous := @assignAmbiguous_eq_ok layout middle
      (settledOf layout files) (ambiguousOf layout files)
      (hsettled.2 middle hmiddle) (hsettled.1.mp ⟨middle, hmiddle⟩)
    have hcandidates := checkPending_eq_ok.mp hpending
    refine ⟨?_, hambiguous.1.mp ⟨last, hlast⟩, ?_⟩
    · intro pair hpair
      refine mem_pendingOf.mp (declared_of_pending (declared_of_pending
        (by simp) ?_) ?_ pair hpair)
      · intro _ file hfile
        exact hheadD (hcandidates file (List.mem_filter.mp hfile).1)
      · intro _ file hfile
        exact pick_mem (hcandidates file (List.mem_filter.mp hfile).1)
    · intro index component hcomponent key entry hentry hoptional
      have hkey := checkComplete_eq_ok.mp hcomplete index component
        hcomponent key entry hentry hoptional
      rw [Nat.zero_add, hambiguous.2 last hlast index key] at hkey
      exact mem_carriedBy.mp hkey
  · intro hfits
    have hbegins : NoneTwice (settledOf layout files) :=
      hfits.noneTwice.of_extendBy
    obtain ⟨middle, hmiddle⟩ := hsettled.1.mpr hbegins
    have hambiguous := @assignAmbiguous_eq_ok layout middle
      (settledOf layout files) (ambiguousOf layout files)
      (hsettled.2 middle hmiddle) hbegins
    obtain ⟨last, hlast⟩ := hambiguous.1.mpr hfits.noneTwice
    have hpending : checkPending layout (byPath files) = .ok () := by
      rw [checkPending_eq_ok]
      intro file hfile
      obtain ⟨tail, htail, hmap⟩ := extendBy_append
        (fun chosen file => pick layout (carriedBy chosen) file)
        (settledOf layout files) (ambiguousOf layout files)
      have hcarrier : ∃ index, (file, index) ∈ greedy layout
          (settledOf layout files) (ambiguousOf layout files) := by
        rw [greedy, htail]
        by_cases hone : unambiguous layout file = true
        · refine ⟨(pendingOf layout file).headD 0, List.mem_append_left _ ?_⟩
          rw [settledOf, settle_eq, List.nil_append]
          exact List.mem_map.mpr ⟨file, List.mem_filter.mpr ⟨hfile, hone⟩,
            rfl⟩
        · have hmem : file ∈ tail.map Prod.fst := by
            rw [hmap]
            exact List.mem_filter.mpr ⟨hfile, by simpa using hone⟩
          obtain ⟨pair, hpair, rfl⟩ := List.mem_map.mp hmem
          exact ⟨pair.2, List.mem_append_right _ hpair⟩
      obtain ⟨index, hindex⟩ := hcarrier
      exact List.ne_nil_of_mem
        (mem_pendingOf.mpr (hfits.declared _ hindex))
    have hcomplete : checkComplete layout last 0 layout.components =
        .ok () := by
      rw [checkComplete_eq_ok]
      intro index component hcomponent key entry hentry hoptional
      rw [Nat.zero_add, hambiguous.2 last hlast index key]
      exact mem_carriedBy.mpr
        (hfits.carried index component hcomponent key entry hentry hoptional)
    refine ⟨⟨last.assignment, last.matched⟩, ?_⟩
    unfold matchLayout
    simp only
    rw [hpending, except_ok_bind, hmiddle, except_ok_bind]
    unfold ambiguousOf at hlast
    rw [hlast, except_ok_bind, hcomplete, except_ok_bind]

/-! The assignments the score upholds. -/

/-- The point a component gets for the member's directory name. -/
def hint (layout : Layout) (file : ArtifactFile) (index : Nat) : Nat :=
  if directoryHint file.path = componentName layout index then 1 else 0

/-- How many keys of the member a component carries already. -/
def crowding (placed : Assigned) (file : ArtifactFile) (index : Nat) : Nat :=
  file.tensors.countP fun tensor => tensor.name ∈ carriedBy placed index

/-- Another component that declares the member carries some of its keys
already, or is the later of the two; only the directory name weighs against
that, as one key. -/
def Kept (layout : Layout) (placed : Assigned) (file : ArtifactFile)
    (index : Nat) : Prop :=
  ∀ rival component, layout.components[rival]? = some component →
    Declares component file →
      (rival < index → hint layout file rival <
        crowding placed file rival + hint layout file index) ∧
      (index < rival → hint layout file rival ≤
        crowding placed file rival + hint layout file index)

/-- The members can be placed in turn, each of them kept where it is. -/
def HasKeptAssignment (layout : Layout) (files : List ArtifactFile) : Prop :=
  ∃ pairs : Assigned, pairs.map Prod.fst = inTurn layout files ∧
    Fits layout pairs ∧
    ∀ placed file index rest, pairs = placed ++ (file, index) :: rest →
      Kept layout placed file index

/-- What a component covers of a member costs it. -/
theorem score_add_crowding (layout : Layout) (placed : Assigned)
    (file : ArtifactFile) (index : Nat) :
    score layout (carriedBy placed) file index + crowding placed file index =
      file.tensors.length + hint layout file index := by
  have hsplit := List.length_eq_countP_add_countP
    (fun tensor : InventoryTensor =>
      decide (tensor.name ∈ carriedBy placed index)) (l := file.tensors)
  have hfresh : file.tensors.countP
        (fun tensor => decide (tensor.name ∉ carriedBy placed index)) =
      file.tensors.countP (fun tensor =>
        decide (¬ decide (tensor.name ∈ carriedBy placed index) = true)) := by
    refine List.countP_congr fun tensor _ => ?_
    simp
  rw [score, hfresh]
  unfold crowding hint
  omega

/-- A component that is free of the member's keys outscores its rivals exactly
when the member is kept there. -/
theorem wins_iff_kept {layout : Layout} {placed : Assigned}
    {file : ArtifactFile} {index : Nat}
    (hfree : ∀ key ∈ file.names, key ∉ carriedBy placed index) :
    Wins layout (carriedBy placed) file index ↔
      Kept layout placed file index := by
  have hnone : crowding placed file index = 0 := by
    refine List.countP_eq_zero.mpr fun tensor htensor hmem => ?_
    exact hfree _ (List.mem_map_of_mem htensor) (of_decide_eq_true hmem)
  have hindex := score_add_crowding layout placed file index
  constructor
  · intro hwins rival component hcomponent hdeclares
    obtain ⟨hbefore, hbehind⟩ :=
      hwins rival (mem_pendingOf.mpr ⟨component, hcomponent, hdeclares⟩)
    have hrival := score_add_crowding layout placed file rival
    constructor
    · intro hlt
      have := hbefore hlt
      omega
    · intro hlt
      have := hbehind hlt
      omega
  · intro hkept rival hpending
    obtain ⟨component, hcomponent, hdeclares⟩ := mem_pendingOf.mp hpending
    obtain ⟨hbefore, hbehind⟩ := hkept rival component hcomponent hdeclares
    have hrival := score_add_crowding layout placed file rival
    constructor
    · intro hlt
      have := hbefore hlt
      omega
    · intro hlt
      have := hbehind hlt
      omega

/-- A member one component accepts is kept there. -/
theorem kept_of_unambiguous {layout : Layout} {placed : Assigned}
    {file : ArtifactFile} {index : Nat}
    (hone : unambiguous layout file = true)
    (hindex : index ∈ pendingOf layout file) :
    Kept layout placed file index := by
  intro rival component hcomponent hdeclares
  have hrival := mem_pendingOf.mpr ⟨component, hcomponent, hdeclares⟩
  obtain ⟨only, honly⟩ :=
    List.length_eq_one_iff.mp (of_decide_eq_true hone)
  rw [honly, List.mem_singleton] at hindex hrival
  rw [hindex, hrival]
  exact ⟨fun hlt => absurd hlt (lt_irrefl _),
    fun hlt => absurd hlt (lt_irrefl _)⟩

theorem Fits.free {layout : Layout} {placed rest : Assigned}
    {file : ArtifactFile} {index : Nat}
    (h : Fits layout (placed ++ (file, index) :: rest)) :
    ∀ key ∈ file.names, key ∉ carriedBy placed index := by
  have hnone := h.noneTwice
  rw [List.append_cons] at hnone
  exact (noneTwice_snoc.mp (List.pairwise_append.mp hnone).1).2

theorem Fits.pending {layout : Layout} {pairs : Assigned}
    (h : Fits layout pairs) {pair : ArtifactFile × Nat} (hpair : pair ∈ pairs) :
    pair.2 ∈ pendingOf layout pair.1 :=
  mem_pendingOf.mpr (h.declared pair hpair)

/-- Behind any placed members, a fitting assignment that is kept throughout is
the one the scores give, and the other way round. -/
theorem greedy_eq_iff {layout : Layout} {placed tail : Assigned}
    (hfits : Fits layout (placed ++ tail)) :
    greedy layout placed (tail.map Prod.fst) = placed ++ tail ↔
      ∀ front file index rest, tail = front ++ (file, index) :: rest →
        Kept layout (placed ++ front) file index := by
  induction tail generalizing placed with
  | nil =>
      refine ⟨fun _ front file index rest hsplit => ?_, fun _ => ?_⟩
      · simp at hsplit
      · rw [List.append_nil]
        rfl
  | cons pair tail ih =>
      obtain ⟨file, index⟩ := pair
      have hpending : index ∈ pendingOf layout file :=
        hfits.pending (List.mem_append_right _ List.mem_cons_self)
      have hhead : pick layout (carriedBy placed) file = index ↔
          Kept layout placed file index :=
        (pick_eq_iff hpending).trans (wins_iff_kept hfits.free)
      have hnext : placed ++ (file, index) :: tail =
          (placed ++ [(file, index)]) ++ tail := List.append_cons _ _ _
      rw [hnext] at hfits
      have hrest := ih hfits
      rw [greedy, List.map_cons, extendBy]
      constructor
      · intro hgreedy front other place rest hsplit
        obtain ⟨behind, hbehind, _⟩ := extendBy_append
          (fun chosen file => pick layout (carriedBy chosen) file)
          (placed ++ [(file, pick layout (carriedBy placed) file)])
          (tail.map Prod.fst)
        have hpick : pick layout (carriedBy placed) file = index := by
          rw [hbehind, hnext] at hgreedy
          have hsame := List.append_inj_left hgreedy (by simp)
          simpa using hsame
        cases front with
        | nil =>
            cases hsplit
            rw [List.append_nil]
            exact hhead.mp hpick
        | cons first front =>
            cases hsplit
            rw [List.append_cons]
            rw [hpick, hnext] at hgreedy
            exact hrest.mp hgreedy front other place rest rfl
      · intro hkept
        have hpick := hhead.mpr (by
          simpa using hkept [] file index tail rfl)
        rw [hpick, hnext]
        refine hrest.mpr fun front other place rest hsplit => ?_
        rw [List.append_assoc]
        exact hkept ((file, index) :: front) other place rest
          (by rw [hsplit]; rfl)

/-- The engine finds the kept assignment, and no other. -/
theorem fits_greedy_iff {layout : Layout} {files : List ArtifactFile} :
    Fits layout (greedy layout (settledOf layout files)
        (ambiguousOf layout files)) ↔ HasKeptAssignment layout files := by
  have hone : ∀ file ∈ (byPath files).filter (unambiguous layout),
      unambiguous layout file = true :=
    fun file hfile => (List.mem_filter.mp hfile).2
  constructor
  · intro hfits
    obtain ⟨tail, htail, hfiles⟩ := extendBy_append
      (fun chosen file => pick layout (carriedBy chosen) file)
      (settledOf layout files) (ambiguousOf layout files)
    rw [greedy, htail] at hfits
    have hkept := (greedy_eq_iff hfits).mp (by rw [hfiles, greedy, htail])
    refine ⟨settledOf layout files ++ tail, ?_, hfits,
      fun placed file index rest hsplit => ?_⟩
    · rw [List.map_append, hfiles, settledOf_eq, List.map_map]
      exact congrArg (· ++ _) (List.map_id _)
    · rcases List.append_eq_append_iff.mp hsplit with
        ⟨front, rfl, htail⟩ | ⟨back, hfront, hback⟩
      · exact hkept front file index rest htail
      · cases back with
        | nil =>
            rw [List.append_nil] at hfront
            have := hkept [] file index rest hback.symm
            rwa [List.append_nil, hfront] at this
        | cons pair back =>
            cases hback
            have hmem : (file, index) ∈ settledOf layout files := by
              rw [hfront]
              exact List.mem_append_right _ List.mem_cons_self
            refine kept_of_unambiguous ?_
              (hfits.pending (List.mem_append_left _ hmem))
            rw [settledOf_eq] at hmem
            obtain ⟨settled, hsettled, heq⟩ := List.mem_map.mp hmem
            cases heq
            exact hone _ hsettled
  · rintro ⟨pairs, hmap, hfits, hkept⟩
    obtain ⟨front, tail, rfl, hfront, htail⟩ :=
      List.map_eq_append_iff.mp hmap
    have hforced : front = settledOf layout files := by
      rw [settledOf_eq]
      exact hfits.settled hone (List.subset_append_left front tail) hfront
    rw [← htail, ← hforced, (greedy_eq_iff hfits).mpr]
    · exact hfits
    · intro placed file index rest hsplit
      exact hkept _ file index rest (by rw [hsplit, List.append_assoc])

theorem HasKeptAssignment.fits {layout : Layout} {files : List ArtifactFile}
    (h : HasKeptAssignment layout files) : HasAssignment layout files := by
  obtain ⟨pairs, hmap, hfits, _⟩ := h
  exact HasAssignment.perm ⟨pairs, hmap, hfits⟩ (inTurn_perm layout files)

/-- The engine finds a match exactly when there is one, on the members that fit
nowhere or that fit where the scores keep them, and on no others. -/
theorem matchLayout_exact_iff (layout : Layout) (files : List ArtifactFile) :
    ((∃ found, matchLayout files layout = .ok found) ↔
      HasAssignment layout files) ↔
      (HasAssignment layout files → HasKeptAssignment layout files) := by
  rw [matchLayout_ok_iff, fits_greedy_iff]
  exact ⟨Iff.mpr, fun hkept => ⟨HasKeptAssignment.fits, hkept⟩⟩

/-! Two components with one key each, and two members that carry it. -/

namespace TwinComponents

def component (name : Text) : LayoutComponent where
  name := name
  tensors := OrdMap.empty.insert ['w'] ⟨["F16".toList], [4], false⟩

def layout : Layout where
  id := ⟨⟨"pair".toList, 1⟩, ⟨"f16".toList, 1⟩, .zero⟩
  components := [component ['a'], component ['b']]
  transformed := 0

def member (path : String) : ArtifactFile where
  path := path.toList
  tensors := [⟨['w'], "F16".toList, [4], 0⟩]
  names_nodup := by decide

def files (directory : String) : List ArtifactFile :=
  [member (directory ++ "/1"), member (directory ++ "/2")]

theorem declares (name : Text) (path : String) :
    Declares (component name) (member path) := by
  intro tensor htensor
  rw [List.mem_singleton.mp htensor]
  exact ⟨⟨["F16".toList], [4], false⟩, rfl, rfl, by decide⟩

theorem fits (left right : String) :
    Fits layout [(member left, 0), (member right, 1)] where
  declared pair hpair := by
    rcases List.mem_pair.mp hpair with rfl | rfl
    · exact ⟨component ['a'], rfl, declares ['a'] left⟩
    · exact ⟨component ['b'], rfl, declares ['b'] right⟩
  noneTwice := by simp [NoneTwice]
  carried index found hfound key entry hentry _ := by
    have hkey : ∀ name, (component name).tensors.get? key = some entry →
        key = ['w'] := by
      intro name hget
      have hmem := OrdMap.get?_eq_some.mp hget
      rw [component, OrdMap.mem_insert] at hmem
      rcases hmem with heq | hold
      · exact congrArg Prod.fst heq
      · simp at hold
    match index, hfound with
    | 0, hfound =>
        cases hfound
        exact ⟨(member left, 0), by simp, rfl,
          by rw [hkey ['a'] hentry]; exact List.mem_singleton_self _⟩
    | 1, hfound =>
        cases hfound
        exact ⟨(member right, 1), by simp, rfl,
          by rw [hkey ['b'] hentry]; exact List.mem_singleton_self _⟩

end TwinComponents

/-- Both members lie in a directory named after the first component, and the
second is refused as a duplicate although the other component is free; under
another directory name the same members match. -/
theorem matchLayout_misled_by_directory :
    HasAssignment TwinComponents.layout (TwinComponents.files "a") ∧
      matchLayout (TwinComponents.files "a") TwinComponents.layout =
        .error { reason := .duplicate, lane := some TwinComponents.layout.id,
                 member := "a/2".toList, component := ['a'],
                 tensor := ['w'] } ∧
      ∃ found, matchLayout (TwinComponents.files "x") TwinComponents.layout =
        .ok found := by
  have hsorted : ∀ directory ∈ ["a", "x"],
      byPath (TwinComponents.files directory) =
        TwinComponents.files directory := by
    intro directory hdirectory
    refine List.mergeSort_of_pairwise ?_
    rcases List.mem_pair.mp hdirectory with rfl | rfl <;> decide
  refine ⟨⟨_, rfl, TwinComponents.fits "a/1" "a/2"⟩, ?_, ?_⟩
  · unfold matchLayout
    rw [hsorted "a" (by simp)]
    rfl
  · unfold matchLayout
    rw [hsorted "x" (by simp)]
    exact ⟨_, rfl⟩

end TensorFS.Go
