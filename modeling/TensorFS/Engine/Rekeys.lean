import TensorFS.Engine.Morphism

namespace TensorFS.Go

open Data

/-! What a morphism keeps of a component. -/

def SeamPart.takes (part : SeamPart) (key : Text) : Bool :=
  (matchHoles part.key key).isSome

/-- The names a seam fuses some key into. -/
def fusedNames (seam : Seam) (keys : List Text) : List Text :=
  seam.parts.flatMap fun part => keys.filterMap fun key =>
    (matchHoles part.key key).map (renderHoles seam.target)

namespace Morphism

variable (morphism : Morphism)

/-- The seams that act on a component. -/
def seamsOf (component : TopologyComponent) : List Seam :=
  morphism.seams.filter fun seam =>
    ¬ (seam.component ≠ [] ∧ seam.component ≠ component.name)

/-- The instances the seams form, each a fused key and the keys it takes. -/
def instancesOf (component : TopologyComponent) : List (Text × List Text) :=
  (morphism.seamsOf component).flatMap fun seam =>
    (gather seam component.keys).entries

/-- The keys no part of a seam takes. -/
def survivors (component : TopologyComponent) : List Text :=
  component.keys.filter fun key =>
    !((morphism.seamsOf component).flatMap Seam.parts).any fun part =>
      part.takes key

/-- Every key of the source is renamed or taken by one instance once, and every
renamed key and every instance has its own key in the target. -/
structure Lossless (component out : TopologyComponent) : Prop where
  used : component.keys.Perm (morphism.survivors component ++
    (morphism.instancesOf component).flatMap Prod.snd)
  names : out.keys.Perm ((morphism.survivors component).map morphism.rekey ++
    (morphism.instancesOf component).map Prod.fst)
  kept : ∀ key ∈ morphism.survivors component,
    out.tensors.get? (morphism.rekey key) = component.tensors.get? key

/-- The rekey table keeps the survivors apart, no two seams fuse into one name,
and no two parts take one key. -/
structure Separate (component : TopologyComponent) : Prop where
  renamed : ∀ left ∈ morphism.survivors component,
    ∀ right ∈ morphism.survivors component,
      morphism.rekey left = morphism.rekey right → left = right
  fused : (morphism.seamsOf component).Pairwise fun left right =>
    List.Disjoint (fusedNames left component.keys)
      (fusedNames right component.keys)
  taken : ((morphism.seamsOf component).flatMap Seam.parts).Pairwise
    fun left right => ∀ key ∈ component.keys,
      left.takes key = true → right.takes key = false

end Morphism

/-! Gathering. -/

theorem gatherPart_perm (target : Text) (part : SeamPart)
    (instances : OrdMap Text (List Text)) (keys : List Text) :
    ((gatherPart target part instances keys).entries.flatMap Prod.snd).Perm
      (instances.entries.flatMap Prod.snd ++ keys.filter part.takes) := by
  induction keys generalizing instances with
  | nil => rw [gatherPart, List.filter_nil, List.append_nil]
  | cons key keys ih =>
      unfold gatherPart
      cases hholes : matchHoles part.key key with
      | none =>
          have htakes : part.takes key = false := by
            rw [SeamPart.takes, hholes]
            rfl
          rw [List.filter_cons_of_neg (by rw [htakes]; exact Bool.false_ne_true)]
          exact ih instances
      | some holes =>
          have htakes : part.takes key = true := by
            rw [SeamPart.takes, hholes]
            rfl
          rw [List.filter_cons_of_pos htakes,
            List.append_cons (instances.entries.flatMap Prod.snd)]
          exact (ih _).trans
            ((instances.insert_append_perm _ key).append_right _)

theorem gatherPart_names {target : Text} {part : SeamPart}
    {instances : OrdMap Text (List Text)} {keys : List Text} {name : Text} :
    name ∈ (gatherPart target part instances keys).entries.map Prod.fst ↔
      name ∈ instances.entries.map Prod.fst ∨
        name ∈ keys.filterMap fun key =>
          (matchHoles part.key key).map (renderHoles target) := by
  induction keys generalizing instances with
  | nil => simp [gatherPart]
  | cons key keys ih =>
      unfold gatherPart
      cases hholes : matchHoles part.key key with
      | none =>
          rw [List.filterMap_cons_none (by rw [hholes]; rfl)]
          exact ih
      | some holes =>
          rw [List.filterMap_cons_some (by rw [hholes]; rfl), List.mem_cons]
          rw [← or_assoc, or_comm (a := name ∈ instances.entries.map Prod.fst),
            ← OrdMap.mem_keys_insert]
          exact ih

/-- Each part's keys are gathered once for the part. -/
theorem gather_perm (seam : Seam) (keys : List Text) :
    ((gather seam keys).entries.flatMap Prod.snd).Perm
      (seam.parts.flatMap fun part => keys.filter part.takes) := by
  have hgeneral : ∀ (parts : List SeamPart)
      (instances : OrdMap Text (List Text)),
      ((parts.foldl (fun instances part =>
        gatherPart seam.target part instances keys)
        instances).entries.flatMap Prod.snd).Perm
        (instances.entries.flatMap Prod.snd ++
          parts.flatMap fun part => keys.filter part.takes) := by
    intro parts
    induction parts with
    | nil =>
        intro instances
        rw [List.foldl_nil, List.flatMap_nil, List.append_nil]
    | cons part parts ih =>
        intro instances
        rw [List.flatMap_cons, ← List.append_assoc]
        exact (ih _).trans
          ((gatherPart_perm seam.target part instances keys).append_right _)
  exact hgeneral seam.parts .empty

theorem gather_names {seam : Seam} {keys : List Text} {name : Text} :
    name ∈ (gather seam keys).entries.map Prod.fst ↔
      name ∈ fusedNames seam keys := by
  have hgeneral : ∀ (parts : List SeamPart)
      (instances : OrdMap Text (List Text)),
      name ∈ (parts.foldl (fun instances part =>
        gatherPart seam.target part instances keys)
        instances).entries.map Prod.fst ↔
        name ∈ instances.entries.map Prod.fst ∨
          name ∈ parts.flatMap fun part => keys.filterMap fun key =>
            (matchHoles part.key key).map (renderHoles seam.target) := by
    intro parts
    induction parts with
    | nil => simp
    | cons part parts ih =>
        intro instances
        rw [List.foldl_cons, ih, gatherPart_names, List.flatMap_cons,
          List.mem_append, or_assoc]
  rw [gather, hgeneral]
  simp [fusedNames]

/-! Fusing. -/

theorem fuseInstance_ok {handle : Handle} {component : TopologyComponent}
    {seam : Seam} {result out : SeamResult} {target : Text} {keys : List Text}
    (h : fuseInstance handle component seam result target keys = .ok out) :
    ∃ shape, out =
      ⟨keys ++ result.consumed, result.produced.insert target shape⟩ := by
  simp only [fuseInstance, except_bind_eq_ok] at h
  obtain ⟨_, _, fused, _, h⟩ := h
  cases fused with
  | nil => cases h
  | cons rows rest =>
      obtain ⟨_, _, h⟩ := except_bind_eq_ok.mp h
      cases h
      exact ⟨rows :: rest, rfl⟩

/-- What a run of the seams takes and brings, beside what was there. -/
structure Fused (result out : SeamResult) (instances : List (Text × List Text)) :
    Prop where
  consumed : ∀ key, key ∈ out.consumed ↔
    key ∈ instances.flatMap Prod.snd ∨ key ∈ result.consumed
  produced : ∀ name, name ∈ out.produced.entries.map Prod.fst ↔
    name ∈ instances.map Prod.fst ∨
      name ∈ result.produced.entries.map Prod.fst

theorem Fused.refl (result : SeamResult) : Fused result result [] :=
  ⟨by simp, by simp⟩

theorem Fused.trans {result middle out : SeamResult}
    {left right : List (Text × List Text)} (hleft : Fused result middle left)
    (hright : Fused middle out right) : Fused result out (left ++ right) where
  consumed key := by
    rw [hright.consumed, hleft.consumed, List.flatMap_append, List.mem_append]
    tauto
  produced name := by
    rw [hright.produced, hleft.produced, List.map_append, List.mem_append]
    tauto

theorem fuseAll_ok {handle : Handle} {component : TopologyComponent}
    {seam : Seam} {result out : SeamResult}
    {instances : List (Text × List Text)}
    (h : fuseAll handle component seam result instances = .ok out) :
    Fused result out instances := by
  induction instances generalizing result with
  | nil =>
      cases h
      exact .refl _
  | cons pair instances ih =>
      obtain ⟨target, keys⟩ := pair
      obtain ⟨middle, hmiddle, h⟩ := except_bind_eq_ok.mp h
      obtain ⟨shape, rfl⟩ := fuseInstance_ok hmiddle
      refine @Fused.trans _ _ _ [(target, keys)] _ ?_ (ih h)
      exact ⟨fun key => by simp, fun name => by simp [OrdMap.mem_keys_insert]⟩

namespace Morphism

variable {morphism : Morphism} {component : TopologyComponent}

theorem runFrom_ok (hforward : morphism.inverted = false)
    {result out : SeamResult} {seams : List Seam}
    (h : morphism.runFrom component result seams = .ok out) :
    Fused result out ((seams.filter fun seam =>
      ¬ (seam.component ≠ [] ∧ seam.component ≠ component.name)).flatMap
        fun seam => (gather seam component.keys).entries) := by
  induction seams generalizing result with
  | nil =>
      cases h
      exact .refl _
  | cons seam seams ih =>
      unfold runFrom at h
      split_ifs at h with hother hinverted
      · rw [List.filter_cons_of_neg
          (by rw [decide_eq_true_eq]; exact not_not.mpr hother)]
        exact ih h
      · rw [hforward] at hinverted
        cases hinverted
      · rw [List.filter_cons_of_pos
          (by rw [decide_eq_true_eq]; exact hother), List.flatMap_cons]
        obtain ⟨middle, hmiddle, h⟩ := except_bind_eq_ok.mp h
        exact (fuseAll_ok hmiddle).trans (ih h)

/-! Renaming. -/

theorem rekeyed_keys {consumed : List Text}
    {entries : List (Text × List UInt64)} {name : Text} :
    name ∈ (morphism.rekeyed consumed entries).entries.map Prod.fst ↔
      ∃ entry ∈ entries,
        entry.1 ∉ consumed ∧ morphism.rekey entry.1 = name := by
  have hgeneral : ∀ mapped : OrdMap Text (List UInt64),
      name ∈ (entries.foldl (fun mapped entry =>
        if entry.1 ∈ consumed then mapped
        else mapped.insert (morphism.rekey entry.1) entry.2)
        mapped).entries.map Prod.fst ↔
      name ∈ mapped.entries.map Prod.fst ∨ ∃ entry ∈ entries,
        entry.1 ∉ consumed ∧ morphism.rekey entry.1 = name := by
    induction entries with
    | nil => simp
    | cons entry entries ih =>
        intro mapped
        rw [List.foldl_cons, ih]
        by_cases hconsumed : entry.1 ∈ consumed
        · simp [hconsumed]
        · rw [if_neg hconsumed, OrdMap.mem_keys_insert]
          simp only [List.mem_cons, exists_eq_or_imp, hconsumed,
            not_false_eq_true, true_and]
          rw [eq_comm (a := name)]
          tauto
  rw [rekeyed, hgeneral]
  simp

theorem rekeyed_get? {consumed : List Text}
    {entries : List (Text × List UInt64)} {entry : Text × List UInt64}
    (hentry : entry ∈ entries) (hfree : entry.1 ∉ consumed)
    (halone : ∀ other ∈ entries, other.1 ∉ consumed →
      morphism.rekey other.1 = morphism.rekey entry.1 → other = entry) :
    (morphism.rekeyed consumed entries).get? (morphism.rekey entry.1) =
      some entry.2 := by
  have hgeneral : ∀ mapped : OrdMap Text (List UInt64), (entry ∈ entries ∨
      mapped.get? (morphism.rekey entry.1) = some entry.2) →
      (entries.foldl (fun mapped entry => if entry.1 ∈ consumed then mapped
        else mapped.insert (morphism.rekey entry.1) entry.2) mapped).get?
          (morphism.rekey entry.1) = some entry.2 := by
    clear hentry
    induction entries with
    | nil =>
        rintro mapped (hmem | hget)
        · cases hmem
        · exact hget
    | cons head entries ih =>
        intro mapped hstart
        rw [List.foldl_cons]
        refine ih (fun other hother =>
          halone other (List.mem_cons_of_mem _ hother)) _ ?_
        by_cases hhead : head = entry
        · subst hhead
          rw [if_neg hfree, OrdMap.get?_insert, if_pos rfl]
          exact .inr rfl
        · refine hstart.imp (fun hmem => ?_) fun hget => ?_
          · rcases List.mem_cons.mp hmem with heq | hmem
            · exact absurd heq.symm hhead
            · exact hmem
          · split
            · exact hget
            · rename_i hconsumed
              rw [OrdMap.get?_insert, if_neg fun heq => hhead
                (halone head List.mem_cons_self hconsumed heq.symm)]
              exact hget
  exact hgeneral .empty (.inl hentry)

/-! What the seams bring joins what is left. -/

theorem addProduced_ok {mapped tensors out : OrdMap Text (List UInt64)}
    {produced : List (Text × List UInt64)}
    (h : morphism.addProduced mapped tensors produced = .ok out) :
    (∀ entry ∈ produced, mapped.get? entry.1 = none) ∧
    (∀ name, name ∈ out.entries.map Prod.fst ↔
      name ∈ tensors.entries.map Prod.fst ∨ name ∈ produced.map Prod.fst) ∧
    ∀ name, name ∉ produced.map Prod.fst →
      out.get? name = tensors.get? name := by
  induction produced generalizing tensors with
  | nil =>
      cases h
      simp
  | cons entry produced ih =>
      obtain ⟨key, shape⟩ := entry
      simp only [addProduced, except_bind_eq_ok, ensure_eq_ok] at h
      obtain ⟨_, hnone, h⟩ := h
      obtain ⟨hfree, hnames, hget⟩ := ih h
      refine ⟨?_, fun name => ?_, fun name hname => ?_⟩
      · intro other hother
        rcases List.mem_cons.mp hother with rfl | hother
        · exact hnone
        · exact hfree other hother
      · rw [hnames, OrdMap.mem_keys_insert, List.map_cons, List.mem_cons]
        tauto
      · rw [List.map_cons, List.mem_cons, not_or] at hname
        rw [hget name hname.2, OrdMap.get?_insert, if_neg hname.1]

/-! One component. -/

/-- The instances' keys, part by part. -/
theorem instancesOf_perm (morphism : Morphism)
    (component : TopologyComponent) :
    ((morphism.instancesOf component).flatMap Prod.snd).Perm
      (((morphism.seamsOf component).flatMap Seam.parts).flatMap
        fun part => component.keys.filter part.takes) := by
  rw [instancesOf, List.flatMap_assoc, List.flatMap_assoc]
  exact List.Perm.flatMap_left _ fun seam _ => gather_perm seam component.keys

theorem mem_instances_keys {key : Text} :
    key ∈ (morphism.instancesOf component).flatMap Prod.snd ↔
      key ∈ component.keys ∧
        ∃ part ∈ (morphism.seamsOf component).flatMap Seam.parts,
          part.takes key = true := by
  rw [(instancesOf_perm morphism component).mem_iff, List.mem_flatMap]
  simp only [List.mem_filter]
  constructor
  · rintro ⟨part, hpart, hkey, htakes⟩
    exact ⟨hkey, part, hpart, htakes⟩
  · rintro ⟨hkey, part, hpart, htakes⟩
    exact ⟨part, hpart, hkey, htakes⟩

theorem mem_survivors {key : Text} :
    key ∈ morphism.survivors component ↔ key ∈ component.keys ∧
      key ∉ (morphism.instancesOf component).flatMap Prod.snd := by
  rw [survivors, List.mem_filter, mem_instances_keys, Bool.not_eq_true',
    List.any_eq_false]
  refine and_congr_right fun hkey => ?_
  simp only [hkey, true_and, not_exists, not_and, Bool.not_eq_true]

theorem keys_nodup (component : TopologyComponent) : component.keys.Nodup :=
  component.tensors.keys_nodup

/-- The keys of a computed component are the renamed survivors and the fused
names, never both. -/
theorem applyComponent_ok (hforward : morphism.inverted = false)
    {out : TopologyComponent}
    (h : morphism.applyComponent component = .ok out) :
    (∀ name, name ∈ out.keys ↔
      name ∈ (morphism.survivors component).map morphism.rekey ∨
        name ∈ (morphism.instancesOf component).map Prod.fst) ∧
    List.Disjoint ((morphism.survivors component).map morphism.rekey)
      ((morphism.instancesOf component).map Prod.fst) ∧
    ((∀ left ∈ morphism.survivors component,
      ∀ right ∈ morphism.survivors component,
        morphism.rekey left = morphism.rekey right → left = right) →
      ∀ key ∈ morphism.survivors component,
        out.tensors.get? (morphism.rekey key) =
          component.tensors.get? key) := by
  simp only [applyComponent, except_bind_eq_ok] at h
  obtain ⟨seamed, hseamed, tensors, htensors, h⟩ := h
  cases h
  have hfused := runFrom_ok hforward hseamed
  obtain ⟨hfree, hnames, hget⟩ := addProduced_ok htensors
  have hconsumed : ∀ key, key ∈ seamed.consumed ↔
      key ∈ (morphism.instancesOf component).flatMap Prod.snd := by
    intro key
    rw [hfused.consumed key, instancesOf, seamsOf]
    simp only [SeamResult.empty, List.not_mem_nil, or_false]
  have hproduced : ∀ name, name ∈ seamed.produced.entries.map Prod.fst ↔
      name ∈ (morphism.instancesOf component).map Prod.fst := by
    intro name
    rw [hfused.produced name, instancesOf, seamsOf]
    simp only [SeamResult.empty, OrdMap.entries_empty, List.map_nil,
      List.not_mem_nil, or_false]
  have hmapped : ∀ name, name ∈ (morphism.rekeyed seamed.consumed
      component.tensors.entries).entries.map Prod.fst ↔
      name ∈ (morphism.survivors component).map morphism.rekey := by
    intro name
    rw [rekeyed_keys, List.mem_map]
    constructor
    · rintro ⟨entry, hentry, hkept, hname⟩
      rw [hconsumed] at hkept
      exact ⟨entry.1, mem_survivors.mpr ⟨List.mem_map_of_mem hentry, hkept⟩,
        hname⟩
    · rintro ⟨key, hkey, hname⟩
      obtain ⟨hmem, hkept⟩ := mem_survivors.mp hkey
      obtain ⟨entry, hentry, rfl⟩ := List.mem_map.mp hmem
      exact ⟨entry, hentry, mt (hconsumed _).mp hkept, hname⟩
  have hdisjoint : List.Disjoint
      ((morphism.survivors component).map morphism.rekey)
      ((morphism.instancesOf component).map Prod.fst) := by
    intro name himage htarget
    obtain ⟨entry, hentry, rfl⟩ := List.mem_map.mp ((hproduced name).mpr htarget)
    exact OrdMap.mem_keys.mp ((hmapped _).mpr himage) (hfree entry hentry)
  refine ⟨fun name => ?_, hdisjoint, fun hrenamed key hkey => ?_⟩
  · change name ∈ tensors.entries.map Prod.fst ↔ _
    rw [hnames, hmapped, hproduced]
  · obtain ⟨hmem, hkept⟩ := mem_survivors.mp hkey
    obtain ⟨entry, hentry, rfl⟩ := List.mem_map.mp hmem
    have himage : morphism.rekey entry.1 ∉
        seamed.produced.entries.map Prod.fst := fun htarget =>
      hdisjoint (List.mem_map_of_mem hkey) ((hproduced _).mp htarget)
    change tensors.get? _ = _
    rw [hget _ himage, OrdMap.get?_eq_some.mpr hentry]
    refine rekeyed_get? hentry (mt (hconsumed _).mp hkept) ?_
    intro other hother hfree' hsame
    have hother' : other.1 ∈ morphism.survivors component :=
      mem_survivors.mpr ⟨List.mem_map_of_mem hother,
        mt (hconsumed _).mpr hfree'⟩
    exact List.inj_on_of_nodup_map component.tensors.keys_nodup hother hentry
      (hrenamed _ hother' _ hkey hsame)

/-- The keys are used once exactly when no two parts take one. -/
theorem used_iff :
    component.keys.Perm (morphism.survivors component ++
      (morphism.instancesOf component).flatMap Prod.snd) ↔
    ((morphism.seamsOf component).flatMap Seam.parts).Pairwise
      fun left right => ∀ key ∈ component.keys,
        left.takes key = true → right.takes key = false := by
  have hnodup := keys_nodup component
  have htaken : ((morphism.instancesOf component).flatMap Prod.snd).Nodup ↔
      ((morphism.seamsOf component).flatMap Seam.parts).Pairwise
        fun left right => ∀ key ∈ component.keys,
          left.takes key = true → right.takes key = false := by
    rw [(instancesOf_perm morphism component).nodup_iff, List.nodup_flatMap,
      and_iff_right fun part _ => hnodup.filter _]
    refine List.Pairwise.iff fun left right => ?_
    constructor
    · intro hdisjoint key hkey hleft
      by_contra hright
      exact hdisjoint (List.mem_filter.mpr ⟨hkey, hleft⟩)
        (List.mem_filter.mpr ⟨hkey, by simpa using hright⟩)
    · intro hapart key hleft hright
      obtain ⟨hkey, htakes⟩ := List.mem_filter.mp hleft
      have hfalse := hapart key hkey htakes
      rw [(List.mem_filter.mp hright).2] at hfalse
      cases hfalse
  rw [← htaken]
  constructor
  · intro hperm
    exact (List.nodup_append.mp (hperm.nodup_iff.mp hnodup)).2.1
  · intro hinstances
    refine (List.perm_ext_iff_of_nodup hnodup (List.nodup_append'.mpr
      ⟨hnodup.filter _, hinstances, ?_⟩)).mpr fun key => ?_
    · intro key hkept htaken'
      exact (mem_survivors.mp hkept).2 htaken'
    · change key ∈ component.keys ↔ key ∈ morphism.survivors component ++ _
      rw [List.mem_append, mem_survivors]
      constructor
      · intro hkey
        by_cases htaken' : key ∈ (morphism.instancesOf component).flatMap
            Prod.snd
        · exact .inr htaken'
        · exact .inl ⟨hkey, htaken'⟩
      · rintro (⟨hkey, _⟩ | htaken')
        · exact hkey
        · exact (mem_instances_keys.mp htaken').1

theorem fused_iff :
    ((morphism.instancesOf component).map Prod.fst).Nodup ↔
      (morphism.seamsOf component).Pairwise fun left right =>
        List.Disjoint (fusedNames left component.keys)
          (fusedNames right component.keys) := by
  rw [instancesOf, List.map_flatMap, List.nodup_flatMap,
    and_iff_right fun seam _ => (gather seam component.keys).keys_nodup]
  refine List.Pairwise.iff fun left right => ?_
  constructor
  · intro hdisjoint name hleft hright
    exact hdisjoint (gather_names.mpr hleft) (gather_names.mpr hright)
  · intro hdisjoint name hleft hright
    exact hdisjoint (gather_names.mp hleft) (gather_names.mp hright)

theorem lossless_iff (hforward : morphism.inverted = false)
    {out : TopologyComponent}
    (h : morphism.applyComponent component = .ok out) :
    morphism.Lossless component out ↔ morphism.Separate component := by
  obtain ⟨hnames, hdisjoint, hkept⟩ := applyComponent_ok hforward h
  constructor
  · intro hlossless
    have hnodup := (List.nodup_append'.mp
      (hlossless.names.nodup_iff.mp (keys_nodup out)))
    exact ⟨fun left hleft right hright heq =>
        List.inj_on_of_nodup_map hnodup.1 hleft hright heq,
      fused_iff.mp hnodup.2.1, used_iff.mp hlossless.used⟩
  · intro hseparate
    have himages : ((morphism.survivors component).map
        morphism.rekey).Nodup :=
      ((keys_nodup component).filter _).map_on fun left hleft right hright =>
        hseparate.renamed left hleft right hright
    refine ⟨used_iff.mpr hseparate.taken, ?_, hkept hseparate.renamed⟩
    refine (List.perm_ext_iff_of_nodup (keys_nodup out) (List.nodup_append'.mpr
      ⟨himages, fused_iff.mpr hseparate.fused, hdisjoint⟩)).mpr fun name => ?_
    rw [hnames, List.mem_append]

theorem applyComponents_ok {components outs : List TopologyComponent}
    (h : morphism.applyComponents components = .ok outs) :
    List.Forall₂ (fun component out =>
      morphism.applyComponent component = .ok out) components outs := by
  induction components generalizing outs with
  | nil =>
      cases h
      exact .nil
  | cons component components ih =>
      simp only [applyComponents, except_bind_eq_ok] at h
      obtain ⟨out, hout, others, hothers, h⟩ := h
      cases h
      exact .cons hout (ih hothers)

end Morphism

theorem parseMorphism_forward {raw : RawMorphism} {morphism : Morphism}
    (h : parseMorphism raw = .ok morphism) : morphism.inverted = false := by
  unfold parseMorphism at h
  obtain ⟨_, _, h⟩ := except_bind_eq_ok.mp h
  split at h
  · simp only [except_bind_eq_ok] at h
    obtain ⟨_, _, _, _, _, _, _, _, _, _, _, _, _, _, _, _, _, _, _, _, h⟩ := h
    cases h
    rfl
  · cases h

/-- A morphism that applies keeps every tensor, used once and under a name of
its own, exactly when its rows and seams keep them apart. -/
theorem apply_lossless (raw : RawMorphism) (morphism : Morphism)
    (hparse : parseMorphism raw = .ok morphism) (topology out : Topology)
    (h : morphism.apply topology = .ok out) :
    List.Forall₂ morphism.Lossless topology.components out.components ↔
      ∀ component ∈ topology.components, morphism.Separate component := by
  have hforward := parseMorphism_forward hparse
  simp only [Morphism.apply, except_bind_eq_ok] at h
  obtain ⟨_, _, outs, houts, h⟩ := h
  cases h
  have hrun := Morphism.applyComponents_ok houts
  constructor
  · intro hall
    have hpairs := List.forall₂_iff_get.mp hall
    have hruns := List.forall₂_iff_get.mp hrun
    intro component hcomponent
    obtain ⟨i, hi, rfl⟩ := List.getElem_of_mem hcomponent
    have hi' : i < outs.length := hruns.1 ▸ hi
    exact (Morphism.lossless_iff hforward (hruns.2 i hi hi')).mp
      (hpairs.2 i hi hi')
  · intro hseparate
    refine ((List.forall₂_and_left _ _).mpr ⟨hseparate, hrun⟩).imp ?_
    rintro component computed ⟨happart, hcomputed⟩
    exact (Morphism.lossless_iff hforward hcomputed).mpr happart

namespace OneName

def source : Topology :=
  ⟨⟨"cozy.split".toList, 1⟩, "F16".toList, [⟨[], [], .empty,
    (OrdMap.empty.insert "a.w".toList [4]).insert ['w'] [2]⟩]⟩

/-- The row renames `a.w` to `w`. -/
def raw (row : Rekey) : RawMorphism where
  format := some morphismFormat
  name := some "cozy.drop".toList
  version := some 1
  description := []
  source := "cozy.split@1".toList
  target := "cozy.joined@1".toList
  tier := tierRekey
  invertible := false
  rekeys := [row]
  seams := []
  provenance := ["checkpoint".toList]
  digest := []

def morphism (row : Rekey) : Morphism :=
  ⟨⟨"cozy.drop".toList, 1⟩, [], ⟨"cozy.split".toList, 1⟩,
    ⟨"cozy.joined".toList, 1⟩, tierRekey, false, [row], [],
    ["checkpoint".toList], false⟩

theorem parses (row : Rekey) : parseMorphism (raw row) = .ok (morphism row) := by
  have hhandle : namedHandle "cozy.drop".toList 1 =
      .ok ⟨"cozy.drop".toList, 1⟩ := by
    decide +kernel
  have hsource : parseHandle "cozy.split@1".toList =
      .ok ⟨"cozy.split".toList, 1⟩ := by
    decide +kernel
  have htarget : parseHandle "cozy.joined@1".toList =
      .ok ⟨"cozy.joined".toList, 1⟩ := by
    decide +kernel
  exact parseMorphism_of rfl rfl rfl hhandle hsource htarget (by decide)
    (fun h => Nat.one_ne_zero h.1) Nat.one_ne_zero rfl
    ⟨le_refl _, (by decide : tierRekey ≤ tierInterleaved)⟩ (fun h => h.2 rfl)
    rfl

end OneName

/-- One row gives two tensors one name, and the first of them is gone. -/
theorem overwritten_tensor :
    parseMorphism (OneName.raw ⟨"a.".toList, [], [], []⟩) =
      .ok (OneName.morphism ⟨"a.".toList, [], [], []⟩) ∧
    (OneName.morphism ⟨"a.".toList, [], [], []⟩).apply OneName.source =
      .ok ⟨⟨"cozy.joined".toList, 1⟩, "F16".toList,
        [⟨[], [], .empty, OrdMap.empty.insert ['w'] [2]⟩]⟩ ∧
    ¬ List.Forall₂ (OneName.morphism ⟨"a.".toList, [], [], []⟩).Lossless
      OneName.source.components
      [⟨[], [], .empty, OrdMap.empty.insert ['w'] [2]⟩] := by
  refine ⟨OneName.parses _, rfl, ?_⟩
  rintro (_ | ⟨hlossless, _⟩)
  have hlength := hlossless.names.length_eq
  exact absurd hlength (by decide)

/-- A row that keeps the two names apart keeps both tensors. -/
theorem apply_lossless_apart :
    ∃ out, (OneName.morphism ⟨"a.".toList, "b.".toList, [], []⟩).apply
      OneName.source = .ok out ∧
      List.Forall₂ (OneName.morphism
        ⟨"a.".toList, "b.".toList, [], []⟩).Lossless
        OneName.source.components out.components := by
  refine ⟨_, rfl, (apply_lossless _ _ (OneName.parses _) _ _ rfl).mpr ?_⟩
  intro component hcomponent
  cases List.mem_singleton.mp hcomponent
  refine ⟨?_, .nil, .nil⟩
  decide

end TensorFS.Go
