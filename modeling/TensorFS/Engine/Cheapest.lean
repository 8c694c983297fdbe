import TensorFS.Engine.Admit
import TensorFS.Engine.Unique

namespace TensorFS.Go

open Data

/-! Which derivation admission takes: of each lane's shortest paths of
morphisms the first, and of these the cheapest. -/

/-- The three legs of a derivation, in the order they run. -/
structure Legs where
  path : List DerivationStep
  quant : Option DerivationStep
  layout : Option DerivationStep

def Legs.steps (legs : Legs) : List DerivationStep :=
  legs.path ++ legs.quant.toList ++ legs.layout.toList

/-- Each step begins where the one before it ends. -/
def Joined : Handle → List DerivationStep → Handle → Prop :=
  Leads fun node step child => step.source = node ∧ step.target = child

/-- The legs take every coordinate of the stamp to the lane's. -/
structure Legs.Connected (legs : Legs) (stamp lane : LayoutID) : Prop where
  path : Joined stamp.topology legs.path lane.topology
  quant : Joined stamp.quant legs.quant.toList lane.quant
  layout : Joined stamp.normalized.bytes legs.layout.toList
    lane.normalized.bytes

namespace Catalog

variable (catalog : Catalog) (byName : NameSort)

/-- A morphism of the catalog, as the step from one topology to another. -/
def Relates (node : Handle) (step : DerivationStep) (child : Handle) : Prop :=
  ∃ morphism ∈ catalog.leaving node, morphism.step = step ∧
    morphism.target = child

/-- A route to a lane: any path of morphisms between the topologies, and the
other two legs. -/
structure Route (stamp lane : LayoutID) (legs : Legs) : Prop where
  path : Leads catalog.Relates stamp.topology legs.path lane.topology
  quant : catalog.requant stamp.quant lane.quant = some legs.quant
  layout : catalog.relayout stamp.bytes lane.bytes = .ok legs.layout

/-- A route whose path is the first, by the names of its morphisms, of those
with the fewest. -/
structure FirstRoute (stamp lane : LayoutID) (legs : Legs) : Prop
    extends catalog.Route stamp lane legs where
  first : Reach.IsFirst (catalog.stepsFrom byName) DerivationStep.target
    stamp.topology lane.topology legs.path

/-- A derivable decision is a connected route to a lane, and no route to any
lane costs less; a refusal leaves no route. -/
structure CheapestWins (stamp : LayoutID) (lanes : List LayoutID)
    (decision : Decision) : Prop where
  derivable : ∀ found lane steps, decision = .derivable found lane steps →
    found = stamp ∧ lane ∈ lanes ∧
    (∃ legs : Legs, legs.steps = steps ∧ legs.Connected stamp lane ∧
      catalog.Route stamp lane legs) ∧
    ∀ other ∈ lanes, ∀ route, catalog.Route stamp other route →
      cost steps ≤ cost route.steps
  refuse : ∀ found refusedAt refusal,
    decision = .refuse found refusedAt refusal →
      ∀ lane ∈ lanes, ∀ route, ¬ catalog.Route stamp lane route

/-- No route to a lane is cheaper than every lane's first shortest one. -/
def ShortestSuffice (stamp : LayoutID) (lanes : List LayoutID) : Prop :=
  ∀ lane ∈ lanes, ∀ route, catalog.Route stamp lane route →
    ∃ other ∈ lanes, ∃ first, catalog.FirstRoute byName stamp other first ∧
      cost first.steps ≤ cost route.steps

variable {catalog byName}

/-! The path. -/

theorem edge_iff {node child : Handle} {step : DerivationStep} :
    Reach.Edge (catalog.stepsFrom byName) DerivationStep.target node step
        child ↔ catalog.Relates node step child := by
  rw [Reach.Edge, stepsFrom, List.mem_map]
  constructor
  · intro h
    obtain ⟨⟨morphism, hmem, rfl⟩, hchild⟩ := h
    exact ⟨morphism, (byName.perm _).mem_iff.mp hmem, rfl, hchild⟩
  · intro h
    obtain ⟨morphism, hmem, rfl, hchild⟩ := h
    exact ⟨⟨morphism, (byName.perm _).mem_iff.mpr hmem, rfl⟩, hchild⟩

theorem leads_iff {source target : Handle} {path : List DerivationStep} :
    Leads (Reach.Edge (catalog.stepsFrom byName) DerivationStep.target) source
        path target ↔ Leads catalog.Relates source path target :=
  ⟨Leads.mono fun _ _ _ => edge_iff.mp, Leads.mono fun _ _ _ => edge_iff.mpr⟩

/-- The topologies that morphisms come to. -/
def targets (catalog : Catalog) : Finset Handle :=
  ((catalog.outgoing.entries.flatMap Prod.snd).map Morphism.target).toFinset

theorem mem_leaving {node : Handle} {morphism : Morphism}
    (h : morphism ∈ catalog.leaving node) :
    morphism ∈ catalog.outgoing.entries.flatMap Prod.snd := by
  rw [leaving] at h
  cases hget : catalog.outgoing.get? node with
  | none =>
      rw [hget] at h
      cases h
  | some morphisms =>
      rw [hget, Option.getD_some] at h
      exact List.mem_flatMap.mpr ⟨_, OrdMap.get?_eq_some.mp hget, h⟩

theorem mem_targets {node : Handle} {step : DerivationStep}
    (h : step ∈ catalog.stepsFrom byName node) :
    step.target ∈ catalog.targets := by
  obtain ⟨morphism, hmem, rfl⟩ := List.mem_map.mp h
  refine List.mem_toFinset.mpr (List.mem_map.mpr ⟨morphism, ?_, rfl⟩)
  exact mem_leaving ((byName.perm _).mem_iff.mp hmem)

theorem card_targets : catalog.targets.card < catalog.rounds := by
  have hle := List.toFinset_card_le
    ((catalog.outgoing.entries.flatMap Prod.snd).map Morphism.target)
  rw [List.length_map] at hle
  exact Nat.lt_succ_of_le hle

theorem repack_spec (source target : Handle) :
    (∃ path, catalog.repack byName source target = some path ∧
        Reach.IsFirst (catalog.stepsFrom byName) DerivationStep.target source
          target path) ∨
      catalog.repack byName source target = none ∧
        ∀ path, ¬ Leads catalog.Relates source path target := by
  unfold repack
  split
  · rename_i hsame
    cases hsame
    refine .inl ⟨[], rfl, ?_, fun n hlt => absurd hlt (Nat.not_lt_zero n)⟩
    simp [Reach.walks, Reach.isAt]
  · rename_i hne
    rcases Reach.search_spec (fun node edge hedge => mem_targets hedge) hne
      card_targets with hfound | hnone
    · exact .inl hfound
    · exact .inr ⟨hnone.1, fun path hleads =>
        hnone.2 path (leads_iff.mpr hleads)⟩

/-- A path costs at least its length times the lowest price of a morphism. -/
theorem length_le_cost {tier : Int} {source target : Handle}
    {path : List DerivationStep}
    (h : ∀ morphism ∈ catalog.outgoing.entries.flatMap Prod.snd,
      tier ≤ morphism.tier)
    (hpath : Leads catalog.Relates source path target) :
    path.length * tier ≤ cost path := by
  induction path generalizing source with
  | nil => simp [cost]
  | cons step path ih =>
      obtain ⟨child, hstep, hrest⟩ := hpath
      obtain ⟨morphism, hmem, rfl, _⟩ := hstep
      have hfirst : tier ≤ morphism.step.tier := h _ (mem_leaving hmem)
      have hpaths := ih hrest
      simp only [cost] at hpaths
      rw [cost, List.map_cons, List.sum_cons, List.length_cons, Nat.cast_succ,
        Int.add_mul, Int.one_mul, Int.add_comm]
      exact Int.add_le_add hfirst hpaths

/-! The derivation. -/

/-- A lane is derived along its first shortest route, whenever there is one. -/
theorem derive_eq_some {stamp lane : LayoutID} {steps : List DerivationStep} :
    catalog.derive byName stamp lane = some steps ↔
      ∃ legs, catalog.FirstRoute byName stamp lane legs ∧
        legs.steps = steps := by
  unfold derive
  constructor
  · intro h
    rcases @repack_spec catalog byName stamp.topology lane.topology with
      hfound | hnone
    · obtain ⟨path, hpath, hfirst⟩ := hfound
      rw [hpath] at h
      cases hquant : catalog.requant stamp.quant lane.quant with
      | none =>
          rw [hquant] at h
          cases h
      | some quant =>
          rw [hquant] at h
          cases hlayout : catalog.relayout stamp.bytes lane.bytes with
          | error why =>
              rw [hlayout] at h
              cases h
          | ok layout =>
              rw [hlayout] at h
              refine ⟨⟨path, quant, layout⟩, ⟨⟨?_, hquant, hlayout⟩, hfirst⟩,
                Option.some.inj h⟩
              exact leads_iff.mp hfirst.leads
    · rw [hnone.1] at h
      cases h
  · intro h
    obtain ⟨legs, hlegs, rfl⟩ := h
    rcases @repack_spec catalog byName stamp.topology lane.topology with
      hfound | hnone
    · obtain ⟨path, hpath, hfirst⟩ := hfound
      rw [hpath, hfirst.unique hlegs.first]
      simp only [hlegs.quant, hlegs.layout, Legs.steps]
    · exact absurd hlegs.path (hnone.2 _)

theorem derive_eq_none {stamp lane : LayoutID}
    (h : catalog.derive byName stamp lane = none) {legs : Legs} :
    ¬ catalog.Route stamp lane legs := by
  intro hroute
  rcases @repack_spec catalog byName stamp.topology lane.topology with
    hfound | hnone
  · obtain ⟨path, hpath, _⟩ := hfound
    rw [derive, hpath, hroute.quant] at h
    simp only [hroute.layout] at h
    cases h
  · exact hnone.2 _ hroute.path

/-! The best lane. -/

/-- What the loop over the lanes has found: nothing while no lane is derived,
and else a lane no dearer than the others. -/
structure Cheapest (derive : LayoutID → Option (List DerivationStep))
    (lanes : List LayoutID)
    (best : Option (LayoutID × List DerivationStep)) : Prop where
  none_of : best = none → ∀ lane ∈ lanes, derive lane = none
  mem : ∀ lane steps, best = some (lane, steps) →
    lane ∈ lanes ∧ derive lane = some steps
  least : ∀ lane steps, best = some (lane, steps) → ∀ other ∈ lanes,
    ∀ others, derive other = some others → cost steps ≤ cost others

theorem Cheapest.nil (derive : LayoutID → Option (List DerivationStep)) :
    Cheapest derive [] none where
  none_of := fun _ _ h => by cases h
  mem := fun _ _ h => by cases h
  least := fun _ _ h => by cases h

theorem Cheapest.skip {derive : LayoutID → Option (List DerivationStep)}
    {lanes : List LayoutID} {best : Option (LayoutID × List DerivationStep)}
    (h : Cheapest derive lanes best) {lane : LayoutID}
    (hkeep : ∀ steps, derive lane = some steps →
      ∃ found, best = some found ∧ cost found.2 ≤ cost steps) :
    Cheapest derive (lanes ++ [lane]) best where
  none_of := by
    intro hnone other hother
    rcases List.mem_append.mp hother with hother | hother
    · exact h.none_of hnone other hother
    · cases List.mem_singleton.mp hother
      cases hderive : derive lane with
      | none => rfl
      | some steps =>
          obtain ⟨found, hfound, _⟩ := hkeep steps hderive
          rw [hnone] at hfound
          cases hfound
  mem := by
    intro other steps hbest
    obtain ⟨hmem, hderive⟩ := h.mem other steps hbest
    exact ⟨List.mem_append_left _ hmem, hderive⟩
  least := by
    intro found steps hbest other hother others hderive
    rcases List.mem_append.mp hother with hother | hother
    · exact h.least found steps hbest other hother others hderive
    · cases List.mem_singleton.mp hother
      obtain ⟨kept, hkept, hcost⟩ := hkeep others hderive
      rw [hbest] at hkept
      cases hkept
      exact hcost

theorem Cheapest.take {derive : LayoutID → Option (List DerivationStep)}
    {lanes : List LayoutID} {best : Option (LayoutID × List DerivationStep)}
    (h : Cheapest derive lanes best) {lane : LayoutID}
    {steps : List DerivationStep} (hderive : derive lane = some steps)
    (hless : ∀ found, best = some found → cost steps < cost found.2) :
    Cheapest derive (lanes ++ [lane]) (some (lane, steps)) where
  none_of := fun hnone => by cases hnone
  mem := by
    intro other found hbest
    cases hbest
    exact ⟨List.mem_append_right _ List.mem_cons_self, hderive⟩
  least := by
    intro found taken hbest other hother others hothers
    cases hbest
    rcases List.mem_append.mp hother with hother | hother
    · cases hfound : best with
      | none =>
          rw [h.none_of hfound other hother] at hothers
          cases hothers
      | some kept =>
          have hkept := h.least kept.1 kept.2 hfound other hother others hothers
          exact (hless kept hfound).le.trans hkept
    · cases List.mem_singleton.mp hother
      rw [hderive] at hothers
      cases hothers
      exact le_refl _

/-- The loop over the lanes keeps what it has found. -/
theorem bestLane_cheapest {stamp : LayoutID} {done lanes : List LayoutID}
    {best : Option (LayoutID × List DerivationStep)}
    (h : Cheapest (catalog.derive byName stamp) done best) :
    Cheapest (catalog.derive byName stamp) (done ++ lanes)
      (catalog.bestLane byName stamp best lanes) := by
  induction lanes generalizing done best with
  | nil => rwa [List.append_nil]
  | cons lane lanes ih =>
      rw [List.append_cons]
      unfold bestLane
      cases hderive : catalog.derive byName stamp lane with
      | none =>
          refine ih (h.skip fun steps hsteps => ?_)
          rw [hderive] at hsteps
          cases hsteps
      | some steps =>
          cases best with
          | none => exact ih (h.take hderive fun _ hfound => by cases hfound)
          | some found =>
              simp only [Option.all_some, decide_eq_true_eq]
              split
              · rename_i hless
                refine ih (h.take hderive fun kept hkept => ?_)
                cases hkept
                exact hless
              · rename_i hmore
                refine ih (h.skip fun other hother => ?_)
                rw [hderive] at hother
                cases hother
                exact ⟨found, rfl, not_lt.mp hmore⟩

/-! The legs connect. -/

theorem requant_joined {source target : Handle} {step : Option DerivationStep}
    (h : catalog.requant source target = some step) :
    Joined source step.toList target := by
  unfold requant at h
  split at h
  · rename_i hsame
    cases h
    exact hsame
  · split at h
    · split_ifs at h <;> cases h <;> exact ⟨target, ⟨rfl, rfl⟩, rfl⟩
    · cases h

theorem relayout_joined {stored declared : Handle}
    {step : Option DerivationStep}
    (h : catalog.relayout stored declared = .ok step) :
    Joined (orDefault stored) step.toList (orDefault declared) := by
  unfold relayout at h
  dsimp only at h
  split at h
  · rename_i hsame
    cases h
    exact hsame
  · simp only [except_bind_eq_ok] at h
    obtain ⟨_, _, _, _, _, _, hstep⟩ := h
    cases hstep
    exact ⟨_, ⟨rfl, rfl⟩, rfl⟩

theorem normalized_bytes (id : LayoutID) :
    id.normalized.bytes = orDefault id.bytes := by
  unfold LayoutID.normalized orDefault
  split <;> rfl

/-- The morphisms listed under a topology leave it. -/
def Leaving (outgoing : OrdMap Handle (List Morphism)) : Prop :=
  ∀ handle morphisms, outgoing.get? handle = some morphisms →
    ∀ morphism ∈ morphisms, morphism.source = handle

end Catalog

theorem Leaving.addOutgoing {outgoing : OrdMap Handle (List Morphism)}
    (h : Catalog.Leaving outgoing) (morphism : Morphism) :
    Catalog.Leaving (Go.addOutgoing outgoing morphism) := by
  intro handle morphisms hget other hother
  rw [Go.addOutgoing, OrdMap.get?_insert] at hget
  split at hget
  · rename_i hsame
    cases hget
    rcases List.mem_append.mp hother with hold | hnew
    · cases hlisted : outgoing.get? morphism.source with
      | none =>
          rw [hlisted] at hold
          cases hold
      | some listed =>
          rw [hlisted, Option.getD_some] at hold
          rw [hsame]
          exact h _ _ hlisted other hold
    · rw [List.mem_singleton.mp hnew, hsame]
  · exact h handle morphisms hget other hother

theorem Leaving.foldl {outgoing : OrdMap Handle (List Morphism)}
    (h : Catalog.Leaving outgoing) (morphisms : List Morphism) :
    Catalog.Leaving (morphisms.foldl Go.addOutgoing outgoing) := by
  induction morphisms generalizing outgoing with
  | nil => exact h
  | cons morphism morphisms ih => exact ih (Leaving.addOutgoing h morphism)

theorem Leaving.validateAll {catalog : Catalog}
    {outgoing result : OrdMap Handle (List Morphism)}
    {entries : List (Handle × Morphism)} (h : Catalog.Leaving outgoing)
    (hvalid : catalog.validateAll outgoing entries = .ok result) :
    Catalog.Leaving result := by
  induction entries generalizing outgoing with
  | nil =>
      cases hvalid
      exact h
  | cons entry entries ih =>
      obtain ⟨added, hadded, hrest⟩ := except_bind_eq_ok.mp hvalid
      refine ih ?_ hrest
      unfold Catalog.validateMorphism at hadded
      split at hadded
      · cases hadded
      · split at hadded
        · cases hadded
        · split at hadded
          · cases hadded
          · obtain ⟨_, _, hadded⟩ := except_bind_eq_ok.mp hadded
            split at hadded
            · split at hadded
              · cases hadded
              · obtain ⟨_, _, hadded⟩ := except_bind_eq_ok.mp hadded
                cases hadded
                exact Leaving.addOutgoing h _
            · cases hadded
              exact h

theorem loadCatalog_leaving {corpus : Corpus} {catalog : Catalog}
    (h : loadCatalog corpus = .ok catalog) :
    Catalog.Leaving catalog.outgoing := by
  simp only [loadCatalog, except_bind_eq_ok] at h
  obtain ⟨topologies, _, rules, _, morphisms, _, arrangements, _, _, _, _, _,
    _, _, outgoing, hvalid, h⟩ := h
  cases h
  refine Leaving.validateAll (Leaving.foldl ?_ _) hvalid
  intro handle listed hget
  rw [OrdMap.get?_empty] at hget
  cases hget

namespace Catalog

variable {catalog : Catalog} {byName : NameSort}

theorem Relates.joined (h : Leaving catalog.outgoing) {node child : Handle}
    {step : DerivationStep} (hstep : catalog.Relates node step child) :
    step.source = node ∧ step.target = child := by
  obtain ⟨morphism, hmem, rfl, hchild⟩ := hstep
  rw [leaving] at hmem
  cases hget : catalog.outgoing.get? node with
  | none =>
      rw [hget] at hmem
      cases hmem
  | some morphisms =>
      rw [hget, Option.getD_some] at hmem
      exact ⟨h node morphisms hget morphism hmem, hchild⟩

theorem Route.connected {stamp lane : LayoutID} {legs : Legs}
    (hroute : catalog.Route stamp lane legs)
    (h : Leaving catalog.outgoing) : legs.Connected stamp lane where
  path := hroute.path.mono fun _ _ _ => Relates.joined h
  quant := requant_joined hroute.quant
  layout := by
    rw [normalized_bytes, normalized_bytes]
    exact relayout_joined hroute.layout

/-- A stamp that is none of the lanes is derived along the best lane's route, or
refused. -/
theorem admitFiles_eq {files : List ArtifactFile} {stamp : LayoutID}
    {lanes : List LayoutID} (hstamp : catalog.stamp files = .ok stamp)
    (hlanes : lanes ≠ []) (hnone : ∀ lane ∈ lanes, stamp.equal lane = false) :
    catalog.admitFiles byName files lanes =
      match catalog.bestLane byName stamp none lanes with
      | some (lane, steps) => .derivable stamp lane steps
      | none => catalog.unreached byName files stamp lanes := by
  have hfind : lanes.find? stamp.equal = none :=
    List.find?_eq_none.mpr fun lane hlane => by simp [hnone lane hlane]
  rw [admitFiles, if_neg hlanes, hstamp]
  dsimp only
  split
  · rename_i lane hlane
    rw [hfind] at hlane
    cases hlane
  · rfl

theorem unreached_eq (catalog : Catalog) (byName : NameSort)
    (files : List ArtifactFile) (stamp : LayoutID) (lanes : List LayoutID) :
    ∃ lane refusal, catalog.unreached byName files stamp lanes =
      .refuse (some stamp) lane refusal := by
  unfold unreached
  split
  · exact ⟨_, _, rfl⟩
  · exact ⟨_, _, rfl⟩

end Catalog

/-- Admission takes a cheapest route, and refuses only where there is none, just
when no route is cheaper than all that begin with a shortest path. -/
theorem cheapest_iff_shortest (corpus : Corpus) (catalog : Catalog)
    (hload : loadCatalog corpus = .ok catalog) (byName : NameSort)
    (files : List ArtifactFile) (stamp : LayoutID)
    (hstamp : catalog.stamp files = .ok stamp) (lanes : List LayoutID)
    (hlanes : lanes ≠ []) (hnone : ∀ lane ∈ lanes, stamp.equal lane = false) :
    catalog.CheapestWins stamp lanes (catalog.admitFiles byName files lanes) ↔
      catalog.ShortestSuffice byName stamp lanes := by
  have hbest : Catalog.Cheapest (catalog.derive byName stamp) ([] ++ lanes)
      (catalog.bestLane byName stamp none lanes) :=
    Catalog.bestLane_cheapest (Catalog.Cheapest.nil _)
  rw [List.nil_append] at hbest
  rw [Catalog.admitFiles_eq hstamp hlanes hnone]
  cases hfound : catalog.bestLane byName stamp none lanes with
  | none =>
      have hunderived : ∀ lane ∈ lanes, ∀ route,
          ¬ catalog.Route stamp lane route := fun lane hlane _ =>
        Catalog.derive_eq_none (hbest.none_of hfound lane hlane)
      constructor
      · intro _ lane hlane route hroute
        exact absurd hroute (hunderived lane hlane route)
      · intro _
        obtain ⟨refusedAt, refusal, hrefuse⟩ :=
          Catalog.unreached_eq catalog byName files stamp lanes
        constructor
        · intro found lane steps hdecision
          rw [hrefuse] at hdecision
          cases hdecision
        · exact fun _ _ _ _ => hunderived
  | some best =>
      obtain ⟨lane, steps⟩ := best
      obtain ⟨hlane, hderive⟩ := hbest.mem lane steps hfound
      obtain ⟨legs, hlegs, hsteps⟩ := Catalog.derive_eq_some.mp hderive
      constructor
      · intro hwins other hother route hroute
        obtain ⟨_, _, _, hleast⟩ := hwins.derivable stamp lane steps rfl
        refine ⟨lane, hlane, legs, hlegs, ?_⟩
        rw [hsteps]
        exact hleast other hother route hroute
      · intro hsuffice
        constructor
        · intro found taken other hdecision
          cases hdecision
          refine ⟨rfl, hlane, ⟨legs, hsteps, hlegs.connected
            (loadCatalog_leaving hload), hlegs.toRoute⟩, ?_⟩
          intro other hother route hroute
          obtain ⟨nearest, hnearest, first, hfirst, hcost⟩ :=
            hsuffice other hother route hroute
          have hleast := hbest.least lane steps hfound nearest hnearest _
            (Catalog.derive_eq_some.mpr ⟨first, hfirst, rfl⟩)
          exact hleast.trans hcost
        · intro found refusedAt refusal hdecision
          cases hdecision

/-! A lane two renames away, and two interleaved seams away. -/

/-- Insertion sort, which is what short slices get. -/
def NameSort.insertion : NameSort where
  sort := List.insertionSort fun left right =>
    left.handle.name ≤ right.handle.name
  perm := List.perm_insertionSort _
  ordered := by
    intro morphisms
    have : Std.Total fun left right : Morphism =>
        left.handle.name ≤ right.handle.name := ⟨fun _ _ => le_total _ _⟩
    have : IsTrans Morphism fun left right =>
        left.handle.name ≤ right.handle.name := ⟨fun _ _ _ => le_trans⟩
    exact List.pairwise_insertionSort _ morphisms

/-- Whether a morphism takes one topology to the other. -/
def Morphism.computes (morphism : Morphism) (source target : Topology) : Bool :=
  (morphism.apply source).toOption.any fun computed =>
    sameTopology computed target

theorem Catalog.validateMorphism_of {catalog : Catalog} {handle : Handle}
    {morphism : Morphism} {outgoing : OrdMap Handle (List Morphism)}
    {source target : Topology}
    (hsource : catalog.topologies.get? morphism.source = some source)
    (htarget : catalog.topologies.get? morphism.target = some target)
    (hcomputes : morphism.computes source target = true)
    (hinverse : morphism.invertible = true →
      morphism.inverse.computes target source = true) :
    catalog.validateMorphism handle morphism outgoing =
      .ok (if morphism.invertible = true then
        addOutgoing outgoing morphism.inverse else outgoing) := by
  have hok : ∀ {other : Morphism} {left right : Topology},
      other.computes left right = true → ∃ computed,
        other.apply left = .ok computed ∧
          sameTopology computed right = true := by
    intro other left right h
    obtain ⟨computed, hcomputed, hsame⟩ := (Option.any_eq_true _ _).mp h
    exact ⟨computed, toOption_eq_some.mp hcomputed, hsame⟩
  obtain ⟨computed, happly, hsame⟩ := hok hcomputes
  unfold validateMorphism
  simp only [hsource, happly, htarget, hsame]
  refine except_bind_eq_ok.mpr ⟨(), ensure_of trivial, ?_⟩
  split
  · rename_i hinvertible
    obtain ⟨back, hback, hreturns⟩ := hok (hinverse hinvertible)
    simp only [hback, hreturns]
    exact except_bind_eq_ok.mpr ⟨(), ensure_of trivial, rfl⟩
  · rfl

namespace Detour

def tensors (side : String) : OrdMap Text (List UInt64) :=
  (OrdMap.empty.insert (side ++ ".k").toList [2]).insert
    (side ++ ".q").toList [2]

def fusedTensors : OrdMap Text (List UInt64) :=
  OrdMap.empty.insert "qk".toList [4]

def net (name : String) (tensors : OrdMap Text (List UInt64)) : Topology where
  handle := ⟨name.toList, 1⟩
  dtype := "F16".toList
  components := [⟨[], roleBackbone, .empty, tensors⟩]

def rawNet (name : String) (tensors : OrdMap Text (List UInt64)) :
    RawTopology where
  format := some topologyFormat
  name := some name.toList
  version := some 1
  dtype := "F16".toList
  components := [⟨[], roleBackbone, .empty, tensors⟩]
  digest := []

def seam (source : String) : Seam where
  target := "qk".toList
  parts := [⟨['q'], 1, (source ++ ".q").toList⟩,
    ⟨['k'], 1, (source ++ ".k").toList⟩]
  groups := 2
  component := []
  provenance := "head-major groups".toList

def rename (source target : String) : Rekey where
  fromPrefix := (source ++ ".").toList
  toPrefix := (target ++ ".").toList
  fromKey := []
  toKey := []

def morphism (name source target : String) (tier : Int) (invertible : Bool)
    (rekeys : List Rekey) (seams : List Seam) : Morphism where
  handle := ⟨name.toList, 1⟩
  description := []
  source := ⟨source.toList, 1⟩
  target := ⟨target.toList, 1⟩
  tier := tier
  invertible := invertible
  rekeys := rekeys
  seams := seams
  provenance := ["the two headers".toList]
  inverted := false

def rawMorphism (name source target : String) (tier : Int) (invertible : Bool)
    (rekeys : List Rekey) (seams : List Seam) : RawMorphism where
  format := some morphismFormat
  name := some name.toList
  version := some 1
  description := []
  source := (source ++ "@1").toList
  target := (target ++ "@1").toList
  tier := tier
  invertible := invertible
  rekeys := rekeys
  seams := seams
  provenance := ["the two headers".toList]
  digest := []

/-- `a` to the fused packaging, and `c` to it and back. -/
def fuseA : Morphism :=
  morphism "cozy.fuse-a" "cozy.a" "cozy.fused" 3 false [] [seam "a"]

def fuseC : Morphism :=
  morphism "cozy.fuse-c" "cozy.c" "cozy.fused" 3 true [] [seam "c"]

/-- `a` to `b`, and `b` to `c`. -/
def renameA : Morphism :=
  morphism "cozy.rename-a" "cozy.a" "cozy.b" 1 false [rename "a" "b"] []

def renameB : Morphism :=
  morphism "cozy.rename-b" "cozy.b" "cozy.c" 1 false [rename "b" "c"] []

def topologies : OrdMap Handle Topology :=
  (((OrdMap.empty.insert ⟨"cozy.a".toList, 1⟩
    (net "cozy.a" (tensors "a"))).insert
    ⟨"cozy.b".toList, 1⟩ (net "cozy.b" (tensors "b"))).insert
    ⟨"cozy.c".toList, 1⟩ (net "cozy.c" (tensors "c"))).insert
    ⟨"cozy.fused".toList, 1⟩ (net "cozy.fused" fusedTensors)

def rules : OrdMap Handle QuantRule :=
  OrdMap.empty.insert ⟨"cozy.plain".toList, 1⟩
    (OneLayoutTwice.rule "cozy.plain" "F16")

def morphisms : OrdMap Handle Morphism :=
  (((OrdMap.empty.insert fuseA.handle fuseA).insert fuseC.handle fuseC).insert
    renameA.handle renameA).insert renameB.handle renameB

def id (topology : String) : LayoutID :=
  ⟨⟨topology.toList, 1⟩, ⟨"cozy.plain".toList, 1⟩, defaultLayout⟩

def catalog : Catalog where
  topologies := topologies
  rules := rules
  morphisms := morphisms
  arrangements := OrdMap.empty.insert defaultLayout OneLayoutTwice.contiguous
  outgoing := addOutgoing ([fuseA, fuseC, renameA, renameB].foldl addOutgoing
    .empty) fuseC.inverse
  order := [id "cozy.a", id "cozy.b", id "cozy.c", id "cozy.fused"]

def corpus : Corpus where
  topologies := ⟨[("a.json".toList, some (rawNet "cozy.a" (tensors "a"))),
    ("b.json".toList, some (rawNet "cozy.b" (tensors "b"))),
    ("c.json".toList, some (rawNet "cozy.c" (tensors "c"))),
    ("fused.json".toList, some (rawNet "cozy.fused" fusedTensors))],
    by decide⟩
  rules := OrdMap.empty.insert "plain.json".toList
    (some (OneLayoutTwice.rawRule "cozy.plain" "F16"))
  morphisms := ⟨[("fuse-a.json".toList, some (rawMorphism "cozy.fuse-a" "cozy.a"
      "cozy.fused" 3 false [] [seam "a"])),
    ("fuse-c.json".toList, some (rawMorphism "cozy.fuse-c" "cozy.c"
      "cozy.fused" 3 true [] [seam "c"])),
    ("rename-a.json".toList, some (rawMorphism "cozy.rename-a" "cozy.a"
      "cozy.b" 1 false [rename "a" "b"] [])),
    ("rename-b.json".toList, some (rawMorphism "cozy.rename-b" "cozy.b"
      "cozy.c" 1 false [rename "b" "c"] []))], by decide⟩
  layouts := OrdMap.empty.insert "contiguous.json".toList
    (some OneLayoutTwice.rawContiguous)
  displayNames := []

theorem parsed_net {name : String} {tensors : OrdMap Text (List UInt64)}
    (hhandle : namedHandle name.toList 1 = .ok ⟨name.toList, 1⟩)
    (hparts : parseParts ⟨name.toList, 1⟩ 1
      [⟨[], roleBackbone, .empty, tensors⟩] =
        .ok [⟨[], roleBackbone, .empty, tensors⟩]) :
    parseTopology (rawNet name tensors) = .ok (net name tensors) := by
  have hparsed := @parseTopology_of (rawNet name tensors) _ _ _ _ rfl rfl rfl
    hhandle (Nat.succ_ne_zero 0) (List.cons_ne_nil _ _) hparts rfl
  rw [hparsed, byName, List.mergeSort_singleton]
  rfl

theorem parsed_morphism {name source target : String} {tier : Int}
    {invertible : Bool} {rekeys : List Rekey} {seams : List Seam}
    (hhandle : namedHandle name.toList 1 = .ok ⟨name.toList, 1⟩)
    (hsource : parseHandle (source ++ "@1").toList = .ok ⟨source.toList, 1⟩)
    (htarget : parseHandle (target ++ "@1").toList = .ok ⟨target.toList, 1⟩)
    (hne : (⟨source.toList, 1⟩ : Handle) ≠ ⟨target.toList, 1⟩)
    (hsome : ¬ (rekeys.length = 0 ∧ seams.length = 0))
    (hseams : checkSeams ⟨name.toList, 1⟩ seams = .ok ())
    (htier : tierRekey ≤ tier ∧ tier ≤ tierInterleaved)
    (hrekey : ¬ (seams.length = 0 ∧ tier ≠ tierRekey)) :
    parseMorphism (rawMorphism name source target tier invertible rekeys
      seams) = .ok (morphism name source target tier invertible rekeys
        seams) :=
  parseMorphism_of rfl rfl rfl hhandle hsource htarget hne hsome
    (Nat.succ_ne_zero 0) hseams htier hrekey rfl

theorem read_topologies : readDirectory parseTopology Topology.handle .topology
    .empty corpus.topologies.entries = .ok topologies := by
  have ha : namedHandle "cozy.a".toList 1 = .ok ⟨"cozy.a".toList, 1⟩ := by
    decide +kernel
  have hb : namedHandle "cozy.b".toList 1 = .ok ⟨"cozy.b".toList, 1⟩ := by
    decide +kernel
  have hc : namedHandle "cozy.c".toList 1 = .ok ⟨"cozy.c".toList, 1⟩ := by
    decide +kernel
  have hfused : namedHandle "cozy.fused".toList 1 =
      .ok ⟨"cozy.fused".toList, 1⟩ := by
    decide +kernel
  change readDirectory _ _ _ _ [("a.json".toList, some _), _, _, _] = _
  rw [readDirectory, parsed_net ha rfl]
  refine except_bind_eq_ok.mpr ⟨(), rfl, ?_⟩
  rw [readDirectory, parsed_net hb rfl]
  refine except_bind_eq_ok.mpr ⟨(), ensure_of (by decide), ?_⟩
  rw [readDirectory, parsed_net hc rfl]
  refine except_bind_eq_ok.mpr ⟨(), ensure_of (by decide), ?_⟩
  rw [readDirectory, parsed_net hfused rfl]
  exact except_bind_eq_ok.mpr ⟨(), ensure_of (by decide), rfl⟩

theorem read_morphisms : readDirectory parseMorphism Morphism.handle .morphism
    .empty corpus.morphisms.entries = .ok morphisms ∧
    parsedMorphisms corpus.morphisms.entries =
      [fuseA, fuseC, renameA, renameB] := by
  have ha : parseHandle ("cozy.a" ++ "@1").toList =
      .ok ⟨"cozy.a".toList, 1⟩ := by
    decide +kernel
  have hb : parseHandle ("cozy.b" ++ "@1").toList =
      .ok ⟨"cozy.b".toList, 1⟩ := by
    decide +kernel
  have hc : parseHandle ("cozy.c" ++ "@1").toList =
      .ok ⟨"cozy.c".toList, 1⟩ := by
    decide +kernel
  have hfused : parseHandle ("cozy.fused" ++ "@1").toList =
      .ok ⟨"cozy.fused".toList, 1⟩ := by
    decide +kernel
  have hfuseA := @parsed_morphism "cozy.fuse-a" "cozy.a" "cozy.fused" 3 false
    [] [seam "a"] (by decide +kernel) ha hfused (by decide) (by decide)
    (by decide) (by decide) (by decide)
  have hfuseC := @parsed_morphism "cozy.fuse-c" "cozy.c" "cozy.fused" 3 true
    [] [seam "c"] (by decide +kernel) hc hfused (by decide) (by decide)
    (by decide) (by decide) (by decide)
  have hrenameA := @parsed_morphism "cozy.rename-a" "cozy.a" "cozy.b" 1 false
    [rename "a" "b"] [] (by decide +kernel) ha hb (by decide) (by decide)
    (by decide) (by decide) (by decide)
  have hrenameB := @parsed_morphism "cozy.rename-b" "cozy.b" "cozy.c" 1 false
    [rename "b" "c"] [] (by decide +kernel) hb hc (by decide) (by decide)
    (by decide) (by decide) (by decide)
  constructor
  · change readDirectory _ _ _ _ [("fuse-a.json".toList, some _), _, _, _] = _
    rw [readDirectory, hfuseA]
    refine except_bind_eq_ok.mpr ⟨(), rfl, ?_⟩
    rw [readDirectory, hfuseC]
    refine except_bind_eq_ok.mpr ⟨(), ensure_of (by decide), ?_⟩
    rw [readDirectory, hrenameA]
    refine except_bind_eq_ok.mpr ⟨(), ensure_of (by decide), ?_⟩
    rw [readDirectory, hrenameB]
    exact except_bind_eq_ok.mpr ⟨(), ensure_of (by decide), rfl⟩
  · change parsedMorphisms [("fuse-a.json".toList, some _), _, _, _] = _
    simp only [parsedMorphisms, hfuseA, hfuseC, hrenameA, hrenameB]
    rfl

theorem validates : catalog.validateAll ([fuseA, fuseC, renameA,
    renameB].foldl addOutgoing .empty) catalog.morphisms.entries =
      .ok catalog.outgoing := by
  change catalog.validateAll _ [(fuseA.handle, fuseA), (fuseC.handle, fuseC),
    (renameA.handle, renameA), (renameB.handle, renameB)] = _
  simp only [Catalog.validateAll]
  rw [@Catalog.validateMorphism_of catalog _ fuseA _
    (net "cozy.a" (tensors "a")) (net "cozy.fused" fusedTensors) rfl rfl
    (by decide +kernel) (by decide)]
  refine except_bind_eq_ok.mpr ⟨_, rfl, ?_⟩
  rw [@Catalog.validateMorphism_of catalog _ fuseC _
    (net "cozy.c" (tensors "c")) (net "cozy.fused" fusedTensors) rfl rfl
    (by decide +kernel) (fun _ => by decide +kernel)]
  refine except_bind_eq_ok.mpr ⟨_, rfl, ?_⟩
  rw [@Catalog.validateMorphism_of catalog _ renameA _
    (net "cozy.a" (tensors "a")) (net "cozy.b" (tensors "b")) rfl rfl
    (by decide +kernel) (by decide)]
  refine except_bind_eq_ok.mpr ⟨_, rfl, ?_⟩
  rw [@Catalog.validateMorphism_of catalog _ renameB _
    (net "cozy.b" (tensors "b")) (net "cozy.c" (tensors "c")) rfl rfl
    (by decide +kernel) (by decide)]
  rfl

theorem loads : loadCatalog corpus = .ok catalog := by
  have hrules : readDirectory parseQuantRule QuantRule.handle .rule .empty
      corpus.rules.entries = .ok rules := by
    have hplain : namedHandle "cozy.plain".toList 1 =
        .ok ⟨"cozy.plain".toList, 1⟩ := by
      decide +kernel
    change readDirectory _ _ _ _ [("plain.json".toList, some _)] = _
    rw [readDirectory, @OneLayoutTwice.parsed_rule "cozy.plain" "F16" hplain
      (by decide)]
    rfl
  have harrangements : readDirectory parseLayoutMorphism LayoutMorphism.handle
      .arrangement .empty corpus.layouts.entries =
      .ok (OrdMap.empty.insert defaultLayout OneLayoutTwice.contiguous) := by
    change readDirectory _ _ _ _ [("contiguous.json".toList, some _)] = _
    rw [readDirectory, OneLayoutTwice.parsed_contiguous]
    rfl
  unfold loadCatalog
  refine except_bind_eq_ok.mpr ⟨_, read_topologies, ?_⟩
  refine except_bind_eq_ok.mpr ⟨_, hrules, ?_⟩
  refine except_bind_eq_ok.mpr ⟨_, read_morphisms.1, ?_⟩
  refine except_bind_eq_ok.mpr ⟨_, harrangements, ?_⟩
  refine except_bind_eq_ok.mpr ⟨(), rfl, ?_⟩
  refine except_bind_eq_ok.mpr ⟨(), ensure_of (by decide), ?_⟩
  refine except_bind_eq_ok.mpr ⟨(), rfl, ?_⟩
  rw [read_morphisms.2]
  refine except_bind_eq_ok.mpr ⟨catalog.outgoing, validates, ?_⟩
  rfl

def header : ArtifactFile :=
  ⟨"a.safetensors".toList, [⟨"a.k".toList, "F16".toList, [2], 4⟩,
    ⟨"a.q".toList, "F16".toList, [2], 4⟩], by decide⟩

def layout : Layout where
  id := id "cozy.a"
  components := [⟨[], (OrdMap.empty.insert "a.k".toList
    ⟨["F16".toList], [2], false⟩).insert "a.q".toList
      ⟨["F16".toList], [2], false⟩⟩]
  transformed := 0

theorem stamped : catalog.stamp [header] = .ok (id "cozy.a") := by
  have hlayout : catalog.layout (id "cozy.a") = .ok layout := rfl
  have hmatch : ∃ found, matchLayout [header] layout = .ok found := by
    have hsorted : byPath [header] = [header] := List.mergeSort_singleton _
    unfold matchLayout
    rw [hsorted]
    exact ⟨_, rfl⟩
  obtain ⟨found, hfound⟩ := hmatch
  rw [Catalog.stamp_ok_iff]
  refine List.find?_cons_of_pos ?_
  rw [Catalog.identifies, hlayout]
  simp only [hfound]
  rfl

end Detour

/-- The lane is two renames away, and the plan fuses and splits again. -/
theorem dearer_derivation :
    loadCatalog Detour.corpus = .ok Detour.catalog ∧
    Detour.catalog.stamp [Detour.header] = .ok (Detour.id "cozy.a") ∧
    (Detour.id "cozy.a").equal (Detour.id "cozy.c") = false ∧
    Detour.catalog.admitFiles .insertion [Detour.header] [Detour.id "cozy.c"] =
      .derivable (Detour.id "cozy.a") (Detour.id "cozy.c")
        [Detour.fuseA.step, Detour.fuseC.inverse.step] ∧
    cost [Detour.fuseA.step, Detour.fuseC.inverse.step] = 6 ∧
    Detour.catalog.Route (Detour.id "cozy.a") (Detour.id "cozy.c")
      ⟨[Detour.renameA.step, Detour.renameB.step], none, none⟩ ∧
    cost [Detour.renameA.step, Detour.renameB.step] = 2 ∧
    ¬ Detour.catalog.CheapestWins (Detour.id "cozy.a") [Detour.id "cozy.c"]
      (Detour.catalog.admitFiles .insertion [Detour.header]
        [Detour.id "cozy.c"]) := by
  have hadmit : Detour.catalog.admitFiles .insertion [Detour.header]
      [Detour.id "cozy.c"] = .derivable (Detour.id "cozy.a")
        (Detour.id "cozy.c")
        [Detour.fuseA.step, Detour.fuseC.inverse.step] := by
    rw [Catalog.admitFiles_eq Detour.stamped (by decide) (by decide +kernel)]
    have hbest : Detour.catalog.bestLane .insertion (Detour.id "cozy.a") none
        [Detour.id "cozy.c"] = some (Detour.id "cozy.c",
          [Detour.fuseA.step, Detour.fuseC.inverse.step]) := by
      decide +kernel
    rw [hbest]
  have hroute : Detour.catalog.Route (Detour.id "cozy.a") (Detour.id "cozy.c")
      ⟨[Detour.renameA.step, Detour.renameB.step], none, none⟩ := by
    refine ⟨⟨⟨"cozy.b".toList, 1⟩, ⟨Detour.renameA, ?_, rfl, rfl⟩,
      ⟨"cozy.c".toList, 1⟩, ⟨Detour.renameB, ?_, rfl, rfl⟩, rfl⟩, ?_, ?_⟩
    · decide +kernel
    · decide +kernel
    · decide +kernel
    · rfl
  refine ⟨Detour.loads, Detour.stamped, by decide +kernel, hadmit, by decide,
    hroute, by decide, ?_⟩
  intro hwins
  obtain ⟨_, _, _, hleast⟩ := hwins.derivable _ _ _ hadmit
  have hcost := hleast _ List.mem_cons_self _ hroute
  revert hcost
  decide

/-- The nearest lane is one rename away. -/
theorem cheapest_one_rename :
    Detour.catalog.CheapestWins (Detour.id "cozy.a") [Detour.id "cozy.b"]
      (Detour.catalog.admitFiles .insertion [Detour.header]
        [Detour.id "cozy.b"]) := by
  refine (cheapest_iff_shortest Detour.corpus Detour.catalog Detour.loads
    .insertion [Detour.header] (Detour.id "cozy.a") Detour.stamped
    [Detour.id "cozy.b"] (by decide) (by decide +kernel)).mpr ?_
  intro lane hlane route hroute
  cases List.mem_singleton.mp hlane
  refine ⟨_, hlane, ⟨[Detour.renameA.step], none, none⟩, ⟨⟨?_, ?_, rfl⟩, ?_⟩,
    ?_⟩
  · exact ⟨⟨"cozy.b".toList, 1⟩, ⟨Detour.renameA, by decide +kernel, rfl, rfl⟩,
      rfl⟩
  · decide +kernel
  · exact ⟨by decide +kernel, by decide +kernel⟩
  · have hpath := @Catalog.length_le_cost Detour.catalog 1 _ _ _
      (by decide +kernel) hroute.path
    have hquant : some none = some route.quant := hroute.quant
    have hlayout : Except.ok none = Except.ok route.layout := hroute.layout
    cases hsteps : route.path with
    | nil =>
        have hsame := hroute.path
        rw [hsteps] at hsame
        have hne : (⟨"cozy.a".toList, 1⟩ : Handle) ≠ ⟨"cozy.b".toList, 1⟩ := by
          decide
        exact absurd hsame hne
    | cons step path =>
        rw [hsteps, List.length_cons] at hpath
        cases route
        cases hquant
        cases hlayout
        cases hsteps
        simp only [Legs.steps, Option.toList_none, List.append_nil]
        have hone : cost [Detour.renameA.step] = 1 := by decide
        rw [hone]
        omega

end TensorFS.Go
