import Mathlib

namespace TensorFS.Data

/-! A pool of workers fed by one sender, under a cancellation that can come at
any moment.  A worker that finds the work cancelled skips its job; another one
makes one call for it and judges the answer. -/

inductive Worker (count : Nat) where
  | idle
  | holding (job : Fin count)
  | calling (job : Fin count)
  | gone

namespace Worker

variable {count : Nat}

def job? : Worker count → Option (Fin count)
  | holding job => some job
  | calling job => some job
  | _ => none

/-- The steps a worker can still take on its own. -/
def weight : Worker count → Nat
  | idle => 1
  | holding _ => 3
  | calling _ => 2
  | gone => 0

end Worker

structure Pool (count : Nat) (α ρ : Type) where
  sent : Nat
  closed : Bool
  cancelled : Bool
  workers : List (Worker count)
  results : Fin count → Option ρ
  log : List (Fin count × α)

namespace Pool

variable {count : Nat} {α ρ : Type}

def start (parallel : Nat) (cancelled : Bool) : Pool count α ρ where
  sent := 0
  closed := false
  cancelled := cancelled
  workers := List.replicate parallel .idle
  results _ := none
  log := []

def active (s : Pool count α ρ) : List (Fin count) :=
  s.workers.filterMap Worker.job?

def Finished (s : Pool count α ρ) : Prop := ∀ worker ∈ s.workers, worker = .gone

def settle (s : Pool count α ρ) (job : Fin count) (result : ρ)
    (workers : List (Worker count)) (log : List (Fin count × α)) :
    Pool count α ρ :=
  { s with
    workers := workers
    results := Function.update s.results job (some result)
    log := log }

section Step

variable (allowed : Fin count → α → Prop) (judge : Fin count → α → ρ)
  (skipped : ρ)

/-- The sender offers the jobs in order and stops early only when cancelled;
a worker leaves once the sender has stopped. -/
inductive Step : Pool count α ρ → Pool count α ρ → Prop where
  | cancel {s} (hlive : s.cancelled = false) :
      Step s { s with cancelled := true }
  | send {s front back} (hopen : s.closed = false) (hmore : s.sent < count)
      (hworkers : s.workers = front ++ .idle :: back) :
      Step s { s with
        sent := s.sent + 1
        workers := front ++ .holding ⟨s.sent, hmore⟩ :: back }
  | quit {s} (hopen : s.closed = false) (hmore : s.sent < count)
      (hcancelled : s.cancelled = true) :
      Step s { s with closed := true }
  | close {s} (hopen : s.closed = false) (hall : s.sent = count) :
      Step s { s with closed := true }
  | skip {s front back job}
      (hworkers : s.workers = front ++ .holding job :: back)
      (hcancelled : s.cancelled = true) :
      Step s (s.settle job skipped (front ++ .idle :: back) s.log)
  | call {s front back job}
      (hworkers : s.workers = front ++ .holding job :: back)
      (hlive : s.cancelled = false) :
      Step s { s with workers := front ++ .calling job :: back }
  | answer {s front back job a}
      (hworkers : s.workers = front ++ .calling job :: back)
      (hallowed : allowed job a) :
      Step s (s.settle job (judge job a) (front ++ .idle :: back)
        (s.log ++ [(job, a)]))
  | leave {s front back} (hclosed : s.closed = true)
      (hworkers : s.workers = front ++ .idle :: back) :
      Step s { s with workers := front ++ .gone :: back }

/-- Every job sent is with one worker or has its result, and a result is what
the answer to its call was judged to be. -/
structure Inv (s : Pool count α ρ) : Prop where
  sent_le : s.sent ≤ count
  stopped : s.closed = true → s.sent = count ∨ s.cancelled = true
  left : .gone ∈ s.workers → s.closed = true
  nodup : s.active.Nodup
  active : ∀ job ∈ s.active, job < s.sent ∧ s.results job = none
  settled : ∀ job : Fin count, job < s.sent →
    job ∈ s.active ∨ ∃ result, s.results job = some result
  unsent : ∀ job : Fin count, s.sent ≤ job → s.results job = none
  judged : ∀ job result, s.results job = some result →
    result = skipped ∨ ∃ a, (job, a) ∈ s.log ∧ result = judge job a
  logged : ∀ job a, (job, a) ∈ s.log → s.results job = some (judge job a)

variable {allowed judge skipped} {s next : Pool count α ρ}

theorem inv_start (parallel : Nat) (cancelled : Bool) :
    Inv judge skipped (start parallel cancelled) := by
  have hactive : (start parallel cancelled : Pool count α ρ).active = [] := by
    rw [active, List.filterMap_eq_nil_iff]
    intro worker hmem
    rw [List.eq_of_mem_replicate hmem]
    rfl
  refine ⟨Nat.zero_le _, nofun, ?_, ?_, ?_, nofun, fun _ _ => rfl, nofun, nofun⟩
  · intro hmem
    exact absurd (List.eq_of_mem_replicate hmem) nofun
  · rw [hactive]
    exact List.nodup_nil
  · rw [hactive]
    exact nofun

/-- The jobs in the workers' hands, with one worker's set apart. -/
theorem jobs_perm (front back : List (Worker count)) (worker : Worker count) :
    ((front ++ worker :: back).filterMap Worker.job?).Perm
      (worker.job?.toList ++ (front ++ back).filterMap Worker.job?) := by
  rw [List.filterMap_append, List.filterMap_append]
  cases hjob : worker.job? with
  | none => rw [List.filterMap_cons_none hjob]; simp
  | some job =>
      rw [List.filterMap_cons_some hjob]
      exact List.perm_middle

/-- Workers may move as long as they hold the same jobs. -/
theorem Inv.rework (h : Inv judge skipped s) {workers : List (Worker count)}
    (hactive : (workers.filterMap Worker.job?).Perm s.active)
    (hleft : .gone ∈ workers → s.closed = true) :
    Inv judge skipped { s with workers := workers } where
  sent_le := h.sent_le
  stopped := h.stopped
  left := hleft
  nodup := hactive.nodup_iff.mpr h.nodup
  active job hmem := h.active job (hactive.mem_iff.mp hmem)
  settled job hsent := (h.settled job hsent).imp_left hactive.mem_iff.mpr
  unsent := h.unsent
  judged := h.judged
  logged := h.logged

theorem Inv.send (h : Inv judge skipped s) {front back : List (Worker count)}
    (hopen : s.closed = false) (hmore : s.sent < count)
    (hworkers : s.workers = front ++ .idle :: back) :
    Inv judge skipped { s with
      sent := s.sent + 1
      workers := front ++ .holding ⟨s.sent, hmore⟩ :: back } := by
  have hbefore : s.active.Perm ((front ++ back).filterMap Worker.job?) := by
    rw [Pool.active, hworkers]
    exact jobs_perm front back .idle
  have hafter : (List.filterMap Worker.job?
      (front ++ .holding ⟨s.sent, hmore⟩ :: back)).Perm
        (⟨s.sent, hmore⟩ :: s.active) :=
    (jobs_perm front back _).trans (hbefore.symm.cons _)
  have hfresh : (⟨s.sent, hmore⟩ : Fin count) ∉ s.active := fun hmem =>
    absurd (h.active _ hmem).1 (lt_irrefl _)
  have hgone : .gone ∉ s.workers := fun hmem => by
    have := h.left hmem
    rw [hopen] at this
    cases this
  refine ⟨hmore, ?_, ?_, ?_, ?_, ?_, ?_, h.judged, h.logged⟩
  · intro hclosed
    exact absurd (hopen.symm.trans hclosed) nofun
  · intro hmem
    refine absurd ?_ hgone
    rw [hworkers]
    simpa using hmem
  · exact hafter.nodup_iff.mpr (List.nodup_cons.mpr ⟨hfresh, h.nodup⟩)
  · intro job hmem
    rcases List.mem_cons.mp (hafter.mem_iff.mp hmem) with rfl | hold
    · exact ⟨Nat.lt_succ_self _, h.unsent _ le_rfl⟩
    · exact ⟨Nat.lt_succ_of_lt (h.active job hold).1, (h.active job hold).2⟩
  · intro job hsent
    rcases Nat.lt_succ_iff_lt_or_eq.mp hsent with hlt | heq
    · exact (h.settled job hlt).imp_left fun hmem =>
        hafter.mem_iff.mpr (List.mem_cons_of_mem _ hmem)
    · left
      exact hafter.mem_iff.mpr (List.mem_cons.mpr (.inl (Fin.ext heq)))
  · intro job hsent
    exact h.unsent job (Nat.le_of_succ_le hsent)

/-- A worker puts down the result of the job it held. -/
theorem Inv.settle (h : Inv judge skipped s) {front back : List (Worker count)}
    {worker : Worker count} {job : Fin count} {result : ρ}
    {log : List (Fin count × α)}
    (hworkers : s.workers = front ++ worker :: back)
    (hjob : worker.job? = some job)
    (hlog : (log = s.log ∧ result = skipped) ∨
      ∃ a, log = s.log ++ [(job, a)] ∧ result = judge job a) :
    Inv judge skipped (s.settle job result (front ++ .idle :: back) log) := by
  have hbefore : s.active.Perm
      (job :: (front ++ back).filterMap Worker.job?) := by
    have hperm := jobs_perm front back worker
    rwa [hjob, ← hworkers] at hperm
  have hafter : (s.settle job result (front ++ .idle :: back) log).active.Perm
      ((front ++ back).filterMap Worker.job?) := jobs_perm front back .idle
  have hnodup := hbefore.nodup_iff.mp h.nodup
  rw [List.nodup_cons] at hnodup
  have hopen : s.results job = none :=
    (h.active job (hbefore.mem_iff.mpr List.mem_cons_self)).2
  have hunlogged : ∀ a, (job, a) ∉ s.log := fun a hmem => by
    have := h.logged job a hmem
    rw [hopen] at this
    cases this
  have hsub : ∀ entry ∈ s.log, entry ∈ log := by
    intro entry hmem
    rcases hlog with ⟨rfl, -⟩ | ⟨a, rfl, -⟩
    · exact hmem
    · exact List.mem_append_left _ hmem
  have hother : ∀ other, other ≠ job →
      (s.settle job result (front ++ .idle :: back) log).results other =
        s.results other := fun other hne => Function.update_of_ne hne _ _
  have hself : (s.settle job result (front ++ .idle :: back) log).results job =
      some result := Function.update_self _ _ _
  refine ⟨h.sent_le, h.stopped, ?_, hafter.nodup_iff.mpr hnodup.2, ?_, ?_, ?_,
    ?_, ?_⟩
  · intro hmem
    apply h.left
    rw [hworkers]
    rcases List.mem_append.mp hmem with hmem | hmem
    · exact List.mem_append_left _ hmem
    · rcases List.mem_cons.mp hmem with heq | hmem
      · cases heq
      · exact List.mem_append_right _ (List.mem_cons_of_mem _ hmem)
  · intro other hmem
    have hrest := hafter.mem_iff.mp hmem
    have hne : other ≠ job := fun heq => hnodup.1 (heq ▸ hrest)
    rw [hother other hne]
    exact h.active other (hbefore.mem_iff.mpr (List.mem_cons_of_mem _ hrest))
  · intro other hsent
    by_cases heq : other = job
    · rw [heq, hself]
      exact .inr ⟨result, rfl⟩
    · rw [hother other heq]
      refine (h.settled other hsent).imp_left fun hmem => hafter.mem_iff.mpr ?_
      rcases List.mem_cons.mp (hbefore.mem_iff.mp hmem) with rfl | hrest
      · exact absurd rfl heq
      · exact hrest
  · intro other hsent
    have hne : other ≠ job := fun heq => by
      have := (h.active job (hbefore.mem_iff.mpr List.mem_cons_self)).1
      rw [← heq] at this
      exact absurd this (not_lt.mpr hsent)
    rw [hother other hne]
    exact h.unsent other hsent
  · intro other value hvalue
    by_cases heq : other = job
    · rw [heq, hself, Option.some.injEq] at hvalue
      rcases hlog with ⟨-, hskipped⟩ | ⟨a, hlog, hjudged⟩
      · exact .inl (hvalue ▸ hskipped)
      · refine .inr ⟨a, ?_, ?_⟩
        · show (other, a) ∈ log
          rw [hlog, heq]
          exact List.mem_append_right _ List.mem_cons_self
        · rw [← hvalue, hjudged, heq]
    · rw [hother other heq] at hvalue
      rcases h.judged other value hvalue with hskipped | ⟨a, hmem, hjudged⟩
      · exact .inl hskipped
      · exact .inr ⟨a, hsub _ hmem, hjudged⟩
  · intro other a hmem
    by_cases heq : other = job
    · rw [heq, hself]
      rcases hlog with ⟨rfl, -⟩ | ⟨b, rfl, hjudged⟩
      · exact absurd (heq ▸ hmem) (hunlogged a)
      · rcases List.mem_append.mp hmem with hold | hnew
        · exact absurd (heq ▸ hold) (hunlogged a)
        · rw [List.mem_singleton, Prod.mk.injEq] at hnew
          rw [hjudged, hnew.2]
    · rw [hother other heq]
      apply h.logged
      rcases hlog with ⟨rfl, -⟩ | ⟨b, rfl, -⟩
      · exact hmem
      · rcases List.mem_append.mp hmem with hold | hnew
        · exact hold
        · rw [List.mem_singleton, Prod.mk.injEq] at hnew
          exact absurd hnew.1 heq

/-- What one step preserves. -/
theorem Step.inv (hstep : Step allowed judge skipped s next)
    (h : Inv judge skipped s) : Inv judge skipped next := by
  cases hstep with
  | cancel hlive =>
      exact ⟨h.sent_le, fun _ => .inr rfl, h.left, h.nodup, h.active,
        h.settled, h.unsent, h.judged, h.logged⟩
  | send hopen hmore hworkers => exact h.send hopen hmore hworkers
  | quit hopen hmore hcancelled =>
      exact ⟨h.sent_le, fun _ => .inr hcancelled, fun _ => rfl, h.nodup,
        h.active, h.settled, h.unsent, h.judged, h.logged⟩
  | close hopen hall =>
      exact ⟨h.sent_le, fun _ => .inl hall, fun _ => rfl, h.nodup, h.active,
        h.settled, h.unsent, h.judged, h.logged⟩
  | skip hworkers hcancelled =>
      exact h.settle hworkers rfl (.inl ⟨rfl, rfl⟩)
  | @call front back job hworkers hlive =>
      refine h.rework ?_ ?_
      · rw [active, hworkers]
        exact (jobs_perm front back _).trans
          (jobs_perm front back (.holding job)).symm
      · intro hmem
        apply h.left
        rw [hworkers]
        simpa using hmem
  | answer hworkers hallowed =>
      exact h.settle hworkers rfl (.inr ⟨_, rfl, rfl⟩)
  | @leave front back hclosed hworkers =>
      refine h.rework ?_ fun _ => hclosed
      rw [active, hworkers]
      exact (jobs_perm front back _).trans (jobs_perm front back .idle).symm

/-- What a whole run preserves. -/
theorem inv_run (hrun : Relation.ReflTransGen (Step allowed judge skipped)
    s next) (h : Inv judge skipped s) : Inv judge skipped next := by
  induction hrun with
  | refl => exact h
  | tail _ hstep ih => exact hstep.inv ih

theorem Step.workers_length (hstep : Step allowed judge skipped s next) :
    next.workers.length = s.workers.length := by
  cases hstep with
  | cancel => rfl
  | quit => rfl
  | close => rfl
  | send _ _ hworkers => simp [hworkers]
  | skip hworkers _ => simp [Pool.settle, hworkers]
  | call hworkers _ => simp [hworkers]
  | answer hworkers _ => simp [Pool.settle, hworkers]
  | leave _ hworkers => simp [hworkers]

theorem workers_length_run
    (hrun : Relation.ReflTransGen (Step allowed judge skipped) s next) :
    next.workers.length = s.workers.length := by
  induction hrun with
  | refl => rfl
  | tail _ hstep ih => exact hstep.workers_length.trans ih

/-! Every schedule ends, and ends with all workers gone. -/

/-- How many steps a pool has left at most. -/
def toGo (s : Pool count α ρ) : Nat :=
  (if s.cancelled then 0 else 1) + (if s.closed then 0 else 1) +
    4 * (count - s.sent) + (s.workers.map Worker.weight).sum

theorem toGo_settle (job : Fin count) (result : ρ)
    (workers : List (Worker count)) (log : List (Fin count × α)) :
    (s.settle job result workers log).toGo =
      toGo { s with workers := workers } := rfl

theorem weights_split (front back : List (Worker count))
    (worker : Worker count) :
    ((front ++ worker :: back).map Worker.weight).sum =
      worker.weight + ((front ++ back).map Worker.weight).sum := by
  simp only [List.map_append, List.map_cons, List.sum_append, List.sum_cons]
  omega

theorem Step.toGo_lt (hstep : Step allowed judge skipped s next) :
    next.toGo < s.toGo := by
  cases hstep with
  | cancel hlive => simp [toGo, hlive]
  | quit hopen hmore hcancelled => simp [toGo, hopen]
  | close hopen hall => simp [toGo, hopen]
  | send hopen hmore hworkers =>
      simp only [toGo, hworkers, weights_split, Worker.weight]
      omega
  | skip hworkers hcancelled =>
      rw [toGo_settle]
      simp only [toGo, hworkers, weights_split, Worker.weight]
      omega
  | call hworkers hlive =>
      simp only [toGo, hworkers, weights_split, Worker.weight]
      omega
  | answer hworkers hallowed =>
      rw [toGo_settle]
      simp only [toGo, hworkers, weights_split, Worker.weight]
      omega
  | leave hclosed hworkers =>
      simp only [toGo, hworkers, weights_split, Worker.weight]
      omega

theorem wellFounded_step : WellFounded fun next s : Pool count α ρ =>
    Step allowed judge skipped s next :=
  Subrelation.wf (fun hstep => hstep.toGo_lt) (measure toGo).wf

/-- No schedule is stuck before all workers are gone. -/
theorem progress (hallowed : ∀ job, ∃ a, allowed job a)
    (h : Inv judge skipped s) (hunfinished : ¬ s.Finished) :
    ∃ next, Step allowed judge skipped s next := by
  obtain ⟨worker, hmem, hworker⟩ :
      ∃ worker ∈ s.workers, worker ≠ .gone := by
    simpa [Finished] using hunfinished
  obtain ⟨front, back, hworkers⟩ := List.append_of_mem hmem
  cases worker with
  | gone => exact absurd rfl hworker
  | holding job =>
      cases hcancelled : s.cancelled with
      | true => exact ⟨_, .skip hworkers hcancelled⟩
      | false => exact ⟨_, .call hworkers hcancelled⟩
  | calling job =>
      obtain ⟨a, ha⟩ := hallowed job
      exact ⟨_, .answer hworkers ha⟩
  | idle =>
      cases hclosed : s.closed with
      | true => exact ⟨_, .leave hclosed hworkers⟩
      | false =>
          rcases h.sent_le.lt_or_eq with hmore | hall
          · exact ⟨_, .send hclosed hmore hworkers⟩
          · exact ⟨_, .close hclosed hall⟩

/-- From every state that is reached a run goes on to the end. -/
theorem exists_finished (hallowed : ∀ job, ∃ a, allowed job a)
    (h : Inv judge skipped s) :
    ∃ final, Relation.ReflTransGen (Step allowed judge skipped) s final ∧
      final.Finished := by
  have hwf := @wellFounded_step count α ρ allowed judge skipped
  induction s using hwf.induction with
  | _ s ih =>
      by_cases hfinished : s.Finished
      · exact ⟨s, .refl, hfinished⟩
      · obtain ⟨next, hstep⟩ := progress hallowed h hfinished
        obtain ⟨final, hrun, hfinal⟩ := ih next hstep (hstep.inv h)
        exact ⟨final, .head hstep hrun, hfinal⟩

/-- When all workers are gone the sender has stopped, and every job it sent has
its result. -/
theorem Inv.finished (h : Inv judge skipped s) (hfinished : s.Finished)
    (hworkers : s.workers ≠ []) :
    (s.sent = count ∨ s.cancelled = true) ∧
      ∀ job : Fin count, job < s.sent → ∃ result, s.results job = some result := by
  obtain ⟨worker, hmem⟩ := List.exists_mem_of_ne_nil _ hworkers
  refine ⟨h.stopped (h.left (hfinished worker hmem ▸ hmem)), fun job hsent => ?_⟩
  rcases h.settled job hsent with hactive | hresult
  · obtain ⟨holder, hholder, hjob⟩ := List.mem_filterMap.mp hactive
    rw [hfinished holder hholder] at hjob
    cases hjob
  · exact hresult

end Step

end Pool

end TensorFS.Data
