import TensorFS.Layout.Ratify

namespace TensorFS

open Data

/-- Two outcomes both fail, or both succeed with related values. -/
def Alike {ε α : Type} (R : α → α → Prop) : Except ε α → Except ε α → Prop
  | .ok left, .ok right => R left right
  | .error _, .error _ => True
  | _, _ => False

/-! The fill path: chunks to bytes at a destination, arranged on the way. -/

/-- One tensor's source bytes: an ordered chunk list, logically one buffer. -/
structure ChunkedSource where
  chunks : List Bytes

namespace ChunkedSource

/-- The start of each chunk, and behind them the total. -/
def startsFrom : Nat → List Bytes → List Nat
  | start, [] => [start]
  | start, chunk :: rest =>
      start :: startsFrom ((start + chunk.length) % 2 ^ 64) rest

variable (source : ChunkedSource)

def starts : List Nat := startsFrom 0 source.chunks

def len : Nat := source.starts.getLastD 0

/-- The whole source as one slice, when it already is one. -/
def contiguous : Option Bytes :=
  match source.chunks with
  | [only] => some only
  | _ => none

/-- The standard library's search of a sorted list: the last of the matches,
or the place to insert at. -/
def binarySearch (sorted : List Nat) (target : Nat) : Except Nat Nat :=
  if target ∈ sorted then .ok (sorted.countP (· ≤ target) - 1)
  else .error (sorted.countP (· ≤ target))

/-- Copies from the chunks one after another, and counts the ones touched. -/
def copyFrom : List (Bytes × Nat) → Nat → Nat →
    Except (Failure LayoutError) (Bytes × Nat)
  | _, _, 0 => .ok ([], 0)
  | [], _, _ + 1 => .error .panicked
  | (chunk, start) :: rest, cursor, wanted + 1 =>
      let within := cursor - start
      if cursor < start ∨ chunk.length < within then .error .panicked
      else do
        let take := min (chunk.length - within) (wanted + 1)
        let (bytes, touched) ←
          copyFrom rest (cursor + take) (wanted + 1 - take)
        .ok ((chunk.drop within).take take ++ bytes, touched + 1)

/-- The chunk that holds an offset. -/
def chunkAt (offset : Nat) : Nat :=
  match binarySearch source.starts offset with
  | .ok index => index
  | .error index => index - 1

def readAt (offset span : Nat) :
    Except (Failure LayoutError) (Bytes × Nat) := do
  refusing (ensure ((offset + span) % 2 ^ 64 ≤ source.len)
    (.buffer source.len ((offset + span) % 2 ^ 64)))
  copyFrom ((source.chunks.zip source.starts).drop (source.chunkAt offset))
    offset span

end ChunkedSource

structure FillStats where
  sourceBytes : Nat
  destinationBytes : Nat
  paddingBytes : Nat
  runs : Nat
  chunks : Nat
  deriving DecidableEq

/-- The same account but for the chunks touched. -/
def FillStats.Same (left right : FillStats) : Prop :=
  { left with chunks := 0 } = { right with chunks := 0 }

inductive FillError where
  | candidate (handle : Text)
  | layout (error : LayoutError)
  deriving DecidableEq

/-- What one tensor's fill is; `candidate` is the record's own flag. -/
structure TensorFill where
  layout : LayoutMorphism
  candidate : Bool
  shape : List UInt64
  elementBytes : UInt64
  deviceOffset : UInt64

/-- Where filled bytes go: a state, the buffer handed back for a request, and
what moving the staged bytes does. -/
structure FillSink (σ : Type) where
  staging : σ → Nat → UInt64 → Except (Failure LayoutError) (σ × Bytes)
  commit : σ → Bytes → Except (Failure LayoutError) σ

structure Filled (σ : Type) where
  stats : FillStats
  staged : Bytes
  sink : σ
  deriving DecidableEq

def layoutFailure : Failure LayoutError → Failure FillError
  | .refused error => .refused (.layout error)
  | .panicked => .panicked

namespace LayoutRun

def padding (run : LayoutRun) (element : Nat) : Nat :=
  if run.source.isNone = true then run.length * element % 2 ^ 64 else 0

/-- The statistics after one more run. -/
def count (element : Nat) (stats : FillStats) (run : LayoutRun) : FillStats :=
  { stats with
    runs := stats.runs + 1
    paddingBytes := (stats.paddingBytes + run.padding element) % 2 ^ 64 }

end LayoutRun

namespace ChunkedSource

variable (source : ChunkedSource)

/-- One run of a source in several chunks; the staging is sliced before the
read. -/
def moveRun (element : Nat) (state : FillStats × Bytes) (run : LayoutRun) :
    Except (Failure LayoutError) (FillStats × Bytes) :=
  let start := run.dest * element % 2 ^ 64
  let span := run.length * element % 2 ^ 64
  if start + span ≤ state.2.length then
    match run.source with
    | some index => do
        let (bytes, touched) ← source.readAt (index * element % 2 ^ 64) span
        let stats := run.count element state.1
        .ok ({ stats with chunks := stats.chunks + touched },
          patch state.2 start bytes)
    | none =>
        .ok (run.count element state.1,
          patch state.2 start (List.replicate span 0))
  else .error .panicked

def move (plan : LayoutPlan) (element : Nat) (stats : FillStats)
    (staging : Bytes) : Except (Failure LayoutError) (FillStats × Bytes) :=
  match source.contiguous with
  | some whole => do
      let staged ← plan.apply whole staging element
      let stats := plan.forEachRun.foldl (LayoutRun.count element) stats
      .ok ({ stats with chunks := 1 }, staged)
  | none => plan.forEachRun.foldlM (source.moveRun element) (stats, staging)

end ChunkedSource

section Fill

variable {σ : Type}

/-- A fill of `len` source bytes around a way to move them. -/
def fillWith (len : Nat)
    (move : LayoutPlan → Nat → FillStats → Bytes →
      Except (Failure LayoutError) (FillStats × Bytes))
    (tensor : TensorFill) (sink : FillSink σ) (state : σ) :
    Except (Failure FillError) (Filled σ) := do
  refusing (ensure (tensor.candidate = false)
    (.candidate tensor.layout.handle))
  let element := tensor.elementBytes.toNat
  refusing (ensure (element ≠ 0) (.layout (.buffer 0 1)))
  let plan ← (refusing (tensor.layout.plan tensor.shape)).mapError layoutFailure
  let wantSource := plan.sourceElements * element % 2 ^ 64
  refusing (ensure (len = wantSource) (.layout (.buffer len wantSource)))
  let destinationBytes := plan.destElements * element % 2 ^ 64
  let (state, staging) ← (sink.staging state destinationBytes
    tensor.deviceOffset).mapError layoutFailure
  let (stats, staged) ← (move plan element
    ⟨wantSource, destinationBytes, 0, 0, 0⟩ staging).mapError layoutFailure
  let state ← (sink.commit state staged).mapError layoutFailure
  .ok ⟨stats, staged, state⟩

def fill (source : ChunkedSource) :
    TensorFill → FillSink σ → σ → Except (Failure FillError) (Filled σ) :=
  fillWith source.len source.move

/-- What a fill is for: the plan applied to the source as one buffer and to the
bytes asked for, and each padding slot counted once. -/
def moveWhole (source : Bytes) (plan : LayoutPlan) (element : Nat)
    (stats : FillStats) (staging : Bytes) :
    Except (Failure LayoutError) (FillStats × Bytes) := do
  let moved ← plan.apply source (staging.take stats.destinationBytes) element
  let slots := plan.forEach.filter fun visit => visit.2.isNone
  .ok ({ stats with
      paddingBytes := slots.length * element % 2 ^ 64
      runs := plan.forEachRun.length },
    moved ++ staging.drop stats.destinationBytes)

def fillWhole (source : Bytes) :
    TensorFill → FillSink σ → σ → Except (Failure FillError) (Filled σ) :=
  fillWith source.length (moveWhole source)

/-- Two fills leave the same bytes and the same sink, and account alike but
for the chunks touched. -/
def Filled.Same (left right : Filled σ) : Prop :=
  left.staged = right.staged ∧ left.sink = right.sink ∧
    left.stats.Same right.stats

/-- The buffer handed back is at least as long as asked for. -/
def FillSink.Honours (sink : FillSink σ) : Prop :=
  ∀ state bytes offset next buffer,
    sink.staging state bytes offset = .ok (next, buffer) →
      bytes ≤ buffer.length

end Fill

/-! Reading across chunk borders. -/

theorem ok_of_map {ε α β : Type} {x : Except ε α} {f : α → β} {b : β}
    (h : x.map f = .ok b) : ∃ a, x = .ok a := by
  cases x with
  | error e => cases h
  | ok a => exact ⟨a, rfl⟩

namespace ChunkedSource

variable {chunks : List Bytes} {start cursor wanted : Nat}

theorem le_of_mem_startsFrom (htotal : start + chunks.flatten.length < 2 ^ 64)
    {other : Nat} (h : other ∈ startsFrom start chunks) : start ≤ other := by
  induction chunks generalizing start with
  | nil => exact (List.mem_singleton.mp h).ge
  | cons chunk rest ih =>
      rw [List.flatten_cons, List.length_append] at htotal
      rw [startsFrom, Nat.mod_eq_of_lt (by omega), List.mem_cons] at h
      rcases h with rfl | h
      · exact le_rfl
      · exact (Nat.le_add_right _ _).trans (ih (by omega) h)

theorem getLastD_startsFrom
    (htotal : start + chunks.flatten.length < 2 ^ 64) (other : Nat) :
    (startsFrom start chunks).getLastD other =
      start + chunks.flatten.length := by
  induction chunks generalizing start other with
  | nil => rfl
  | cons chunk rest ih =>
      rw [List.flatten_cons, List.length_append] at htotal ⊢
      rw [startsFrom, Nat.mod_eq_of_lt (by omega), List.getLastD_cons,
        ih (by omega), Nat.add_assoc]

theorem len_eq {source : ChunkedSource}
    (htotal : source.chunks.flatten.length < 2 ^ 64) :
    source.len = source.chunks.flatten.length := by
  rw [len, starts, getLastD_startsFrom (by omega), Nat.zero_add]

theorem copyFrom_step {chunk : Bytes} {rest : List (Bytes × Nat)} {taken : Nat}
    (hstart : start ≤ cursor) (hwithin : cursor ≤ start + chunk.length)
    (htaken : min (chunk.length - (cursor - start)) (wanted + 1) = taken) :
    copyFrom ((chunk, start) :: rest) cursor (wanted + 1) =
      (copyFrom rest (cursor + taken) (wanted + 1 - taken)).map fun read =>
        ((chunk.drop (cursor - start)).take taken ++ read.1, read.2 + 1) := by
  rw [copyFrom, if_neg (by omega), htaken]
  cases hread : copyFrom rest (cursor + taken) (wanted + 1 - taken) <;>
    simp only [hread] <;> rfl

/-- From inside the first chunk, the copy is a slice of the concatenation. -/
theorem copyFrom_eq (htotal : start + chunks.flatten.length < 2 ^ 64)
    (hstart : start ≤ cursor)
    (hinside : ∀ chunk ∈ chunks.head?, cursor ≤ start + chunk.length)
    (hroom : cursor + wanted ≤ start + chunks.flatten.length) :
    ∃ touched, copyFrom (chunks.zip (startsFrom start chunks)) cursor wanted =
      .ok ((chunks.flatten.drop (cursor - start)).take wanted, touched) := by
  induction chunks generalizing start cursor wanted with
  | nil =>
      have hwanted : wanted = 0 := by
        rw [List.flatten_nil, List.length_nil] at hroom
        omega
      subst hwanted
      exact ⟨0, by simp [copyFrom]⟩
  | cons chunk rest ih =>
      cases wanted with
      | zero => exact ⟨0, by simp [copyFrom]⟩
      | succ wanted =>
          rw [List.flatten_cons, List.length_append] at htotal hroom
          have hwithin := hinside chunk rfl
          rw [startsFrom, Nat.mod_eq_of_lt (by omega), List.zip_cons_cons,
            List.flatten_cons, List.drop_append_of_le_length (by omega)]
          by_cases hdone : wanted + 1 ≤ chunk.length - (cursor - start)
          · refine ⟨1, ?_⟩
            rw [copyFrom_step hstart hwithin (Nat.min_eq_right hdone),
              Nat.sub_self, copyFrom, List.take_append_of_le_length
                (by rw [List.length_drop]; omega)]
            simp [Except.map]
          · obtain ⟨touched, hrest⟩ := @ih (start + chunk.length)
              (cursor + (chunk.length - (cursor - start)))
              (wanted + 1 - (chunk.length - (cursor - start)))
              (by omega) (by omega) (fun _ _ => by omega) (by omega)
            have hall : (chunk.drop (cursor - start)).length =
                chunk.length - (cursor - start) := List.length_drop
            refine ⟨touched + 1, ?_⟩
            rw [copyFrom_step hstart hwithin (Nat.min_eq_left (by omega)),
              hrest, List.take_append, List.take_of_length_le hall.le,
              List.take_of_length_le (hall.le.trans (by omega)), hall,
              show cursor + (chunk.length - (cursor - start)) -
                (start + chunk.length) = 0 by omega]
            rfl

/-- A copy that ends had enough bytes from its chunk on. -/
theorem copyFrom_room (htotal : start + chunks.flatten.length < 2 ^ 64)
    {skipped : Nat} {read : Bytes × Nat}
    (h : copyFrom ((chunks.zip (startsFrom start chunks)).drop skipped) cursor
      (wanted + 1) = .ok read) :
    cursor + (wanted + 1) ≤ start + chunks.flatten.length := by
  induction chunks generalizing start skipped cursor wanted read with
  | nil =>
      rw [List.zip_nil_left, List.drop_nil, copyFrom] at h
      cases h
  | cons chunk rest ih =>
      rw [List.flatten_cons, List.length_append] at htotal ⊢
      rw [startsFrom, Nat.mod_eq_of_lt (by omega), List.zip_cons_cons] at h
      cases skipped with
      | succ skipped =>
          have hrest := ih (by omega) h
          omega
      | zero =>
          by_cases hinside : start ≤ cursor ∧ cursor ≤ start + chunk.length
          · obtain ⟨hstart, hwithin⟩ := hinside
            by_cases hdone : wanted + 1 ≤ chunk.length - (cursor - start)
            · omega
            · rw [List.drop_zero, copyFrom_step hstart hwithin
                (Nat.min_eq_left (by omega))] at h
              obtain ⟨tail, htail⟩ := ok_of_map h
              obtain ⟨left, hleft⟩ := Nat.exists_eq_succ_of_ne_zero
                (by omega :
                  wanted + 1 - (chunk.length - (cursor - start)) ≠ 0)
              rw [hleft] at htail
              have hrest := @ih (start + chunk.length) _ left (by omega) 0 tail
                (by rwa [List.drop_zero])
              omega
          · rw [List.drop_zero, copyFrom, if_pos (by omega)] at h
            cases h

/-- The chunk the search finds holds the offset. -/
theorem copyFrom_search (htotal : start + chunks.flatten.length < 2 ^ 64)
    (hstart : start ≤ cursor)
    (hroom : cursor + wanted ≤ start + chunks.flatten.length) :
    ∃ touched, copyFrom ((chunks.zip (startsFrom start chunks)).drop
        ((startsFrom start chunks).countP (· ≤ cursor) - 1)) cursor wanted =
      .ok ((chunks.flatten.drop (cursor - start)).take wanted, touched) := by
  induction chunks generalizing start with
  | nil =>
      simp only [List.zip_nil_left, List.drop_nil]
      have h := @copyFrom_eq [] start cursor wanted htotal hstart (by simp)
        hroom
      rwa [List.zip_nil_left] at h
  | cons chunk rest ih =>
      have hlength := htotal
      rw [List.flatten_cons, List.length_append] at hlength
      by_cases hnext : start + chunk.length ≤ cursor
      · rw [List.flatten_cons, List.length_append] at hroom
        obtain ⟨touched, hread⟩ := ih (by omega) hnext (by omega)
        have hfirst : start + chunk.length ∈
            startsFrom (start + chunk.length) rest := by
          cases rest <;> simp [startsFrom]
        have hpos : 0 < (startsFrom (start + chunk.length) rest).countP
            (· ≤ cursor) :=
          List.countP_pos_iff.mpr ⟨_, hfirst, by simpa using hnext⟩
        refine ⟨touched, ?_⟩
        rw [startsFrom, Nat.mod_eq_of_lt (by omega), List.zip_cons_cons,
          List.countP_cons_of_pos (by simpa using hstart), Nat.add_sub_cancel,
          ← Nat.sub_add_cancel hpos, List.drop_succ_cons, List.flatten_cons,
          List.drop_append,
          List.drop_of_length_le (by omega : chunk.length ≤ cursor - start),
          List.nil_append, Nat.sub_sub]
        exact hread
      · have hlater : (startsFrom (start + chunk.length) rest).countP
            (· ≤ cursor) = 0 := by
          refine List.countP_eq_zero.mpr fun other hother => ?_
          have hle := le_of_mem_startsFrom (by omega) hother
          simp only [decide_eq_true_eq]
          omega
        have hcount : (startsFrom start (chunk :: rest)).countP
            (· ≤ cursor) - 1 = 0 := by
          rw [startsFrom, Nat.mod_eq_of_lt (by omega),
            List.countP_cons_of_pos (by simpa using hstart), hlater]
        rw [hcount, List.drop_zero]
        refine copyFrom_eq htotal hstart (fun first hfirst => ?_) hroom
        cases hfirst
        omega

theorem chunkAt_eq (source : ChunkedSource) (offset : Nat) :
    source.chunkAt offset = source.starts.countP (· ≤ offset) - 1 := by
  by_cases hmem : offset ∈ source.starts
  · rw [chunkAt, binarySearch, if_pos hmem]
  · rw [chunkAt, binarySearch, if_neg hmem]

variable {source : ChunkedSource} {offset span : Nat}

theorem readAt_eq (htotal : source.chunks.flatten.length < 2 ^ 64)
    (hroom : offset + span ≤ source.chunks.flatten.length) :
    ∃ touched, source.readAt offset span =
      .ok ((source.chunks.flatten.drop offset).take span, touched) := by
  obtain ⟨touched, hread⟩ := copyFrom_search
    (by rwa [Nat.zero_add]) (Nat.zero_le offset)
    (by rwa [Nat.zero_add] : offset + span ≤ 0 + source.chunks.flatten.length)
  refine ⟨touched, ?_⟩
  rw [readAt, len_eq htotal, Nat.mod_eq_of_lt (by omega), ensure_of hroom,
    chunkAt_eq]
  exact hread

theorem readAt_fails (htotal : source.chunks.flatten.length < 2 ^ 64)
    (hoffset : offset < 2 ^ 64)
    (hroom : source.chunks.flatten.length < offset + span) :
    ∃ e, source.readAt offset span = .error e := by
  cases hread : source.readAt offset span with
  | error e => exact ⟨e, rfl⟩
  | ok read =>
      exfalso
      simp only [readAt, len_eq htotal, except_bind_eq_ok, refusing_eq_ok,
        ensure_eq_ok] at hread
      obtain ⟨_, hlen, hcopy⟩ := hread
      cases span with
      | zero =>
          rw [Nat.add_zero, Nat.mod_eq_of_lt hoffset] at hlen
          omega
      | succ wanted =>
          have hread := copyFrom_room (by rwa [Nat.zero_add]) hcopy
          omega

end ChunkedSource

/-! One run and all of them. -/

namespace LayoutRun

variable (run : LayoutRun) (element : Nat)

/-- A run stays inside a source and a destination of these byte lengths. -/
def Fits (source destination : Nat) : Prop :=
  run.dest * element % 2 ^ 64 + run.length * element % 2 ^ 64 ≤ destination ∧
    ∀ index, run.source = some index →
      index * element % 2 ^ 64 + run.length * element % 2 ^ 64 ≤ source

/-- What a run writes. -/
def bytes (source : Bytes) : Bytes :=
  match run.source with
  | some index =>
      (source.drop (index * element % 2 ^ 64)).take
        (run.length * element % 2 ^ 64)
  | none => List.replicate (run.length * element % 2 ^ 64) 0

def write (source buffer : Bytes) : Bytes :=
  patch buffer (run.dest * element % 2 ^ 64) (run.bytes element source)

variable {run element} {source buffer : Bytes}

theorem Fits.length_bytes {destination : Nat}
    (h : run.Fits element source.length destination) :
    (run.bytes element source).length = run.length * element % 2 ^ 64 := by
  unfold bytes
  split
  · rename_i index hindex
    have hroom := h.2 index hindex
    rw [List.length_take, List.length_drop]
    omega
  · exact List.length_replicate

theorem Fits.length_write (h : run.Fits element source.length buffer.length) :
    (run.write element source buffer).length = buffer.length :=
  length_patch (by rw [h.length_bytes]; exact h.1)

/-- A run that fits a prefix of the buffer leaves the rest alone. -/
theorem Fits.write_append (h : run.Fits element source.length buffer.length)
    (tail : Bytes) :
    run.write element source (buffer ++ tail) =
      run.write element source buffer ++ tail := by
  have hlength := h.length_bytes
  have hroom := h.1
  rw [write, write, patch, patch, List.take_append_of_le_length (by omega),
    List.drop_append_of_le_length (by omega), ← List.append_assoc]

theorem Fits.applyRun_eq (h : run.Fits element source.length buffer.length) :
    LayoutPlan.applyRun source element buffer run =
      .ok (run.write element source buffer) := by
  have hlength := h.length_bytes
  have hroom := h.1
  cases hsource : run.source with
  | none =>
      simp only [bytes, hsource] at hlength
      simp only [LayoutPlan.applyRun, LayoutPlan.overwrite, write, bytes,
        hsource]
      rw [if_pos (by omega)]
  | some index =>
      simp only [bytes, hsource] at hlength
      simp only [LayoutPlan.applyRun, LayoutPlan.overwrite, LayoutPlan.slice,
        write, bytes, hsource]
      rw [if_pos (h.2 index hsource), except_ok_bind, if_pos (by omega)]

theorem fits_of_applyRun {next : Bytes}
    (h : LayoutPlan.applyRun source element buffer run = .ok next) :
    run.Fits element source.length buffer.length := by
  by_contra hfits
  have hdest : ¬ buffer.length <
      run.dest * element % 2 ^ 64 + run.length * element % 2 ^ 64 :=
    fun houtside => by
      rw [LayoutPlan.applyRun_outside houtside] at h
      cases h
  refine hfits ⟨not_lt.mp hdest, fun index hindex => ?_⟩
  simp only [LayoutPlan.applyRun, hindex, except_bind_eq_ok] at h
  obtain ⟨_, hslice, _⟩ := h
  unfold LayoutPlan.slice at hslice
  split at hslice
  · assumption
  · cases hslice

end LayoutRun

namespace ChunkedSource

variable {source : ChunkedSource} {element : Nat} {run : LayoutRun}
  {state : FillStats × Bytes}

theorem moveRun_eq (state : FillStats × Bytes)
    (htotal : source.chunks.flatten.length < 2 ^ 64)
    (h : run.Fits element source.chunks.flatten.length state.2.length) :
    ∃ touched, source.moveRun element state run =
      .ok ({ run.count element state.1 with chunks := touched },
        run.write element source.chunks.flatten state.2) := by
  rw [moveRun, if_pos h.1]
  cases hsource : run.source with
  | none =>
      refine ⟨state.1.chunks, ?_⟩
      simp only [LayoutRun.write, LayoutRun.bytes, hsource]
      rfl
  | some index =>
      obtain ⟨touched, hread⟩ := readAt_eq htotal (h.2 index hsource)
      refine ⟨state.1.chunks + touched, ?_⟩
      simp only [LayoutRun.write, LayoutRun.bytes, hsource, hread]
      rfl

theorem fits_of_moveRun (htotal : source.chunks.flatten.length < 2 ^ 64)
    {next : FillStats × Bytes}
    (h : source.moveRun element state run = .ok next) :
    run.Fits element source.chunks.flatten.length state.2.length := by
  by_cases hroom : run.dest * element % 2 ^ 64 +
      run.length * element % 2 ^ 64 ≤ state.2.length
  · refine ⟨hroom, fun index hindex => ?_⟩
    by_contra hshort
    obtain ⟨e, hread⟩ := readAt_fails htotal
      (Nat.mod_lt _ (by norm_num)) (not_le.mp hshort)
    rw [moveRun, if_pos hroom, hindex] at h
    simp only [hread, except_error_bind] at h
    cases h
  · rw [moveRun, if_neg hroom] at h
    cases h

end ChunkedSource

/-! All runs of a plan. -/

namespace LayoutRun

/-- What a list of runs leaves in the buffer. -/
def writeAll (runs : List LayoutRun) (element : Nat) (source buffer : Bytes) :
    Bytes :=
  runs.foldl (fun buffer run => run.write element source buffer) buffer

variable {runs : List LayoutRun} {element : Nat} {source buffer : Bytes}

theorem foldlM_applyRun
    (hfits : ∀ run ∈ runs, run.Fits element source.length buffer.length) :
    runs.foldlM (LayoutPlan.applyRun source element) buffer =
      .ok (writeAll runs element source buffer) := by
  induction runs generalizing buffer with
  | nil => rfl
  | cons run runs ih =>
      have hfirst := hfits run List.mem_cons_self
      rw [List.foldlM_cons, hfirst.applyRun_eq, except_ok_bind]
      refine ih fun other hother => ?_
      rw [hfirst.length_write]
      exact hfits other (List.mem_cons_of_mem _ hother)

theorem fits_of_foldlM_applyRun {next : Bytes}
    (h : runs.foldlM (LayoutPlan.applyRun source element) buffer = .ok next) :
    ∀ run ∈ runs, run.Fits element source.length buffer.length := by
  induction runs generalizing buffer with
  | nil => exact fun _ hrun => absurd hrun List.not_mem_nil
  | cons run runs ih =>
      rw [List.foldlM_cons, except_bind_eq_ok] at h
      obtain ⟨middle, hfirst, hrest⟩ := h
      refine List.forall_mem_cons.mpr ⟨fits_of_applyRun hfirst, ?_⟩
      rw [← LayoutPlan.applyRun_length hfirst]
      exact ih hrest

/-- Runs that fit a prefix of the buffer leave the rest alone. -/
theorem writeAll_append
    (hfits : ∀ run ∈ runs, run.Fits element source.length buffer.length)
    (tail : Bytes) :
    writeAll runs element source (buffer ++ tail) =
      writeAll runs element source buffer ++ tail := by
  induction runs generalizing buffer with
  | nil => rfl
  | cons run runs ih =>
      have hfirst := hfits run List.mem_cons_self
      rw [writeAll, writeAll, List.foldl_cons, List.foldl_cons,
        hfirst.write_append]
      refine ih fun other hother => ?_
      rw [hfirst.length_write]
      exact hfits other (List.mem_cons_of_mem _ hother)

theorem foldl_count_chunks (stats : FillStats) (chunks : Nat) :
    runs.foldl (count element) { stats with chunks := chunks } =
      { runs.foldl (count element) stats with chunks := chunks } := by
  induction runs generalizing stats with
  | nil => rfl
  | cons run runs ih => exact ih (count element stats run)

theorem foldl_count_frame (runs : List LayoutRun) (element : Nat)
    (stats : FillStats) :
    (runs.foldl (count element) stats).sourceBytes = stats.sourceBytes ∧
      (runs.foldl (count element) stats).destinationBytes =
        stats.destinationBytes ∧
      (runs.foldl (count element) stats).runs = stats.runs + runs.length := by
  induction runs generalizing stats with
  | nil => exact ⟨rfl, rfl, rfl⟩
  | cons run runs ih =>
      obtain ⟨hsource, hdestination, hruns⟩ := ih (count element stats run)
      refine ⟨hsource, hdestination, hruns.trans ?_⟩
      rw [List.length_cons, Nat.add_comm runs.length, ← Nat.add_assoc]
      rfl

/-- The padding slots a list of runs visits. -/
def slots (runs : List LayoutRun) : Nat :=
  (runs.map fun run => if run.source.isNone = true then run.length else 0).sum

theorem foldl_count_padding (runs : List LayoutRun) (element : Nat)
    {stats : FillStats} (hsmall : stats.paddingBytes < 2 ^ 64) :
    (runs.foldl (count element) stats).paddingBytes =
      (stats.paddingBytes + slots runs * element) % 2 ^ 64 := by
  induction runs generalizing stats with
  | nil =>
      rw [slots, List.map_nil, List.sum_nil, Nat.zero_mul, Nat.add_zero,
        Nat.mod_eq_of_lt hsmall]
      rfl
  | cons run runs ih =>
      have hpadding : run.padding element =
          (if run.source.isNone = true then run.length else 0) * element %
            2 ^ 64 := by
        unfold padding
        split <;> simp
      rw [List.foldl_cons, ih (Nat.mod_lt _ (by norm_num))]
      simp only [count, slots, List.map_cons, List.sum_cons, hpadding,
        Nat.add_mul]
      rw [Nat.mod_add_mod, Nat.add_right_comm, Nat.add_mod_mod,
        Nat.add_right_comm, Nat.add_assoc]

end LayoutRun

theorem LayoutPlan.length_slots (plan : LayoutPlan) :
    (plan.forEach.filter fun visit => visit.2.isNone).length =
      LayoutRun.slots plan.forEachRun := by
  rw [LayoutPlan.forEach, List.filter_flatMap, List.length_flatMap,
    LayoutRun.slots]
  refine congrArg List.sum (List.map_congr_left fun run _ => ?_)
  cases hsource : run.source <;>
    simp [List.filter_map, Function.comp_def]

namespace ChunkedSource

variable {source : ChunkedSource} {element : Nat} {runs : List LayoutRun}
  {stats : FillStats} {buffer : Bytes}

theorem foldlM_moveRun (stats : FillStats)
    (htotal : source.chunks.flatten.length < 2 ^ 64)
    (hfits : ∀ run ∈ runs,
      run.Fits element source.chunks.flatten.length buffer.length) :
    ∃ touched, runs.foldlM (source.moveRun element) (stats, buffer) =
      .ok ({ runs.foldl (LayoutRun.count element) stats with
          chunks := touched },
        LayoutRun.writeAll runs element source.chunks.flatten buffer) := by
  induction runs generalizing stats buffer with
  | nil => exact ⟨stats.chunks, rfl⟩
  | cons run runs ih =>
      have hfirst := hfits run List.mem_cons_self
      obtain ⟨chunks, hmove⟩ :=
        moveRun_eq (stats, buffer) htotal hfirst
      obtain ⟨touched, hrest⟩ := @ih
        (run.write element source.chunks.flatten buffer)
        { run.count element stats with chunks := chunks }
        fun other hother => by
          rw [hfirst.length_write]
          exact hfits other (List.mem_cons_of_mem _ hother)
      refine ⟨touched, ?_⟩
      rw [List.foldlM_cons, hmove, except_ok_bind, hrest,
        LayoutRun.foldl_count_chunks]
      rfl

theorem fits_of_foldlM_moveRun
    (htotal : source.chunks.flatten.length < 2 ^ 64)
    {next : FillStats × Bytes}
    (h : runs.foldlM (source.moveRun element) (stats, buffer) = .ok next) :
    ∀ run ∈ runs,
      run.Fits element source.chunks.flatten.length buffer.length := by
  induction runs generalizing stats buffer with
  | nil => exact fun _ hrun => absurd hrun List.not_mem_nil
  | cons run runs ih =>
      rw [List.foldlM_cons, except_bind_eq_ok] at h
      obtain ⟨middle, hfirst, hrest⟩ := h
      have hrun : run.Fits element source.chunks.flatten.length
          buffer.length := fits_of_moveRun htotal hfirst
      obtain ⟨touched, hmove⟩ :=
        moveRun_eq (stats, buffer) htotal hrun
      rw [hmove, Except.ok.injEq] at hfirst
      subst hfirst
      refine List.forall_mem_cons.mpr ⟨hrun, ?_⟩
      rw [← hrun.length_write]
      exact ih hrest

end ChunkedSource

/-! The two ways through a plan. -/

namespace LayoutPlan

/-- Every run stays inside a source and a destination of these lengths. -/
def Fits (plan : LayoutPlan) (element source destination : Nat) : Prop :=
  ∀ run ∈ plan.forEachRun, run.Fits element source destination

variable {plan : LayoutPlan} {element : Nat} {source destination : Bytes}

theorem Fits.mono {length shorter longer : Nat}
    (h : plan.Fits element length shorter) (hle : shorter ≤ longer) :
    plan.Fits element length longer := fun run hrun =>
  ⟨(h run hrun).1.trans hle, (h run hrun).2⟩

theorem apply_eq
    (hsource : source.length = plan.sourceElements * element % 2 ^ 64)
    (hdestination : destination.length =
      plan.destElements * element % 2 ^ 64)
    (hfits : plan.Fits element source.length destination.length) :
    plan.apply source destination element =
      .ok (LayoutRun.writeAll plan.forEachRun element source destination) := by
  rw [apply, sized, ensure_of hsource, except_ok_bind,
    ensure_of hdestination]
  exact LayoutRun.foldlM_applyRun hfits

theorem fits_of_apply {moved : Bytes}
    (h : plan.apply source destination element = .ok moved) :
    destination.length = plan.destElements * element % 2 ^ 64 ∧
      plan.Fits element source.length destination.length := by
  simp only [apply, sized, except_bind_eq_ok, refusing_eq_ok,
    ensure_eq_ok] at h
  obtain ⟨_, ⟨_, _, hdestination⟩, hfold⟩ := h
  exact ⟨hdestination, LayoutRun.fits_of_foldlM_applyRun hfold⟩

end LayoutPlan

namespace LayoutMorphism

/-- A checked record whose destination fits a buffer never leaves it. -/
theorem plan_fits {record : LayoutMorphism} {shape : List UInt64}
    {plan : LayoutPlan} {factors : List (Nat × Nat)} {element length : Nat}
    (hcheck : record.check = .ok ()) (hplan : record.plan shape = .ok plan)
    (hfactors : record.factors shape = .ok factors) (helement : 0 < element)
    (hsmall : (factors.map Prod.snd).prod * element < 2 ^ 63)
    (hlength : length = plan.sourceElements * element % 2 ^ 64) :
    plan.Fits element length (plan.destElements * element % 2 ^ 64) := by
  have hproduct := Nat.le_mul_of_pos_right (factors.map Prod.snd).prod helement
  obtain ⟨groups, hgroups, hbuilt, helements, _⟩ :=
    plan_built hcheck hplan hfactors (by omega)
  have hextents : (factors.map Prod.snd).prod = groups.flatten.prod := by
    rw [hgroups.labelled_eq, labelled_snd]
  rw [hextents] at hsmall
  have hshape := Nat.mul_le_mul_right element hbuilt.shape_prod_le
  rw [helements, Nat.mod_eq_of_lt (by omega)] at hlength
  rw [hbuilt.dest, Nat.mod_eq_of_lt (by omega)]
  obtain ⟨moved, hmoved, _⟩ := hbuilt.apply_spec helements
    (List.length_replicate.trans hlength :
      (List.replicate length (0 : UInt8)).length = _)
    (List.length_replicate : (List.replicate
      (groups.flatten.prod * element) (0 : UInt8)).length = _) hsmall
  have hfits := (LayoutPlan.fits_of_apply hmoved).2
  rwa [List.length_replicate, List.length_replicate] at hfits

end LayoutMorphism

/-! Comparing outcomes. -/

section Outcomes

variable {ε α β : Type} {R : α → α → Prop} {S : β → β → Prop}
  {x y : Except ε α}

theorem Alike.of_ok {a b : α} (hx : x = .ok a) (hy : y = .ok b)
    (h : R a b) : Alike R x y := by
  rw [hx, hy]
  exact h

theorem Alike.of_error (hx : ∀ a, x ≠ .ok a) (hy : ∀ a, y ≠ .ok a) :
    Alike R x y := by
  cases x with
  | ok a => exact absurd rfl (hx a)
  | error e =>
      cases y with
      | ok b => exact absurd rfl (hy b)
      | error e => trivial

theorem Alike.ok_iff (h : Alike R x y) : (∃ a, x = .ok a) ↔ ∃ b, y = .ok b := by
  cases x <;> cases y <;> first | (simp; done) | cases h

theorem alike_bind {f g : α → Except ε β} :
    Alike S (x >>= f) (x >>= g) ↔ ∀ a, x = .ok a → Alike S (f a) (g a) := by
  cases x with
  | error e => simp [Alike]
  | ok a => simp

theorem Alike.bind {f g : α → Except ε β} (h : Alike R x y)
    (hnext : ∀ a b, R a b → Alike S (f a) (g b)) :
    Alike S (x >>= f) (y >>= g) := by
  cases x <;> cases y <;>
    first | exact True.intro | cases h | exact hnext _ _ h

theorem alike_mapError {δ : Type} {f : ε → δ} :
    Alike R (x.mapError f) (y.mapError f) ↔ Alike R x y := by
  cases x <;> cases y <;> rfl

end Outcomes

namespace ChunkedSource

variable {source : ChunkedSource} {plan : LayoutPlan} {element : Nat}

/-- When the cut does not show: the staging is as long as asked for; or the
source is not one chunk, and the plan leaves the staging wherever it leaves what
was asked for; or it is one chunk, and the plan leaves what was asked for. -/
def Uniform (source : ChunkedSource) (plan : LayoutPlan)
    (element asked staged : Nat) : Prop :=
  staged = asked ∨
    if source.chunks.length = 1 then
      ¬ plan.Fits element source.chunks.flatten.length asked
    else
      plan.Fits element source.chunks.flatten.length staged →
        plan.Fits element source.chunks.flatten.length asked

def SameMove (left right : FillStats × Bytes) : Prop :=
  left.2 = right.2 ∧ left.1.Same right.1

theorem counted_same {stats : FillStats} (hpadding : stats.paddingBytes = 0)
    (hruns : stats.runs = 0) (touched chunks : Nat) :
    FillStats.Same
      { plan.forEachRun.foldl (LayoutRun.count element) stats with
        chunks := touched }
      { stats with
        paddingBytes := (plan.forEach.filter fun visit =>
          visit.2.isNone).length * element % 2 ^ 64
        runs := plan.forEachRun.length
        chunks := chunks } := by
  obtain ⟨hsource, hdestination, hcount⟩ :=
    LayoutRun.foldl_count_frame plan.forEachRun element stats
  have hslots := LayoutRun.foldl_count_padding plan.forEachRun element
    (by rw [hpadding]; norm_num : stats.paddingBytes < 2 ^ 64)
  rw [hpadding, Nat.zero_add] at hslots
  rw [hruns, Nat.zero_add] at hcount
  rw [FillStats.Same, plan.length_slots, hsource, hdestination, hcount, hslots]

theorem length_contiguous {whole : Bytes}
    (h : source.contiguous = some whole) :
    source.chunks.length = 1 ∧ source.chunks.flatten = whole := by
  unfold contiguous at h
  split at h
  · rename_i only hchunks
    cases h
    rw [hchunks]
    exact ⟨rfl, by simp⟩
  · cases h

theorem length_ne_one (h : source.contiguous = none) :
    source.chunks.length ≠ 1 := by
  intro hone
  obtain ⟨only, hchunks⟩ := List.length_eq_one_iff.mp hone
  rw [contiguous, hchunks] at h
  cases h

variable {stats : FillStats} {staging : Bytes}

theorem moveWhole_eq {total : Bytes}
    (hsource : total.length = plan.sourceElements * element % 2 ^ 64)
    (hasked : stats.destinationBytes = plan.destElements * element % 2 ^ 64)
    (hroom : stats.destinationBytes ≤ staging.length)
    (hfits : plan.Fits element total.length stats.destinationBytes) :
    moveWhole total plan element stats staging =
      .ok ({ stats with
        paddingBytes := (plan.forEach.filter fun visit =>
          visit.2.isNone).length * element % 2 ^ 64
        runs := plan.forEachRun.length },
        LayoutRun.writeAll plan.forEachRun element total staging) := by
  have hfront : (staging.take stats.destinationBytes).length =
      stats.destinationBytes := by
    rw [List.length_take, Nat.min_eq_left hroom]
  rw [← hfront] at hfits
  rw [moveWhole, LayoutPlan.apply_eq hsource (hfront.trans hasked) hfits,
    except_ok_bind, ← LayoutRun.writeAll_append hfits, List.take_append_drop]

theorem fits_of_moveWhole {total : Bytes}
    (hroom : stats.destinationBytes ≤ staging.length)
    {moved : FillStats × Bytes}
    (h : moveWhole total plan element stats staging = .ok moved) :
    plan.Fits element total.length stats.destinationBytes := by
  rw [moveWhole, except_bind_eq_ok] at h
  obtain ⟨_, happly, _⟩ := h
  have hinside := (LayoutPlan.fits_of_apply happly).2
  rwa [List.length_take, Nat.min_eq_left hroom] at hinside

theorem move_contiguous (stats : FillStats) (hone : source.contiguous =
      some source.chunks.flatten)
    (hsource : source.chunks.flatten.length =
      plan.sourceElements * element % 2 ^ 64)
    (hexact : staging.length = plan.destElements * element % 2 ^ 64)
    (hfits : plan.Fits element source.chunks.flatten.length staging.length) :
    source.move plan element stats staging =
      .ok ({ plan.forEachRun.foldl (LayoutRun.count element) stats with
        chunks := 1 },
        LayoutRun.writeAll plan.forEachRun element source.chunks.flatten
          staging) := by
  rw [move, hone]
  simp only [LayoutPlan.apply_eq hsource hexact hfits, except_ok_bind]

theorem fits_of_move_contiguous (hone : source.contiguous =
      some source.chunks.flatten) {moved : FillStats × Bytes}
    (h : source.move plan element stats staging = .ok moved) :
    staging.length = plan.destElements * element % 2 ^ 64 ∧
      plan.Fits element source.chunks.flatten.length staging.length := by
  rw [move, hone, except_bind_eq_ok] at h
  obtain ⟨_, happly, _⟩ := h
  exact LayoutPlan.fits_of_apply happly

theorem move_scattered (hmany : source.contiguous = none) :
    source.move plan element stats staging =
      plan.forEachRun.foldlM (source.moveRun element) (stats, staging) := by
  rw [move, hmany]

/-- Moving through the chunks is moving the concatenation exactly where the cut
does not show. -/
theorem move_alike_iff (stats : FillStats) (htotal : source.chunks.flatten.length < 2 ^ 64)
    (hsource : source.chunks.flatten.length =
      plan.sourceElements * element % 2 ^ 64)
    (hasked : stats.destinationBytes = plan.destElements * element % 2 ^ 64)
    (hpadding : stats.paddingBytes = 0) (hruns : stats.runs = 0)
    (hroom : stats.destinationBytes ≤ staging.length) :
    Alike SameMove (source.move plan element stats staging)
        (moveWhole source.chunks.flatten plan element stats staging) ↔
      source.Uniform plan element stats.destinationBytes staging.length := by
  cases hchunks : source.contiguous with
  | some whole =>
      obtain ⟨hone, rfl⟩ := length_contiguous hchunks
      rw [Uniform, if_pos hone]
      by_cases hfits : plan.Fits element source.chunks.flatten.length
          stats.destinationBytes
      · have hwhole := moveWhole_eq hsource hasked hroom hfits
        constructor
        · intro halike
          obtain ⟨moved, hmoved⟩ := halike.ok_iff.mpr ⟨_, hwhole⟩
          exact .inl ((fits_of_move_contiguous hchunks hmoved).1.trans
            hasked.symm)
        · intro huniform
          have hexact := huniform.resolve_right (not_not_intro hfits)
          rw [← hexact] at hfits
          have hmoved := move_contiguous stats hchunks hsource
            (hexact.trans hasked) hfits
          exact .of_ok hmoved hwhole
            ⟨rfl, counted_same hpadding hruns 1 stats.chunks⟩
      · refine iff_of_true (.of_error (fun moved hmoved => ?_)
          fun moved hmoved => hfits (fits_of_moveWhole hroom hmoved))
          (.inr hfits)
        obtain ⟨hexact, hinside⟩ := fits_of_move_contiguous hchunks hmoved
        rw [hexact, ← hasked] at hinside
        exact hfits hinside
  | none =>
      rw [Uniform, if_neg (length_ne_one hchunks), move_scattered hchunks]
      by_cases hlonger : plan.Fits element source.chunks.flatten.length
          staging.length
      · obtain ⟨touched, hmoved⟩ :=
          foldlM_moveRun stats htotal hlonger
        by_cases hfits : plan.Fits element source.chunks.flatten.length
            stats.destinationBytes
        · have hwhole := moveWhole_eq hsource hasked hroom hfits
          exact iff_of_true (.of_ok hmoved hwhole
            ⟨rfl, counted_same hpadding hruns touched stats.chunks⟩)
            (.inr fun _ => hfits)
        · refine iff_of_false (fun halike => ?_) (fun huniform => ?_)
          · obtain ⟨moved, hok⟩ := halike.ok_iff.mp ⟨_, hmoved⟩
            exact hfits (fits_of_moveWhole hroom hok)
          · rcases huniform with hexact | himplies
            · rw [hexact] at hlonger
              exact hfits hlonger
            · exact hfits (himplies hlonger)
      · refine iff_of_true (.of_error (fun moved hmoved => ?_)
          fun moved hmoved =>
            hlonger ((fits_of_moveWhole hroom hmoved).mono hroom))
          (.inr fun h => absurd h hlonger)
        exact hlonger (fits_of_foldlM_moveRun htotal hmoved)

end ChunkedSource

/-! Whole fills. -/

section Fill

variable {σ : Type}

def LayoutPlan.destinationBytes (plan : LayoutPlan) (tensor : TensorFill) :
    Nat := plan.destElements * tensor.elementBytes.toNat % 2 ^ 64

/-- Wherever the fill comes to ask for staging, the cut does not show. -/
def TensorFill.Uniform (tensor : TensorFill) (source : ChunkedSource)
    (plan : LayoutPlan) (sink : FillSink σ) (state : σ) : Prop :=
  tensor.candidate = false → tensor.elementBytes.toNat ≠ 0 →
    ∀ next buffer,
      sink.staging state (plan.destinationBytes tensor) tensor.deviceOffset =
        .ok (next, buffer) →
      source.Uniform plan tensor.elementBytes.toNat
        (plan.destinationBytes tensor) buffer.length

variable {sink : FillSink σ} {state : σ} {tensor : TensorFill}
  {plan : LayoutPlan} {source : ChunkedSource}

/-- What a commit is given decides what it leaves. -/
theorem commit_alike {x y : Except (Failure LayoutError) (FillStats × Bytes)}
    (h : Alike ChunkedSource.SameMove x y)
    (commit : Bytes → Except (Failure LayoutError) σ) :
    Alike Filled.Same
      (x.mapError layoutFailure >>= fun moved =>
        (commit moved.2).mapError layoutFailure >>= fun state =>
          .ok ⟨moved.1, moved.2, state⟩)
      (y.mapError layoutFailure >>= fun moved =>
        (commit moved.2).mapError layoutFailure >>= fun state =>
          .ok ⟨moved.1, moved.2, state⟩) := by
  refine (alike_mapError.mpr h).bind fun left right hsame => ?_
  rw [hsame.1]
  refine alike_bind.mpr fun state _ => ?_
  exact ⟨rfl, rfl, hsame.2⟩

theorem alike_of_commit (state : σ)
    {x y : Except (Failure LayoutError) (FillStats × Bytes)}
    (h : Alike Filled.Same
      (x.mapError layoutFailure >>= fun moved =>
        .ok ⟨moved.1, moved.2, state⟩)
      (y.mapError layoutFailure >>= fun moved =>
        .ok ⟨moved.1, moved.2, state⟩)) :
    Alike ChunkedSource.SameMove x y := by
  cases x with
  | error e =>
    cases y with
    | error e => trivial
    | ok b => cases h
  | ok a =>
    cases y with
    | error e => cases h
    | ok b => exact ⟨h.1, h.2.2⟩

/-- Up to its staging a fill runs the same for every way to move. -/
theorem fillWith_alike_iff {len : Nat}
    {left right : LayoutPlan → Nat → FillStats → Bytes →
      Except (Failure LayoutError) (FillStats × Bytes)}
    (hplan : tensor.layout.plan tensor.shape = .ok plan)
    (hlen : len = plan.sourceElements * tensor.elementBytes.toNat % 2 ^ 64) :
    (∀ commit, Alike Filled.Same
        (fillWith len left tensor { sink with commit := commit } state)
        (fillWith len right tensor { sink with commit := commit } state)) ↔
      (tensor.candidate = false → tensor.elementBytes.toNat ≠ 0 →
        ∀ next buffer,
          sink.staging state (plan.destinationBytes tensor)
            tensor.deviceOffset = .ok (next, buffer) →
          Alike ChunkedSource.SameMove
            (left plan tensor.elementBytes.toNat
              ⟨len, plan.destinationBytes tensor, 0, 0, 0⟩ buffer)
            (right plan tensor.elementBytes.toNat
              ⟨len, plan.destinationBytes tensor, 0, 0, 0⟩ buffer)) := by
  subst hlen
  simp only [fillWith, alike_bind, refusing_eq_ok, ensure_eq_ok, hplan,
    mapError_eq_ok, Except.ok.injEq, forall_eq', forall_const,
    LayoutPlan.destinationBytes, Prod.forall]
  constructor
  · intro h hcandidate helement next buffer hstaging
    exact alike_of_commit next
      (h (fun state _ => .ok state) hcandidate helement next buffer hstaging)
  · intro h commit hcandidate helement next buffer hstaging
    exact commit_alike (h hcandidate helement next buffer hstaging)
      (commit next)

/-- With a sink that honours its contract, filling from the chunks is filling
from their concatenation exactly where the cut does not show; a checked record
whose destination fits a buffer stays inside what was asked for. -/
theorem fill_chunking_iff (hhonours : sink.Honours)
    (hplan : tensor.layout.plan tensor.shape = .ok plan)
    (hlength : source.chunks.flatten.length =
      plan.sourceElements * tensor.elementBytes.toNat % 2 ^ 64) :
    ((∀ commit, Alike Filled.Same
        (fill source tensor { sink with commit := commit } state)
        (fillWhole source.chunks.flatten tensor
          { sink with commit := commit } state)) ↔
      tensor.Uniform source plan sink state) ∧
    ∀ factors, tensor.layout.check = .ok () →
      tensor.layout.factors tensor.shape = .ok factors →
      0 < tensor.elementBytes.toNat →
      (factors.map Prod.snd).prod * tensor.elementBytes.toNat < 2 ^ 63 →
      plan.Fits tensor.elementBytes.toNat source.chunks.flatten.length
        (plan.destinationBytes tensor) := by
  have htotal : source.chunks.flatten.length < 2 ^ 64 := by
    rw [hlength]
    exact Nat.mod_lt _ (by norm_num)
  refine ⟨?_, fun factors hcheck hfactors helement hsmall =>
    LayoutMorphism.plan_fits hcheck hplan hfactors helement hsmall hlength⟩
  rw [fill, fillWhole, ChunkedSource.len_eq htotal,
    fillWith_alike_iff hplan hlength]
  constructor
  · intro h hcandidate helement next buffer hstaging
    have hroom := hhonours _ _ _ _ _ hstaging
    exact (ChunkedSource.move_alike_iff
      ⟨_, plan.destinationBytes tensor, 0, 0, 0⟩ htotal hlength rfl rfl rfl
      hroom).mp
      (h hcandidate helement next buffer hstaging)
  · intro h hcandidate helement next buffer hstaging
    have hroom := hhonours _ _ _ _ _ hstaging
    exact (ChunkedSource.move_alike_iff
      ⟨_, plan.destinationBytes tensor, 0, 0, 0⟩ htotal hlength rfl rfl rfl
      hroom).mpr
      (h hcandidate helement next buffer hstaging)

end Fill

/-! Sinks. -/

/-- Host memory, and the range handed out of it. -/
structure HostSink where
  buffer : Bytes
  pending : Option (Nat × Nat)

def hostSink : FillSink HostSink where
  staging host bytes offset :=
    let start := offset.toNat
    if host.buffer.length < (start + bytes) % 2 ^ 64 then
      .error (.refused
        (.buffer host.buffer.length ((start + bytes) % 2 ^ 64)))
    else do
      let staging ← LayoutPlan.slice host.buffer start bytes
      .ok ({ host with pending := some (start, bytes) }, staging)
  commit host staged :=
    .ok ⟨patch host.buffer ((host.pending.map Prod.fst).getD 0) staged, none⟩

/-- Host memory is handed out exactly as asked for, so no cut shows in it. -/
theorem hostSink_uniform (tensor : TensorFill) (source : ChunkedSource)
    (plan : LayoutPlan) (host : HostSink) :
    tensor.Uniform source plan hostSink host := by
  intro _ _ next buffer hstaging
  simp only [hostSink] at hstaging
  split at hstaging
  · cases hstaging
  · rw [except_bind_eq_ok] at hstaging
    obtain ⟨staging, hslice, hnext⟩ := hstaging
    cases hnext
    unfold LayoutPlan.slice at hslice
    split at hslice
    · cases hslice
      left
      rw [List.length_take, List.length_drop]
      omega
    · cases hslice

namespace SlabFill

/-- A sink that hands back its whole slab when the request fits. -/
def slabSink : FillSink Bytes where
  staging slab bytes _ :=
    if bytes ≤ slab.length then .ok (slab, slab)
    else .error (.refused (.buffer slab.length bytes))
  commit _ staged := .ok staged

theorem slabSink_honours : slabSink.Honours := by
  intro slab bytes _ next buffer hstaging
  simp only [slabSink] at hstaging
  split at hstaging
  · cases hstaging
    assumption
  · cases hstaging

def tensor : TensorFill where
  layout := LayoutMorphism.transposedRecord
  candidate := false
  shape := [2, 3]
  elementBytes := 2
  deviceOffset := 0

def bytes : Bytes := [0, 1, 2, 3, 4, 5, 6, 7, 8, 9, 10, 11]

def slab : Bytes := List.replicate 16 0

/-- The second element of the second chunk straddles the cut. -/
def halves : ChunkedSource := ⟨[bytes.take 5, bytes.drop 5]⟩

end SlabFill

open SlabFill in
/-- Handed a longer buffer, the fill of the one chunk is refused where the same
bytes in two chunks are filled. -/
theorem fill_refuses_long_staging :
    slabSink.Honours ∧
      fill ⟨[bytes]⟩ tensor slabSink slab =
        .error (.refused (.layout (.buffer 16 12))) ∧
      fill halves tensor slabSink slab =
        .ok ⟨⟨12, 12, 0, 6, 7⟩,
          [0, 1, 6, 7, 2, 3, 8, 9, 4, 5, 10, 11, 0, 0, 0, 0],
          [0, 1, 6, 7, 2, 3, 8, 9, 4, 5, 10, 11, 0, 0, 0, 0]⟩ ∧
      ¬ Alike Filled.Same (fill ⟨[bytes]⟩ tensor slabSink slab)
        (fillWhole bytes tensor slabSink slab) := by
  refine ⟨slabSink_honours, by decide +kernel, by decide +kernel, ?_⟩
  have hrefused : fill ⟨[bytes]⟩ tensor slabSink slab =
      .error (.refused (.layout (.buffer 16 12))) := by decide +kernel
  have hfilled : ∃ filled, fillWhole bytes tensor slabSink slab = .ok filled :=
    ⟨⟨⟨12, 12, 0, 6, 0⟩,
      [0, 1, 6, 7, 2, 3, 8, 9, 4, 5, 10, 11, 0, 0, 0, 0],
      [0, 1, 6, 7, 2, 3, 8, 9, 4, 5, 10, 11, 0, 0, 0, 0]⟩, by decide +kernel⟩
  intro halike
  obtain ⟨filled, hfill⟩ := halike.ok_iff.mpr hfilled
  rw [hrefused] at hfill
  cases hfill

open SlabFill in
theorem fill_chunking_halves :
    Alike Filled.Same (fill halves tensor slabSink slab)
      (fillWhole halves.chunks.flatten tensor slabSink slab) := by
  obtain ⟨huniform, hfits⟩ := @fill_chunking_iff Bytes slabSink slab tensor
    LayoutMorphism.transposedPlan halves slabSink_honours (by decide)
    (by decide)
  have hinside := hfits [(0, 2), (1, 3)] (by decide) (by decide) (by decide)
    (by decide)
  exact huniform.mpr (fun _ _ _ _ _ => .inr fun _ => hinside) slabSink.commit

end TensorFS
