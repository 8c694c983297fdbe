import Mathlib

namespace TensorFS.Data

/-! Sized pieces, laid end to end. -/

variable {α : Type} {size : α → Nat} {piece : α}
  {pieces other front back run : List α} {start length position : Nat}

/-- The summed sizes. -/
def span (size : α → Nat) (pieces : List α) : Nat := (pieces.map size).sum

@[simp] theorem span_nil : span size [] = 0 := rfl

@[simp] theorem span_cons :
    span size (piece :: pieces) = size piece + span size pieces := rfl

@[simp] theorem span_append :
    span size (front ++ back) = span size front + span size back := by
  simp [span]

/-- Some of the first pieces end exactly at the position. -/
def AtBorder (size : α → Nat) (pieces : List α) (position : Nat) : Prop :=
  ∃ front back, pieces = front ++ back ∧ span size front = position

/-- The position lies strictly inside one piece. -/
def InsidePiece (size : α → Nat) (pieces : List α) (position : Nat) : Prop :=
  ∃ front piece back, pieces = front ++ piece :: back ∧
    span size front < position ∧ position < span size front + size piece

/-- The run is consecutive whole pieces, from `start` on and of the given
length. -/
def WholePieces (size : α → Nat) (pieces : List α) (start length : Nat)
    (run : List α) : Prop :=
  ∃ front back, pieces = front ++ run ++ back ∧ span size front = start ∧
    span size run = length

/-! Borders. -/

theorem atBorder_nil : AtBorder size [] position ↔ position = 0 := by
  constructor
  · intro h
    obtain ⟨front, back, hsplit, rfl⟩ := h
    rw [(List.append_eq_nil_iff.mp hsplit.symm).1, span_nil]
  · intro h
    subst h
    exact ⟨[], [], rfl, rfl⟩

theorem atBorder_cons : AtBorder size (piece :: pieces) position ↔
    position = 0 ∨
      (size piece ≤ position ∧ AtBorder size pieces (position - size piece)) := by
  constructor
  · intro h
    obtain ⟨front, back, hsplit, rfl⟩ := h
    cases front with
    | nil => exact .inl rfl
    | cons head front =>
        cases hsplit
        rw [span_cons]
        exact .inr ⟨by omega, front, back, rfl, by omega⟩
  · intro h
    rcases h with rfl | ⟨hle, front, back, rfl, hfront⟩
    · exact ⟨[], piece :: pieces, rfl, rfl⟩
    · exact ⟨piece :: front, back, rfl, by rw [span_cons]; omega⟩

theorem insidePiece_cons : InsidePiece size (piece :: pieces) position ↔
    (0 < position ∧ position < size piece) ∨
      (size piece < position ∧
        InsidePiece size pieces (position - size piece)) := by
  constructor
  · intro h
    obtain ⟨front, inner, back, hsplit, hbehind, hbefore⟩ := h
    cases front with
    | nil =>
        cases hsplit
        rw [span_nil] at hbehind hbefore
        exact .inl ⟨hbehind, by omega⟩
    | cons head front =>
        cases hsplit
        rw [span_cons] at hbehind hbefore
        exact .inr ⟨by omega, front, inner, back, rfl, by omega, by omega⟩
  · intro h
    rcases h with ⟨hpos, hlt⟩ | ⟨hlt, front, inner, back, rfl, hbehind, hbefore⟩
    · exact ⟨[], piece, pieces, rfl, hpos, by rw [span_nil]; omega⟩
    · refine ⟨piece :: front, inner, back, rfl, ?_, ?_⟩
      · rw [span_cons]
        omega
      · rw [span_cons]
        omega

theorem not_insidePiece_nil : ¬ InsidePiece size [] position := by
  intro h
  obtain ⟨front, inner, back, hsplit, -⟩ := h
  exact absurd hsplit.symm (by simp)

/-- A position that is no border is inside a piece, and the other way round. -/
theorem insidePiece_iff (h : position ≤ span size pieces) :
    InsidePiece size pieces position ↔ ¬ AtBorder size pieces position := by
  induction pieces generalizing position with
  | nil =>
      rw [span_nil, Nat.le_zero] at h
      exact iff_of_false not_insidePiece_nil
        (not_not_intro (atBorder_nil.mpr h))
  | cons piece pieces ih =>
      rw [span_cons] at h
      have hrest := @ih (position - size piece) (by omega)
      rw [insidePiece_cons, atBorder_cons, hrest]
      by_cases hborder : AtBorder size pieces (position - size piece)
      · simp only [hborder, not_true_eq_false, and_false, or_false, and_true,
          not_or, not_le]
        omega
      · have hne : position ≠ size piece := by
          intro h
          subst h
          rw [Nat.sub_self] at hborder
          exact hborder ⟨[], pieces, rfl, rfl⟩
        simp only [hborder, not_false_eq_true, and_true, and_false, or_false]
        omega

/-! Runs of whole pieces. -/

theorem WholePieces.span_eq (h : WholePieces size pieces start length run) :
    span size run = length := by
  obtain ⟨-, -, -, -, hrun⟩ := h
  exact hrun

theorem WholePieces.opens (h : WholePieces size pieces start length run) :
    AtBorder size pieces start := by
  obtain ⟨front, back, rfl, hfront, -⟩ := h
  exact ⟨front, run ++ back, List.append_assoc .., hfront⟩

theorem WholePieces.closes (h : WholePieces size pieces start length run) :
    AtBorder size pieces (start + length) := by
  obtain ⟨front, back, rfl, rfl, rfl⟩ := h
  exact ⟨front ++ run, back, rfl, span_append⟩

/-- Between two borders lies a run of whole pieces. -/
theorem wholePieces_of_borders (hstart : AtBorder size pieces start)
    (hstop : AtBorder size pieces (start + length)) :
    ∃ run, WholePieces size pieces start length run := by
  obtain ⟨front, rest, rfl, hfront⟩ := hstart
  obtain ⟨reach, back, hsplit, hreach⟩ := hstop
  rcases List.append_eq_append_iff.mp hsplit with
    ⟨run, rfl, rfl⟩ | ⟨extra, rfl, rfl⟩
  · rw [span_append] at hreach
    exact ⟨run, front, back, (List.append_assoc ..).symm, hfront, by omega⟩
  · rw [span_append] at hfront
    refine ⟨[], reach ++ extra, rest, by rw [List.append_nil], ?_, ?_⟩
    · rw [span_append, hfront]
    · rw [span_nil]
      omega

theorem exists_wholePieces :
    (∃ run, WholePieces size pieces start length run) ↔
      AtBorder size pieces start ∧ AtBorder size pieces (start + length) :=
  ⟨fun ⟨_, h⟩ => ⟨h.opens, h.closes⟩,
    fun ⟨hstart, hstop⟩ => wholePieces_of_borders hstart hstop⟩

/-- Within the pieces, what is no run of whole ones starts or stops inside
one. -/
theorem not_wholePieces (h : start + length ≤ span size pieces) :
    (¬ ∃ run, WholePieces size pieces start length run) ↔
      InsidePiece size pieces start ∨
        InsidePiece size pieces (start + length) := by
  rw [exists_wholePieces, insidePiece_iff (by omega), insidePiece_iff h]
  exact Classical.not_and_iff_not_or_not

/-! The pieces walked one by one; none is empty. -/

theorem wholePieces_zero (hpos : ∀ piece ∈ pieces, 0 < size piece) :
    WholePieces size pieces 0 length run ↔
      ∃ back, pieces = run ++ back ∧ span size run = length := by
  constructor
  · intro h
    obtain ⟨front, back, rfl, hfront, hrun⟩ := h
    cases front with
    | nil => exact ⟨back, rfl, hrun⟩
    | cons head front =>
        have hhead := hpos head (by simp)
        rw [span_cons] at hfront
        omega
  · intro h
    obtain ⟨back, hsplit, hrun⟩ := h
    exact ⟨[], back, hsplit, rfl, hrun⟩

theorem span_eq_zero (hpos : ∀ piece ∈ pieces, 0 < size piece)
    (h : span size pieces = 0) : pieces = [] := by
  cases pieces with
  | nil => rfl
  | cons piece pieces =>
      have hpiece := hpos piece List.mem_cons_self
      rw [span_cons] at h
      omega

theorem wholePieces_empty (hpos : ∀ piece ∈ pieces, 0 < size piece) :
    WholePieces size pieces 0 0 run ↔ run = [] := by
  rw [wholePieces_zero hpos]
  constructor
  · intro h
    obtain ⟨back, rfl, hrun⟩ := h
    exact span_eq_zero
      (fun piece hmem => hpos piece (List.mem_append_left back hmem)) hrun
  · intro h
    subst h
    exact ⟨pieces, rfl, rfl⟩

theorem wholePieces_take (hpos : ∀ other ∈ piece :: pieces, 0 < size other)
    (hlength : 0 < length) (h : size piece ≤ length) :
    WholePieces size (piece :: pieces) 0 length run ↔
      ∃ rest, WholePieces size pieces 0 (length - size piece) rest ∧
        piece :: rest = run := by
  have hrest := (List.forall_mem_cons.mp hpos).2
  rw [wholePieces_zero hpos]
  constructor
  · intro h
    obtain ⟨back, hsplit, hrun⟩ := h
    cases run with
    | nil =>
        rw [span_nil] at hrun
        omega
    | cons head run =>
        cases hsplit
        rw [span_cons] at hrun
        exact ⟨run, (wholePieces_zero hrest).mpr ⟨back, rfl, by omega⟩, rfl⟩
  · intro h
    obtain ⟨rest, hwhole, rfl⟩ := h
    obtain ⟨back, rfl, hspan⟩ := (wholePieces_zero hrest).mp hwhole
    exact ⟨back, rfl, by rw [span_cons]; omega⟩

theorem not_wholePieces_short
    (hpos : ∀ other ∈ piece :: pieces, 0 < size other)
    (hlength : 0 < length) (h : length < size piece) :
    ¬ WholePieces size (piece :: pieces) 0 length run := by
  rw [wholePieces_zero hpos]
  intro h
  obtain ⟨back, hsplit, hrun⟩ := h
  cases run with
  | nil =>
      rw [span_nil] at hrun
      omega
  | cons head run =>
      cases hsplit
      rw [span_cons] at hrun
      omega

theorem wholePieces_skip (h : size piece ≤ start) (hstart : 0 < start) :
    WholePieces size (piece :: pieces) start length run ↔
      WholePieces size pieces (start - size piece) length run := by
  constructor
  · intro h
    obtain ⟨front, back, hsplit, hfront, hrun⟩ := h
    cases front with
    | nil =>
        rw [span_nil] at hfront
        omega
    | cons head front =>
        cases hsplit
        rw [span_cons] at hfront
        exact ⟨front, back, rfl, by omega, hrun⟩
  · intro h
    obtain ⟨front, back, rfl, hfront, hrun⟩ := h
    exact ⟨piece :: front, back, rfl, by rw [span_cons]; omega, hrun⟩

theorem not_wholePieces_inside (hstart : 0 < start) (h : start < size piece) :
    ¬ WholePieces size (piece :: pieces) start length run := by
  intro h
  obtain ⟨front, back, hsplit, hfront, -⟩ := h
  cases front with
  | nil =>
      rw [span_nil] at hfront
      omega
  | cons head front =>
      cases hsplit
      rw [span_cons] at hfront
      omega

end TensorFS.Data
