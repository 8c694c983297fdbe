import TensorFS.Adapter.Decide
import TensorFS.Data.Cells
import TensorFS.Data.Radix

namespace TensorFS

open Data Data.Radix

/-! Moving the elements of a tensor. -/

namespace Adapter

def dot (counter strides : List Nat) : Nat :=
  (List.zipWith (· * ·) counter strides).sum

/-- Copies one span a round from where the odometer stands; `none` where a
slice leaves its buffer or the rounds run out. -/
def permuteLoop (input : Bytes) (elementSize span : Nat)
    (radices strides : List Nat) : Nat → List Nat → Bytes → Option Bytes
  | 0, _, _ => none
  | rounds + 1, counter, output =>
      if dot counter strides * elementSize + span ≤ input.length ∧
          output.length + span ≤ input.length then
        if output.length + span = input.length then
          some (output ++
            (input.drop (dot counter strides * elementSize)).take span)
        else
          permuteLoop input elementSize span radices strides rounds
            (step radices counter).1
            (output ++
              (input.drop (dot counter strides * elementSize)).take span)
      else none

/-- A whole row moves at once where the innermost axis stays innermost. -/
def rowBlock (dims axes : List Nat) : Nat :=
  if axes.getLast? = some (dims.length - 1) ∧ dims ≠ [] then
    dims.getLastD 1
  else 1

def outerAxes (dims axes : List Nat) : Nat :=
  if 1 < rowBlock dims axes then dims.length - 1 else dims.length

/-- Re-arranges a row-major tensor of these dimensions; the axes of the result
are the listed axes of the input. -/
def permuteBytes (input : Bytes) (elementSize : Nat)
    (dims axes : List Nat) : Option Bytes :=
  permuteLoop input elementSize (rowBlock dims axes * elementSize)
    ((reorder axes dims).take (outerAxes dims axes))
    ((reorder axes (weights dims)).take (outerAxes dims axes))
    (input.length + 1) (List.replicate (outerAxes dims axes) 0) []

/-- The permutation that undoes `axes`. -/
def invertAxes (axes : List Nat) : List Nat :=
  axes.zipIdx.foldl (fun inverse slot => inverse.set slot.1 slot.2)
    (List.replicate axes.length 0)

end Adapter

/-- Applies the transform to one tensor's bytes; the shape is that of the side
the bytes are on.  The outer result is the permute's fit, the inner one the
walk. -/
def Transform.apply (transform : Transform) (bytes : Bytes)
    (elementSize : Nat) (shape : List UInt64) : Option (Option Bytes) :=
  match transform with
  | .identity => some (some bytes)
  | .forward permute => do
      let dims ← permute.resolve shape
      some (Adapter.permuteBytes bytes elementSize dims permute.axes)
  | .inverse permute => do
      let dims ← permute.resolve shape
      some (Adapter.permuteBytes bytes elementSize
        (reorder permute.axes dims) (Adapter.invertAxes permute.axes))

/-! What a view resolves to. -/

theorem prod_set_one {dims : List Nat} {index : Nat}
    (h : dims[index]? = some 1) (value : Nat) :
    (dims.set index value).prod = dims.prod * value := by
  obtain ⟨hlt, hone⟩ := List.getElem?_eq_some_iff.mp h
  conv_rhs => rw [← List.take_append_drop index dims,
    ← List.getElem_cons_drop hlt, hone]
  rw [List.prod_set, if_pos hlt, List.prod_append, List.prod_cons]
  ring

namespace Permute

theorem resolveView_spec {shape : List UInt64} {view : List Dim}
    {index known total : Nat} {auto found : Option Nat} {resolved : List Nat}
    (h : resolveView shape index auto known view =
      some (resolved, found, total)) :
    resolved.length = view.length ∧ total = known * resolved.prod ∧
      (found = auto ∨ ∃ place, found = some (index + place) ∧
        resolved[place]? = some 1) := by
  induction view generalizing index known auto resolved with
  | nil =>
      cases h
      exact ⟨rfl, (Nat.mul_one _).symm, .inl rfl⟩
  | cons dim view ih =>
      simp only [resolveView, Option.bind_eq_bind,
        Option.bind_eq_some_iff] at h
      obtain ⟨value, hvalue, h⟩ := h
      split at h
      · cases h
      · split at h
        · cases h
        · simp only [Option.bind_eq_some_iff, checkedMul_eq_some] at h
          obtain ⟨next, ⟨rfl, -⟩, ⟨rest, seen, sum⟩, hrest, h⟩ := h
          cases h
          obtain ⟨hlength, htotal, hauto⟩ := ih hrest
          refine ⟨congrArg (· + 1) hlength, ?_, ?_⟩
          · rw [htotal, List.prod_cons, Nat.mul_assoc]
          · rcases hauto with heq | ⟨place, heq, hone⟩
            · split at heq
              · rename_i hdim
                rw [hdim] at hvalue
                cases hvalue
                exact .inr ⟨0, heq, rfl⟩
              · exact .inl heq
            · refine .inr ⟨place + 1, ?_, hone⟩
              rw [heq, Nat.add_right_comm, Nat.add_assoc]

/-- A view spells as many elements as the shape. -/
theorem resolve_spec {permute : Permute} {shape : List UInt64}
    {dims : List Nat} (h : permute.resolve shape = some dims) :
    dims.length = permute.view.length ∧
      dims.prod = (shape.map UInt64.toNat).prod := by
  simp only [resolve, Option.bind_eq_bind, Option.bind_eq_some_iff] at h
  obtain ⟨elements, helements, ⟨resolved, auto, known⟩, hview, h⟩ := h
  have hproduct := checkedProduct_eq helements
  rw [Nat.one_mul] at hproduct
  obtain ⟨hlength, hknown, hauto⟩ := resolveView_spec hview
  rw [Nat.one_mul] at hknown
  cases auto with
  | none =>
      simp only at h
      split at h
      · rename_i heq
        cases h
        exact ⟨hlength, by rw [← hknown, heq, hproduct]⟩
      · cases h
  | some index =>
      simp only at h
      split at h
      · cases h
      · rename_i hdivides
        cases h
        rw [not_or, not_not] at hdivides
        rcases hauto with heq | ⟨place, heq, hone⟩
        · cases heq
        · rw [Nat.zero_add, Option.some.injEq] at heq
          subst heq
          refine ⟨by rw [List.length_set, hlength], ?_⟩
          rw [prod_set_one hone, ← hknown,
            Nat.mul_div_cancel' hdivides.2, hproduct]

theorem resolve_lt {permute : Permute} {shape : List UInt64}
    {dims : List Nat} (h : permute.resolve shape = some dims) :
    dims.prod < 2 ^ 64 := by
  rw [(resolve_spec h).2]
  simp only [resolve, Option.bind_eq_bind, Option.bind_eq_some_iff] at h
  obtain ⟨elements, helements, -⟩ := h
  have hproduct := checkedProduct_eq helements
  rw [Nat.one_mul] at hproduct
  rw [← hproduct]
  exact checkedProduct_lt (by decide) helements

end Permute

namespace Adapter

variable {input output : Bytes} {elementSize span block rounds k : Nat}
  {radices strides dims axes : List Nat}

/-- The element of the input that lands at a position of the output. -/
def target (radices strides : List Nat) (block position : Nat) : Nat :=
  dot (digits radices (position / block)) strides + position % block

theorem permuteLoop_spec (hblock : 0 < block) (hsize : 0 < elementSize)
    (hlength : input.length = radices.prod * (block * elementSize))
    (hinside : ∀ k < radices.prod,
      dot (digits radices k) strides + block ≤ radices.prod * block)
    (hk : k < radices.prod) (hrounds : radices.prod ≤ k + rounds)
    (houtput : output.length = k * (block * elementSize))
    (hcells : ∀ position < k * block,
      cell elementSize output position =
        cell elementSize input (target radices strides block position)) :
    ∃ moved, permuteLoop input elementSize (block * elementSize) radices
        strides rounds (digits radices k) output = some moved ∧
      moved.length = input.length ∧
      ∀ position < radices.prod * block,
        cell elementSize moved position =
          cell elementSize input (target radices strides block position) := by
  induction rounds generalizing k output with
  | zero => omega
  | succ rounds ih =>
      have hspan : (k + 1) * (block * elementSize) ≤
          radices.prod * (block * elementSize) :=
        Nat.mul_le_mul_right _ hk
      have hstart : dot (digits radices k) strides * elementSize +
          block * elementSize ≤ input.length := by
        rw [hlength, ← Nat.mul_assoc, ← Nat.add_mul]
        exact Nat.mul_le_mul_right _ (hinside k hk)
      rw [Nat.add_mul, Nat.one_mul] at hspan
      have hnew : ((input.drop
          (dot (digits radices k) strides * elementSize)).take
            (block * elementSize)).length = block * elementSize := by
        rw [List.length_take, List.length_drop]
        omega
      have hall : ∀ position < (k + 1) * block,
          cell elementSize (output ++ (input.drop
              (dot (digits radices k) strides * elementSize)).take
                (block * elementSize)) position =
            cell elementSize input
              (target radices strides block position) := by
        intro position hposition
        rw [Nat.add_mul, Nat.one_mul] at hposition
        by_cases hbefore : position < k * block
        · rw [cell_append_left, hcells position hbefore]
          rw [houtput, ← Nat.mul_assoc]
          exact Nat.mul_le_mul_right _ hbefore
        · obtain ⟨offset, rfl⟩ := Nat.exists_eq_add_of_le (not_lt.mp hbefore)
          have hoffset : offset < block := by omega
          rw [cell_append_right (by rw [houtput, Nat.mul_assoc]),
            cell_slice hoffset, target, Nat.add_comm (k * block),
            Nat.add_mul_div_right _ _ hblock, Nat.div_eq_of_lt hoffset,
            Nat.zero_add, Nat.add_mul_mod_self_right,
            Nat.mod_eq_of_lt hoffset]
      rw [permuteLoop, if_pos ⟨hstart, by omega⟩]
      by_cases hlast : k + 1 = radices.prod
      · have hend : output.length + block * elementSize = input.length := by
          rw [houtput, hlength, ← hlast, Nat.add_mul, Nat.one_mul]
        rw [if_pos hend]
        refine ⟨_, rfl, ?_, ?_⟩
        · rw [List.length_append, hnew, hend]
        · rw [← hlast]
          exact hall
      · have hmore : (k + 2) * (block * elementSize) ≤
            radices.prod * (block * elementSize) :=
          Nat.mul_le_mul_right _ (by omega)
        have hpos : 0 < block * elementSize := Nat.mul_pos hblock hsize
        rw [Nat.add_mul] at hmore
        rw [if_neg (by omega), step_digits hk, if_pos (by omega)]
        refine ih (by omega) (by omega) ?_ hall
        rw [List.length_append, hnew, houtput, Nat.add_mul, Nat.one_mul]

theorem dot_append {front back : List Nat} {heads tails : List Nat}
    (h : front.length = heads.length) :
    dot (front ++ back) (heads ++ tails) = dot front heads + dot back tails := by
  rw [dot, List.zipWith_append h, List.sum_append, dot, dot]

theorem length_reorder (order radices : List Nat) :
    (reorder order radices).length = order.length := by
  simp [reorder]

theorem reorder_concat (front : List Nat) (last : Nat) (radices : List Nat) :
    reorder (front ++ [last]) radices =
      reorder front radices ++ [radices.getD last 0] := by
  rw [reorder, List.map_append, List.map_singleton, reorder]

/-- Reading digits in `axes` order weighs each by the stride of its axis. -/
theorem gather_eq_dot (h : IsOrder axes) (hlength : axes.length = dims.length)
    (position : Nat) :
    gather axes dims position =
      dot (digits (reorder axes dims) position)
        (reorder axes (weights dims)) := by
  have hdigits : (digits (reorder axes dims) position).length =
      axes.length := by
    rw [length_digits, length_reorder]
  rw [gather, dot]
  generalize digits (reorder axes dims) position = ds at hdigits ⊢
  have hzip : List.zipWith (· * ·) ds (reorder axes (weights dims)) =
      axes.map fun place => Radix.place axes ds place *
        (weights dims).getD place 0 := by
    conv_lhs => rw [← map_place h.nodup hdigits]
    rw [reorder, List.zipWith_map, List.zipWith_self]
  rw [hzip, restore, hlength, value_map_range, ← hlength,
    sum_place h fun place digit => digit * (weights dims).getD place 0]

theorem digits_single (radix position : Nat) :
    digits [radix] position = [position] := by
  simp [digits]

/-- Where the last axis stays last, each row of the output is a row of the
input. -/
theorem gather_rows {front : List Nat} (h : IsOrder axes)
    (hlength : axes.length = dims.length)
    (haxes : axes = front ++ [dims.length - 1]) (hdims : dims ≠ [])
    {position : Nat} (hposition : position < dims.prod) :
    gather axes dims position =
      target (reorder front dims) (reorder front (weights dims))
        (dims.getLastD 1) position := by
  obtain ⟨heads, last, rfl⟩ := List.eq_nil_or_concat dims |>.resolve_left hdims
  have hlast : (heads.concat last).getLastD 1 = last := by simp
  have hindex : (heads.concat last).length - 1 = heads.length := by simp
  rw [hlast]
  rw [hindex] at haxes
  have hdims' : reorder axes (heads.concat last) =
      reorder front (heads.concat last) ++ [last] := by
    rw [haxes, reorder_concat]
    simp
  have hweights : reorder axes (weights (heads.concat last)) =
      reorder front (weights (heads.concat last)) ++ [1] := by
    rw [haxes, reorder_concat]
    simp [List.concat_eq_append, weights_append, weights]
  have hprod := prod_reorder h hlength
  rw [← hprod, hdims'] at hposition
  rw [gather_eq_dot h hlength, hdims', hweights, digits_append hposition,
    dot_append (by rw [length_digits, length_reorder, length_reorder]),
    List.prod_singleton, digits_single, target]
  simp [dot]

/-- The loop over all rows, from a target that reads inside the input. -/
theorem permuteLoop_gather {order : List Nat} (horder : IsOrder order)
    (hlength : order.length = dims.length) (hpos : 0 < dims.prod)
    (hsize : 0 < elementSize) (hblock : 0 < block)
    (hcount : radices.prod * block = dims.prod)
    (hinput : input.length = dims.prod * elementSize)
    (htarget : ∀ position < dims.prod,
      gather order dims position = target radices strides block position) :
    ∃ moved, permuteLoop input elementSize (block * elementSize) radices
        strides (input.length + 1) (List.replicate radices.length 0) [] =
        some moved ∧ moved.length = input.length ∧
      ∀ position < dims.prod, cell elementSize moved position =
        cell elementSize input (gather order dims position) := by
  have hrows : 0 < radices.prod := Nat.pos_of_mul_pos_right (by
    rw [hcount]
    exact hpos)
  have hinside : ∀ k < radices.prod,
      dot (digits radices k) strides + block ≤ radices.prod * block := by
    intro k hk
    have hlast : k * block + (block - 1) < dims.prod := by
      rw [← hcount]
      have hnext : (k + 1) * block ≤ radices.prod * block :=
        Nat.mul_le_mul_right _ hk
      rw [Nat.add_mul, Nat.one_mul] at hnext
      omega
    have hlt := gather_lt horder hlength hlast
    rw [htarget _ hlast, target, Nat.add_comm (k * block),
      Nat.add_mul_div_right _ _ hblock,
      Nat.div_eq_of_lt (Nat.sub_lt hblock one_pos), Nat.zero_add,
      Nat.add_mul_mod_self_right,
      Nat.mod_eq_of_lt (Nat.sub_lt hblock one_pos), ← hcount] at hlt
    omega
  have hbound : radices.prod ≤ input.length := by
    rw [hinput, ← hcount, Nat.mul_assoc]
    exact Nat.le_mul_of_pos_right _ (Nat.mul_pos hblock hsize)
  obtain ⟨moved, hmoved, hsame, hcells⟩ :=
    @permuteLoop_spec input [] elementSize block (input.length + 1) 0
      radices strides hblock hsize (by rw [hinput, ← hcount, Nat.mul_assoc])
      hinside hrows (by omega) (by simp) (by simp)
  rw [digits_zero] at hmoved
  refine ⟨moved, hmoved, hsame, fun position hposition => ?_⟩
  rw [hcells position (by rwa [hcount]), htarget position hposition]

theorem permuteBytes_spec (h : IsOrder axes)
    (hlength : axes.length = dims.length) (hpos : 0 < dims.prod)
    (hsize : 0 < elementSize)
    (hinput : input.length = dims.prod * elementSize) :
    ∃ moved, permuteBytes input elementSize dims axes = some moved ∧
      moved.length = input.length ∧
      ∀ position < dims.prod, cell elementSize moved position =
        cell elementSize input (gather axes dims position) := by
  have hprod := prod_reorder h hlength
  rw [permuteBytes]
  by_cases hrow : 1 < rowBlock dims axes
  · have hkept : axes.getLast? = some (dims.length - 1) ∧ dims ≠ [] := by
      by_contra hnot
      rw [rowBlock, if_neg hnot] at hrow
      omega
    have hblock : rowBlock dims axes = dims.getLastD 1 := if_pos hkept
    have houter : outerAxes dims axes = dims.length - 1 := if_pos hrow
    obtain ⟨front, hfront⟩ := List.getLast?_eq_some_iff.mp hkept.1
    have hfrontLength : front.length = dims.length - 1 := by
      rw [← hlength, hfront, List.length_append, List.length_singleton]
      omega
    have hlast : dims.getD (dims.length - 1) 0 = dims.getLastD 1 := by
      obtain ⟨heads, last, rfl⟩ :=
        List.eq_nil_or_concat dims |>.resolve_left hkept.2
      simp
    have hradices : (reorder axes dims).take (dims.length - 1) =
        reorder front dims := by
      rw [hfront, reorder_concat, ← hfrontLength]
      exact List.take_left' (length_reorder front _)
    have hstrides : (reorder axes (weights dims)).take (dims.length - 1) =
        reorder front (weights dims) := by
      rw [hfront, reorder_concat, ← hfrontLength]
      exact List.take_left' (length_reorder front _)
    have hcount : (reorder front dims).prod * dims.getLastD 1 = dims.prod := by
      rw [← hprod, hfront, reorder_concat, List.prod_append,
        List.prod_singleton, hlast]
    rw [hblock] at hrow ⊢
    rw [houter, hradices, hstrides, ← hfrontLength,
      ← length_reorder front dims]
    exact permuteLoop_gather h hlength hpos hsize (by omega) hcount hinput
      fun position hposition =>
        gather_rows h hlength hfront hkept.2 hposition
  · have hblock : rowBlock dims axes = 1 := by
      have hne : rowBlock dims axes ≠ 0 := by
        rw [rowBlock]
        split
        · rename_i hkept
          obtain ⟨heads, last, rfl⟩ :=
            List.eq_nil_or_concat dims |>.resolve_left hkept.2
          rw [List.concat_eq_append, List.prod_append,
            List.prod_singleton] at hpos
          have hlast := Nat.pos_of_mul_pos_left hpos
          simpa using Nat.pos_iff_ne_zero.mp hlast
        · exact one_ne_zero
      omega
    have houter : outerAxes dims axes = dims.length := if_neg hrow
    have hradices : (reorder axes dims).take dims.length =
        reorder axes dims := by
      rw [← hlength, ← length_reorder axes dims, List.take_length]
    have hstrides : (reorder axes (weights dims)).take dims.length =
        reorder axes (weights dims) := by
      rw [← hlength, ← length_reorder axes (weights dims), List.take_length]
    rw [hblock, houter, hradices, hstrides, ← hlength,
      ← length_reorder axes dims]
    refine permuteLoop_gather h hlength hpos hsize one_pos
      (by rw [Nat.mul_one, hprod]) hinput fun position _ => ?_
    rw [gather_eq_dot h hlength, target, Nat.div_one, Nat.mod_one,
      Nat.add_zero]

theorem getElem?_foldl_set (hnodup : axes.Nodup) (start : Nat)
    (inverse : List Nat) (hinside : ∀ axis ∈ axes, axis < inverse.length)
    (axis : Nat) :
    ((axes.zipIdx start).foldl
        (fun inverse slot => inverse.set slot.1 slot.2) inverse)[axis]? =
      if axis ∈ axes then some (start + axes.idxOf axis)
      else inverse[axis]? := by
  induction axes generalizing start inverse with
  | nil => simp
  | cons head axes ih =>
      obtain ⟨hfresh, hnodup⟩ := List.nodup_cons.mp hnodup
      obtain ⟨hhead, hrest⟩ := List.forall_mem_cons.mp hinside
      rw [List.zipIdx_cons, List.foldl_cons, ih hnodup _ _ (by simpa using hrest)]
      by_cases hmem : axis ∈ axes
      · have hne : head ≠ axis := fun heq => hfresh (heq ▸ hmem)
        rw [if_pos hmem, if_pos (List.mem_cons_of_mem _ hmem),
          List.idxOf_cons_ne _ hne]
        congr 1
        omega
      · rw [if_neg hmem]
        by_cases heq : head = axis
        · subst heq
          rw [if_pos List.mem_cons_self, List.idxOf_cons_self,
            List.getElem?_set_self hhead, Nat.add_zero]
        · rw [if_neg (by simp [hmem, Ne.symm heq]),
            List.getElem?_set_ne heq]

theorem invertAxes_eq (h : IsOrder axes) : invertAxes axes = inverse axes := by
  refine List.ext_getElem? fun axis => ?_
  have hfold := getElem?_foldl_set h.nodup 0
    (List.replicate axes.length 0) (by simpa using fun axis => h.lt) axis
  rw [invertAxes, hfold]
  by_cases hlt : axis < axes.length
  · rw [if_pos (h.mem hlt), inverse, List.getElem?_map,
      List.getElem?_range hlt, Option.map_some, Nat.zero_add]
  · rw [if_neg fun hmem => hlt (h.lt hmem),
      List.getElem?_eq_none (by simpa using hlt),
      List.getElem?_eq_none (by simpa using hlt)]

end Adapter

end TensorFS
