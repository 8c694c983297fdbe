import TensorFS.Adapter.Shapes

namespace TensorFS

open Data Data.Radix

/-! The permute kernel as an index remap, and its inverse. -/

namespace Adapter

/-- The walk without the whole-row shortcut: one element a round. -/
def permuteElements (input : Bytes) (elementSize : Nat)
    (dims axes : List Nat) : Option Bytes :=
  permuteLoop input elementSize elementSize (reorder axes dims)
    (reorder axes (weights dims)) (input.length + 1)
    (List.replicate axes.length 0) []

variable {input moved : Bytes} {elementSize : Nat} {dims axes : List Nat}

theorem permuteElements_spec (h : IsOrder axes)
    (hlength : axes.length = dims.length) (hpos : 0 < dims.prod)
    (hsize : 0 < elementSize)
    (hinput : input.length = dims.prod * elementSize) :
    ∃ moved, permuteElements input elementSize dims axes = some moved ∧
      moved.length = input.length ∧
      ∀ position < dims.prod, cell elementSize moved position =
        cell elementSize input (gather axes dims position) := by
  have hloop := @permuteLoop_gather input elementSize 1 (reorder axes dims)
    (reorder axes (weights dims)) dims axes h hlength hpos hsize one_pos
    (by rw [Nat.mul_one, prod_reorder h hlength]) hinput
    fun position _ => by
      rw [gather_eq_dot h hlength, target, Nat.div_one, Nat.mod_one,
        Nat.add_zero]
  rw [Nat.one_mul, length_reorder] at hloop
  exact hloop

/-- The shortcut writes what the element walk writes. -/
theorem permuteElements_eq (h : IsOrder axes)
    (hlength : axes.length = dims.length) (hpos : 0 < dims.prod)
    (hsize : 0 < elementSize)
    (hinput : input.length = dims.prod * elementSize) :
    permuteElements input elementSize dims axes =
      permuteBytes input elementSize dims axes := by
  obtain ⟨moved, hmoved, hsame, hcells⟩ :=
    permuteBytes_spec h hlength hpos hsize hinput
  obtain ⟨other, hother, hlike, hwalked⟩ :=
    permuteElements_spec h hlength hpos hsize hinput
  rw [hmoved, hother, Option.some.injEq]
  refine eq_of_cells (hlike.trans hinput) (hsame.trans hinput) ?_
  intro position hposition
  rw [hcells position hposition, hwalked position hposition]

/-- The coordinates of the result in the order of the source's axes. -/
theorem gather_value (h : IsOrder axes) (hlength : axes.length = dims.length)
    {outs : List Nat} (houts : Radix.Fits (reorder axes dims) outs) :
    Radix.Fits dims (restore axes outs) ∧
      reorder axes (restore axes outs) = outs ∧
      gather axes dims (value (reorder axes dims) outs) =
        value dims (restore axes outs) := by
  have hcount : outs.length = axes.length := by
    rw [houts.length_eq, length_reorder]
  refine ⟨fits_restore h hlength houts, ?_, ?_⟩
  · conv_rhs => rw [← map_place h.nodup hcount]
    refine List.map_congr_left fun axis hmem => ?_
    simp [restore, h.lt hmem]
  · rw [gather, digits_value houts]

theorem gather_of_inverse (h : IsOrder axes)
    (hlength : axes.length = dims.length) {position : Nat}
    (hposition : position < dims.prod) :
    gather axes dims (gather (inverse axes) (reorder axes dims) position) =
      position := by
  obtain ⟨found, hfound, rfl⟩ := gather_surj h hlength hposition
  rw [gather_inverse h hlength hfound]

/-- One walk after the other, where the second undoes the first. -/
theorem permuteBytes_undo {other : List Nat} {others : List Nat}
    (h : IsOrder axes) (hlength : axes.length = dims.length)
    (hother : IsOrder others) (hlength' : others.length = other.length)
    (hprod : other.prod = dims.prod) (hpos : 0 < dims.prod)
    (hsize : 0 < elementSize)
    (hinput : input.length = dims.prod * elementSize)
    (hundo : ∀ position < dims.prod,
      gather axes dims (gather others other position) = position) :
    ∃ moved, permuteBytes input elementSize dims axes = some moved ∧
      permuteBytes moved elementSize other others = some input := by
  obtain ⟨moved, hmoved, hsame, hcells⟩ :=
    permuteBytes_spec h hlength hpos hsize hinput
  obtain ⟨back, hback, hlike, hreturned⟩ := @permuteBytes_spec moved
    elementSize other others hother hlength' (hprod ▸ hpos) hsize
    (by rw [hsame, hinput, hprod])
  refine ⟨moved, hmoved, ?_⟩
  rw [hback, Option.some.injEq]
  refine eq_of_cells (hlike.trans (hsame.trans hinput)) hinput ?_
  intro position hposition
  have hinside : gather others other position < dims.prod := by
    rw [← hprod]
    exact gather_lt hother hlength' (hprod ▸ hposition)
  rw [hreturned position (hprod ▸ hposition), hcells _ hinside,
    hundo position hposition]

/-- Forward and inverse undo each other on a tensor of the permute's shape. -/
theorem transform_undo {permute : Permute} (hpermute : permute.Ok)
    {shape : List UInt64} {dims : List Nat}
    (hresolve : permute.resolve shape = some dims)
    (hinput : input.length = dims.prod * elementSize)
    (hpos : 0 < input.length) :
    (∃ moved, (Transform.forward permute).apply input elementSize shape =
        some (some moved) ∧
      (Transform.inverse permute).apply moved elementSize shape =
        some (some input)) ∧
    ∃ moved, (Transform.inverse permute).apply input elementSize shape =
        some (some moved) ∧
      (Transform.forward permute).apply moved elementSize shape =
        some (some input) := by
  rw [hinput] at hpos
  have hprod := Nat.pos_of_mul_pos_right hpos
  have hsize := Nat.pos_of_mul_pos_left hpos
  have horder := hpermute.order
  have hlength : permute.axes.length = dims.length :=
    hpermute.length.trans (Permute.resolve_spec hresolve).1.symm
  have hback := isOrder_inverse horder
  have hsame := prod_reorder horder hlength
  have hcount : (inverse permute.axes).length =
      (reorder permute.axes dims).length := by
    rw [length_inverse, length_reorder]
  have hforward : ∀ bytes,
      (Transform.forward permute).apply bytes elementSize shape =
        some (permuteBytes bytes elementSize dims permute.axes) := by
    intro bytes
    simp only [Transform.apply, hresolve, Option.bind_eq_bind,
      Option.bind_some]
  have hinverse : ∀ bytes,
      (Transform.inverse permute).apply bytes elementSize shape =
        some (permuteBytes bytes elementSize (reorder permute.axes dims)
          (inverse permute.axes)) := by
    intro bytes
    simp only [Transform.apply, hresolve, Option.bind_eq_bind,
      Option.bind_some, invertAxes_eq horder]
  simp only [hforward, hinverse, Option.some.injEq]
  constructor
  · exact permuteBytes_undo horder hlength hback hcount hsame hprod hsize
      hinput fun _ hposition => gather_of_inverse horder hlength hposition
  · refine permuteBytes_undo hback hcount horder hlength hsame.symm
      (hsame ▸ hprod) hsize (hsame ▸ hinput) fun position hposition => ?_
    exact gather_inverse horder hlength (hsame ▸ hposition)

/-- The kernel moves whole elements to the coordinates the axes name, with the
shortcut or without it; what a permute does to a tensor its inverse undoes. -/
theorem permute_remap :
    (∀ (input : Bytes) (elementSize : Nat) (dims axes : List Nat),
      dims ≠ [] → IsOrder axes → axes.length = dims.length →
      input.length = dims.prod * elementSize → 0 < input.length →
      ∃ moved, permuteBytes input elementSize dims axes = some moved ∧
        permuteElements input elementSize dims axes = some moved ∧
        moved.length = input.length ∧
        ∀ outs, Radix.Fits (reorder axes dims) outs → ∃ ins, Radix.Fits dims ins ∧
          reorder axes ins = outs ∧
          cell elementSize moved (value (reorder axes dims) outs) =
            cell elementSize input (value dims ins)) ∧
    ∀ (raw : RawPermute) (fused : Bool) (malformed : ContractError)
      (permute : Permute), raw.validate fused malformed = .ok permute →
      ∀ (shape : List UInt64) (dims : List Nat),
      permute.resolve shape = some dims →
      ∀ (input : Bytes) (elementSize : Nat),
      input.length = dims.prod * elementSize → 0 < input.length →
      (∃ moved, (Transform.forward permute).apply input elementSize shape =
          some (some moved) ∧
        (Transform.inverse permute).apply moved elementSize shape =
          some (some input)) ∧
      ∃ moved, (Transform.inverse permute).apply input elementSize shape =
          some (some moved) ∧
        (Transform.forward permute).apply moved elementSize shape =
          some (some input) := by
  constructor
  · intro input elementSize dims axes _ haxes hlength hinput hpos
    rw [hinput] at hpos
    have hprod := Nat.pos_of_mul_pos_right hpos
    have hsize := Nat.pos_of_mul_pos_left hpos
    obtain ⟨moved, hmoved, hsame, hcells⟩ :=
      permuteBytes_spec haxes hlength hprod hsize hinput
    refine ⟨moved, hmoved, ?_, hsame, fun outs houts => ?_⟩
    · rw [permuteElements_eq haxes hlength hprod hsize hinput, hmoved]
    · obtain ⟨hfits, hreorder, hgather⟩ := gather_value haxes hlength houts
      have hinside := value_lt houts
      rw [prod_reorder haxes hlength] at hinside
      exact ⟨_, hfits, hreorder, by rw [hcells _ hinside, hgather]⟩
  · intro raw fused malformed permute hvalid shape dims hresolve input
      elementSize hinput hpos
    exact transform_undo (RawPermute.validate_ok hvalid) hresolve hinput hpos

/-- A transposed matrix of two rows is transposed back. -/
theorem permute_remap_transpose :
    ∃ moved, (Transform.forward ⟨[.literal 2, .literal 3], [1, 0]⟩).apply
        [1, 2, 3, 4, 5, 6] 1 [6] = some (some moved) ∧
      (Transform.inverse ⟨[.literal 2, .literal 3], [1, 0]⟩).apply moved 1
        [6] = some (some [1, 2, 3, 4, 5, 6]) := by
  have hvalid : (RawPermute.mk [.number (some 2), .number (some 3)]
      [1, 0]).validate false (.permute []) =
        .ok ⟨[.literal 2, .literal 3], [1, 0]⟩ := rfl
  have hview : Permute.resolve ⟨[.literal 2, .literal 3], [1, 0]⟩ [6] =
      some [2, 3] := rfl
  exact (permute_remap.2 _ _ _ _ hvalid [6] [2, 3] hview
    [1, 2, 3, 4, 5, 6] 1 rfl (by decide)).1

end Adapter

end TensorFS
