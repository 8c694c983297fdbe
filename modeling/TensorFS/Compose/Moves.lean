import TensorFS.Adapter.Shapes
import TensorFS.Compose.Derive
import TensorFS.Data.Sha256
import TensorFS.Planner.Encoding
import TensorFS.Tfm1.Bijection

namespace TensorFS

open Data Data.Radix

/-! What a derivation does to the bytes it re-arranges. -/

/-! Rows, elements and bytes. -/

/-- The logical number of elements. -/
def elementCount (shape : List UInt64) : Nat :=
  (shape.map UInt64.toNat).prod

/-- The bytes of the runs, unwrapped. -/
def runsLength (runs : List SourceRun) : Nat :=
  (runs.map SourceRun.length).sum

section

variable {run : SourceRun} {tensor : InventoryTensor} {size : Nat}
  {block : Nat × Nat}

/-- The elements of a tensor are its outermost extent times a row. -/
theorem SourceRun.Cuts.elements (h : run.Cuts tensor)
    (hencoded : tensor.length * block.1 =
      elementCount tensor.shape * block.2) (hpos : 0 < block.1) :
    ∃ extent, 0 < extent ∧
      Adapter.rowBytes tensor = tensor.length / extent ∧
      elementCount tensor.shape = extent * elementCount run.rowShape := by
  have hrow := h.row_pos
  have hlength : 0 < tensor.length := by
    by_contra hzero
    rw [Adapter.rowBytes, Nat.eq_zero_of_not_pos hzero, Nat.zero_div] at hrow
    exact lt_irrefl _ hrow
  have hcount : 0 < elementCount tensor.shape := by
    refine Nat.pos_of_ne_zero fun hzero => ?_
    rw [hzero, Nat.zero_mul] at hencoded
    exact (Nat.mul_pos hlength hpos).ne' hencoded
  rw [h.rowShape]
  cases hshape : tensor.shape with
  | nil =>
      refine ⟨1, one_pos, ?_, rfl⟩
      rw [Adapter.rowBytes, hshape]
      rfl
  | cons first rest =>
      rw [hshape] at hcount
      have hfirst : 0 < first.toNat := Nat.pos_of_mul_pos_right (by
        rw [elementCount, List.map_cons, List.prod_cons] at hcount
        exact hcount)
      refine ⟨first.toNat, hfirst, ?_, ?_⟩
      · rw [Adapter.rowBytes, hshape, List.head?_cons, Option.map_some,
          Option.getD_some, Nat.max_eq_left hfirst]
      · rw [elementCount, List.map_cons, List.prod_cons, List.tail_cons,
          elementCount]

/-- Whole rows of whole elements. -/
theorem SourceRun.Cuts.whole (h : run.Cuts tensor)
    (hencoded : tensor.length * block.1 =
      elementCount tensor.shape * block.2) (hpos : 0 < block.1)
    (hblock : block.2 = block.1 * size) :
    run.length = run.rows * elementCount run.rowShape * size := by
  obtain ⟨extent, hextent, hrow, hcount⟩ := h.elements hencoded hpos
  have hlength : tensor.length =
      extent * (elementCount run.rowShape * size) := by
    refine Nat.eq_of_mul_eq_mul_right hpos ?_
    rw [hencoded, hcount, hblock]
    ring
  have hbytes : Adapter.rowBytes tensor = elementCount run.rowShape * size := by
    rw [hrow, hlength, Nat.mul_div_cancel_left _ hextent]
  rw [h.rows, Nat.mul_assoc, ← hbytes, Nat.div_mul_cancel h.divides]

/-- Rows of elements lighter than a byte. -/
theorem SourceRun.Cuts.light (h : run.Cuts tensor)
    (hencoded : tensor.length * block.1 =
      elementCount tensor.shape * block.2)
    (hblock : block.2 < block.1) :
    run.length ≤ run.rows * elementCount run.rowShape ∧
      (0 < run.length →
        run.length < run.rows * elementCount run.rowShape) := by
  have hpos : 0 < block.1 := Nat.zero_lt_of_lt hblock
  obtain ⟨extent, hextent, hrow, hcount⟩ := h.elements hencoded hpos
  have hless : Adapter.rowBytes tensor < elementCount run.rowShape := by
    have hrowLength : Adapter.rowBytes tensor * extent ≤ tensor.length := by
      rw [hrow]
      exact Nat.div_mul_le_self _ _
    by_contra hnot
    have hbig : elementCount tensor.shape ≤ tensor.length := by
      rw [hcount, Nat.mul_comm]
      exact (Nat.mul_le_mul_right extent (not_lt.mp hnot)).trans hrowLength
    have hlength : 0 < tensor.length :=
      lt_of_lt_of_le (Nat.mul_pos h.row_pos hextent) hrowLength
    have hlt : elementCount tensor.shape * block.2 <
        tensor.length * block.1 :=
      calc elementCount tensor.shape * block.2
          ≤ tensor.length * block.2 := Nat.mul_le_mul_right _ hbig
        _ < tensor.length * block.1 := Nat.mul_lt_mul_of_pos_left hblock hlength
    omega
  have hsplit : run.length = run.rows * Adapter.rowBytes tensor := by
    rw [h.rows, Nat.div_mul_cancel h.divides]
  rw [hsplit]
  refine ⟨Nat.mul_le_mul_left _ hless.le, fun hlength => ?_⟩
  exact Nat.mul_lt_mul_of_pos_left hless (Nat.pos_of_mul_pos_right hlength)

end

namespace DerivedTensor

variable {derived : DerivedTensor} {source target : Contract}
  {tensors : List InventoryTensor} {block : Nat × Nat} {size : Nat}

theorem Fits.encoding (h : derived.Fits source target tensors)
    (hencoded : ∀ tensor ∈ tensors, tensor.Encoded) :
    ∃ block, blockOf derived.dtype = some block ∧
      ∀ run ∈ derived.runs, ∃ tensor, run.Cuts tensor ∧
        tensor.length * block.1 = elementCount tensor.shape * block.2 := by
  have hall : ∀ run ∈ derived.runs, ∃ block tensor,
      blockOf derived.dtype = some block ∧ run.Cuts tensor ∧
        tensor.length * block.1 = elementCount tensor.shape * block.2 := by
    intro run hrun
    obtain ⟨tensor, hmem, hcuts⟩ := h.cuts run hrun
    obtain ⟨block, hblock, hlength⟩ := hencoded tensor hmem
    refine ⟨block, tensor, ?_, hcuts, hlength⟩
    rw [← h.dtype run hrun, hcuts.dtype, hblock]
  obtain ⟨first, hfirst⟩ := List.exists_mem_of_ne_nil _ h.nonempty
  obtain ⟨block, -, hblock, -⟩ := hall first hfirst
  refine ⟨block, hblock, fun run hrun => ?_⟩
  obtain ⟨other, tensor, hother, hcuts, hlength⟩ := hall run hrun
  rw [hblock, Option.some.injEq] at hother
  exact ⟨tensor, hcuts, hother ▸ hlength⟩

theorem Fits.rows_le (h : derived.Fits source target tensors) :
    (derived.runs.map SourceRun.rows).sum ≤ runsLength derived.runs := by
  refine List.sum_le_sum fun run hrun => ?_
  obtain ⟨tensor, -, hcuts⟩ := h.cuts run hrun
  rw [hcuts.rows]
  exact Nat.div_le_self _ _

/-- The elements of the derived shape are the rows of its runs times a row. -/
theorem Fits.count (h : derived.Fits source target tensors)
    (hsum : runsLength derived.runs < 2 ^ 64) :
    elementCount derived.shape = (derived.runs.map fun run =>
      run.rows * elementCount run.rowShape).sum := by
  obtain ⟨rowShape, hshape, hrows⟩ := h.shape
  have hfits := lt_of_le_of_lt h.rows_le hsum
  have hsame : (derived.runs.map fun run =>
      run.rows * elementCount run.rowShape) =
      derived.runs.map fun run => run.rows * elementCount rowShape :=
    List.map_congr_left fun run hrun => by rw [hrows run hrun]
  rw [hsame, List.sum_map_mul_right, hshape, elementCount, List.map_cons,
    List.prod_cons, UInt64.toNat_ofNat_of_lt' hfits, elementCount]

theorem Fits.whole (h : derived.Fits source target tensors)
    (hencoded : ∀ tensor ∈ tensors, tensor.Encoded)
    (hsum : runsLength derived.runs < 2 ^ 64)
    (hblock : blockOf derived.dtype = some block)
    (hwhole : block.2 = block.1 * size) :
    runsLength derived.runs = elementCount derived.shape * size := by
  obtain ⟨found, hfound, hall⟩ := h.encoding hencoded
  rw [hblock, Option.some.injEq] at hfound
  subst hfound
  have hlengths : derived.runs.map SourceRun.length =
      derived.runs.map fun run =>
        run.rows * elementCount run.rowShape * size := by
    refine List.map_congr_left fun run hrun => ?_
    obtain ⟨tensor, hcuts, hlength⟩ := hall run hrun
    exact hcuts.whole hlength (blockOf_cases hblock).1 hwhole
  rw [runsLength, hlengths, List.sum_map_mul_right, h.count hsum]

theorem Fits.light (h : derived.Fits source target tensors)
    (hencoded : ∀ tensor ∈ tensors, tensor.Encoded)
    (hsum : runsLength derived.runs < 2 ^ 64)
    (hpos : 0 < runsLength derived.runs)
    (hblock : blockOf derived.dtype = some block)
    (hlight : block.2 < block.1) :
    runsLength derived.runs < elementCount derived.shape := by
  obtain ⟨found, hfound, hall⟩ := h.encoding hencoded
  rw [hblock, Option.some.injEq] at hfound
  subst hfound
  have hless : ∀ run ∈ derived.runs,
      run.length ≤ run.rows * elementCount run.rowShape ∧
        (0 < run.length →
          run.length < run.rows * elementCount run.rowShape) := by
    intro run hrun
    obtain ⟨tensor, hcuts, hlength⟩ := hall run hrun
    exact hcuts.light hlength hlight
  have hsome : ∃ run ∈ derived.runs, 0 < run.length := by
    by_contra hnone
    push Not at hnone
    have hzero : runsLength derived.runs = 0 := by
      refine List.sum_eq_zero fun length hmem => ?_
      obtain ⟨run, hrun, rfl⟩ := List.mem_map.mp hmem
      exact Nat.le_zero.mp (hnone run hrun)
    omega
  rw [h.count hsum]
  obtain ⟨run, hrun, hlength⟩ := hsome
  exact List.sum_lt_sum _ _ (fun other hother => (hless other hother).1)
    ⟨run, hrun, (hless run hrun).2 hlength⟩

end DerivedTensor

/-! Reading the runs. -/

/-- The source bytes of the runs, one behind the other. -/
def runBytes (bytes : Bytes) (runs : List SourceRun) : Bytes :=
  runs.flatMap fun run => slice bytes run.offset run.length

theorem readExactAt_ok {content : Slice} {offset count : Nat} {bytes : Bytes}
    (h : content.source.readExactAt offset count = .ok bytes) :
    offset + count ≤ content.bytes.length ∧
      bytes = slice content.bytes offset count := by
  simp only [ByteSource.readExactAt, Slice.source] at h
  by_cases hinside : offset + count ≤ content.bytes.length
  · rw [if_pos hinside] at h
    cases h
    exact ⟨hinside, rfl⟩
  · rw [if_neg hinside] at h
    cases h

theorem readRuns_ok {content : Slice} {size written : Nat}
    {runs : List SourceRun} {stored : Bytes} (hwritten : written ≤ size)
    (h : readRuns content.source size written runs = .ok stored) :
    written + runsLength runs ≤ size ∧
      stored = runBytes content.bytes runs ∧
      stored.length = runsLength runs := by
  induction runs generalizing written stored with
  | nil =>
      cases h
      exact ⟨hwritten, rfl, rfl⟩
  | cons run runs ih =>
      rw [readRuns] at h
      split at h
      · cases h
      · simp only [except_bind_eq_ok, planning_eq_ok, refusing_eq_ok] at h
        obtain ⟨bytes, hbytes, rest, hrest, h⟩ := h
        cases h
        obtain ⟨hinside, rfl⟩ := readExactAt_ok hbytes
        obtain ⟨hsize, rfl, hlength⟩ := ih (by omega) hrest
        have hsum : runsLength (run :: runs) =
            run.length + runsLength runs := by
          rw [runsLength, List.map_cons, List.sum_cons, runsLength]
        refine ⟨by omega, rfl, ?_⟩
        rw [List.length_append, length_slice hinside, hlength, hsum]

/-! The elements a re-arranged tensor moves. -/

/-- The elements of `moved` are those of `stored`, read in the order of the
axes, each once. -/
structure Gathered (size : Nat) (dims axes : List Nat)
    (stored moved : Bytes) : Prop where
  stored_length : stored.length = dims.prod * size
  moved_length : moved.length = dims.prod * size
  cells : ∀ position < dims.prod, cell size moved position =
    cell size stored (gather axes dims position)
  once : Set.BijOn (gather axes dims) (Set.Iio dims.prod)
    (Set.Iio dims.prod)

/-- The bytes of a derived tensor are those of its runs with the encoded
elements moved as the declaration says. -/
def DerivedTensor.Moved (derived : DerivedTensor) (bytes moved : Bytes) :
    Prop :=
  ∃ size dims permute, elementBytes derived.dtype = some size ∧
    derived.elementSize = size ∧
    permute.resolve derived.shape = some dims ∧
    ((derived.transform = .forward permute ∧
        Gathered size dims permute.axes (runBytes bytes derived.runs) moved) ∨
      (derived.transform = .inverse permute ∧
        Gathered size dims permute.axes moved
          (runBytes bytes derived.runs)))

namespace DerivedTensor

variable {derived : DerivedTensor} {source target : Contract}
  {tensors : List InventoryTensor}

/-- Where the permute resolves, the recovered element size is the encoded
one. -/
theorem Fits.elementSize (h : derived.Fits source target tensors)
    (hencoded : ∀ tensor ∈ tensors, tensor.Encoded)
    (hdtype : derived.dtype ∉ overweightDtypes)
    (hread : runsLength derived.runs ≤ derived.length)
    (hsize : derived.elementSize ≠ 0)
    (hcount : elementCount derived.shape < 2 ^ 64) :
    elementBytes derived.dtype = some derived.elementSize ∧
      0 < elementCount derived.shape ∧
      runsLength derived.runs =
        elementCount derived.shape * derived.elementSize := by
  have hmod : runsLength derived.runs % 2 ^ 64 = derived.length := rfl
  have hlt := Nat.mod_lt (runsLength derived.runs)
    (show 0 < 2 ^ 64 by decide)
  have hsum : runsLength derived.runs < 2 ^ 64 := by omega
  have hlength : derived.length = runsLength derived.runs := by omega
  have helements : derived.elements = elementCount derived.shape :=
    Nat.mod_eq_of_lt hcount
  have hdiv : derived.elementSize = runsLength derived.runs /
      max (elementCount derived.shape) 1 := by
    rw [DerivedTensor.elementSize, hlength, helements]
  have hpos : 0 < runsLength derived.runs := by
    refine Nat.pos_of_ne_zero fun hzero => hsize ?_
    rw [hdiv, hzero, Nat.zero_div]
  obtain ⟨block, hblock, -⟩ := h.encoding hencoded
  obtain ⟨hblockPos, -, hcases⟩ := blockOf_cases hblock
  rcases hcases with hwhole | hlight | hover
  · obtain ⟨size, hbytes⟩ := hwhole
    have hweigh := h.whole hencoded hsum hblock hbytes
    have hcountPos : 0 < elementCount derived.shape := by
      refine Nat.pos_of_ne_zero fun hzero => ?_
      rw [hweigh, hzero, Nat.zero_mul] at hpos
      exact lt_irrefl _ hpos
    have hfound : derived.elementSize = size := by
      rw [hdiv, hweigh, Nat.max_eq_left hcountPos,
        Nat.mul_div_cancel_left _ hcountPos]
    refine ⟨?_, hcountPos, by rw [hfound, hweigh]⟩
    rw [elementBytes, hblock, Option.bind_eq_bind, Option.bind_some,
      if_pos ⟨size, hbytes⟩, hbytes, Nat.mul_div_cancel_left _ hblockPos,
      hfound]
  · refine absurd ?_ hsize
    have hweigh := h.light hencoded hsum hpos hblock hlight
    rw [hdiv, Nat.max_eq_left (by omega), Nat.div_eq_of_lt hweigh]
  · exact absurd hover hdtype

/-- The walk of a re-arranged tensor whose dtype is no overweight block type
moves whole elements. -/
theorem Fits.apply {content : Slice} {stored : Bytes}
    {result : Option Bytes} (h : derived.Fits source target tensors)
    (hencoded : ∀ tensor ∈ tensors, tensor.Encoded)
    (hsource : ∀ permute, source.Permutes permute → permute.Ok)
    (htarget : ∀ permute, target.Permutes permute → permute.Ok)
    (hdtype : derived.dtype ∉ overweightDtypes)
    (hread : readRuns content.source derived.length 0 derived.runs =
      .ok stored)
    (hsize : derived.elementSize ≠ 0)
    (hmoves : derived.transform.isIdentity = false)
    (happly : derived.transform.apply stored derived.elementSize
      derived.shape = some result) :
    ∃ moved, result = some moved ∧ derived.Moved content.bytes moved := by
  obtain ⟨hlength, rfl, hstored⟩ := readRuns_ok (Nat.zero_le _) hread
  rw [Nat.zero_add] at hlength
  cases htransform : derived.transform with
  | identity =>
      rw [htransform] at hmoves
      cases hmoves
  | forward permute =>
      obtain ⟨horder, haxes⟩ := htarget permute (h.forward permute htransform)
      rw [htransform] at happly
      simp only [Transform.apply, Option.bind_eq_bind,
        Option.bind_eq_some_iff, Option.some.injEq] at happly
      obtain ⟨dims, hdims, rfl⟩ := happly
      obtain ⟨hview, hprod⟩ := Permute.resolve_spec hdims
      have hlt := Permute.resolve_lt hdims
      rw [hprod] at hlt
      obtain ⟨hbytes, hpos, hweigh⟩ :=
        h.elementSize hencoded hdtype hlength hsize hlt
      rw [hweigh, elementCount, ← hprod] at hstored
      rw [elementCount, ← hprod] at hpos
      have hrank := haxes.trans hview.symm
      obtain ⟨moved, hmoved, hsame, hcells⟩ := Adapter.permuteBytes_spec
        horder hrank hpos (Nat.pos_of_ne_zero hsize) hstored
      exact ⟨moved, hmoved, _, dims, permute, hbytes, rfl, hdims,
        .inl ⟨htransform, hstored, hsame.trans hstored, hcells,
          gather_bijOn horder hrank⟩⟩
  | inverse permute =>
      obtain ⟨horder, haxes⟩ := hsource permute (h.inverse permute htransform)
      rw [htransform] at happly
      simp only [Transform.apply, Option.bind_eq_bind,
        Option.bind_eq_some_iff, Option.some.injEq] at happly
      obtain ⟨dims, hdims, rfl⟩ := happly
      obtain ⟨hview, hprod⟩ := Permute.resolve_spec hdims
      have hlt := Permute.resolve_lt hdims
      rw [hprod] at hlt
      obtain ⟨hbytes, hpos, hweigh⟩ :=
        h.elementSize hencoded hdtype hlength hsize hlt
      rw [hweigh, elementCount, ← hprod] at hstored
      rw [elementCount, ← hprod] at hpos
      have hrank := haxes.trans hview.symm
      have hreordered := prod_reorder horder hrank
      obtain ⟨moved, hmoved, hsame, hcells⟩ := @Adapter.permuteBytes_spec
        _ derived.elementSize (reorder permute.axes dims)
        (Radix.inverse permute.axes)
        (isOrder_inverse horder)
        (by rw [length_inverse, Adapter.length_reorder])
        (by rwa [hreordered]) (Nat.pos_of_ne_zero hsize)
        (by rwa [hreordered])
      rw [hreordered] at hcells
      refine ⟨moved, by rw [Adapter.invertAxes_eq horder, hmoved], _, dims,
        permute, hbytes, rfl, hdims, .inr ⟨htransform, hsame.trans hstored,
          hstored, fun position hposition => ?_, gather_bijOn horder hrank⟩⟩
      rw [hcells _ (gather_lt horder hrank hposition),
        gather_inverse horder hrank hposition]

end DerivedTensor

/-! The records of the derived tensors. -/

/-- The records one derived tensor adds: its runs inherited, or its moved
bytes on the grid. -/
def DerivedTensor.Segment (P : Platform) (bytes : Bytes)
    (records : List FileRecord) (derived : DerivedTensor)
    (segment : List FileRecord) : Prop :=
  if derived.transform.isIdentity = true then
    inheritRuns records derived.runs = .ok segment
  else ∃ moved, derived.Moved bytes moved ∧
    segment = (gridPieces moved).map (objectRecord P)

/-- A derived body is its header and one segment a tensor, and every
re-arranged tensor has its elements moved. -/
def MovesWhole (P : Platform) (bytes : Bytes) (records : List FileRecord)
    (adapter : Adapter) (composed : List FileRecord) : Prop :=
  ∃ segments, List.Forall₂ (DerivedTensor.Segment P bytes records)
      adapter.tensors segments ∧
    composed = (gridPieces (safetensorsHeader
      (adapter.tensors.map DerivedTensor.declared))).map (objectRecord P) ++
        segments.flatten

/-- The walk of a tensor is entered with all of its bytes and stays inside
them. -/
def DerivedTensor.Enters (source : ByteSource) (derived : DerivedTensor) :
    Prop :=
  ∀ stored result,
    readRuns source derived.length 0 derived.runs = .ok stored →
    derived.elementSize ≠ 0 → derived.transform.isIdentity = false →
    derived.transform.apply stored derived.elementSize derived.shape =
      some result →
    result.isSome = true ∧ ∀ permute dims,
      derived.transform = .forward permute ∨
        derived.transform = .inverse permute →
      permute.resolve derived.shape = some dims →
        dims.prod * derived.elementSize = stored.length

theorem rearrange_ok {source : ByteSource} {derived : DerivedTensor}
    {moved : Bytes} (h : rearrange source derived = .ok moved) :
    ∃ stored, readRuns source derived.length 0 derived.runs = .ok stored ∧
      derived.elementSize ≠ 0 ∧
      derived.transform.apply stored derived.elementSize derived.shape =
        some (some moved) := by
  simp only [rearrange, except_bind_eq_ok, refusing_eq_ok, ensure_eq_ok,
    exists_unit] at h
  obtain ⟨stored, hread, hsize, h⟩ := h
  refine ⟨stored, hread, hsize, ?_⟩
  split at h
  · cases h
  · cases h
  · rename_i found happly
    cases h
    exact happly

theorem deriveTensor_extends {P : Platform} {records : List FileRecord}
    {store later : ObjectStore P} {derived : DerivedTensor}
    {segment : List FileRecord}
    (h : deriveTensor records store derived = .ok (later, segment)) :
    later.Extends store := by
  unfold deriveTensor at h
  split at h
  · rw [except_bind_eq_ok] at h
    obtain ⟨taken, -, h⟩ := h
    cases h
    exact .refl store
  · rw [except_bind_eq_ok] at h
    obtain ⟨moved, -, h⟩ := h
    rw [Except.ok.injEq] at h
    rw [← show _ = later from congrArg Prod.fst h]
    exact admitBytes_extends store _

section

variable {P : Platform} {store later : ObjectStore P}
  {records : List FileRecord} {content : Slice} {source target : Contract}
  {tensors : List InventoryTensor}

/-- One tensor's records, where its dtype is no overweight block type. -/
theorem deriveTensor_segment {derived : DerivedTensor}
    {segment : List FileRecord}
    (hstored : fileBytes store records = some content.bytes)
    (hfits : derived.Fits source target tensors)
    (hencoded : ∀ tensor ∈ tensors, tensor.Encoded)
    (hsource : ∀ permute, source.Permutes permute → permute.Ok)
    (htarget : ∀ permute, target.Permutes permute → permute.Ok)
    (hdtype : derived.transform.isIdentity = false →
      derived.dtype ∉ overweightDtypes)
    (h : deriveTensor records store derived = .ok (later, segment)) :
    derived.Segment P content.bytes records segment := by
  rw [DerivedTensor.Segment]
  unfold deriveTensor at h
  split at h
  · rename_i hidentity
    rw [except_bind_eq_ok] at h
    obtain ⟨taken, htaken, h⟩ := h
    cases h
    rwa [if_pos hidentity]
  · rename_i hidentity
    rw [except_bind_eq_ok, recordsSource_eq_slice hstored] at h
    obtain ⟨moved, hmoved, h⟩ := h
    rw [Except.ok.injEq] at h
    obtain ⟨stored, hread, hsize, happly⟩ := rearrange_ok hmoved
    have hmoves := Bool.eq_false_of_not_eq_true hidentity
    obtain ⟨found, heq, hwhole⟩ := hfits.apply hencoded hsource htarget
      (hdtype hmoves) hread hsize hmoves happly
    cases heq
    rw [if_neg hidentity]
    exact ⟨moved, hwhole, (congrArg Prod.snd h).symm.trans
      (admitBytes_snd store _)⟩

theorem deriveTensors_segments {derived : List DerivedTensor}
    {composed : List FileRecord}
    (hstored : fileBytes store records = some content.bytes)
    (hfits : ∀ tensor ∈ derived, tensor.Fits source target tensors)
    (hencoded : ∀ tensor ∈ tensors, tensor.Encoded)
    (hsource : ∀ permute, source.Permutes permute → permute.Ok)
    (htarget : ∀ permute, target.Permutes permute → permute.Ok)
    (hdtype : ∀ tensor ∈ derived, tensor.transform.isIdentity = false →
      tensor.dtype ∉ overweightDtypes)
    (h : deriveTensors records store derived = .ok (later, composed)) :
    ∃ segments,
      List.Forall₂ (DerivedTensor.Segment P content.bytes records) derived
        segments ∧ composed = segments.flatten := by
  induction derived generalizing store composed with
  | nil =>
      cases h
      exact ⟨[], .nil, rfl⟩
  | cons tensor derived ih =>
      simp only [deriveTensors, except_bind_eq_ok] at h
      obtain ⟨⟨next, segment⟩, hfirst, ⟨last, rest⟩, hrest, h⟩ := h
      cases h
      obtain ⟨hheadFits, htailFits⟩ := List.forall_mem_cons.mp hfits
      obtain ⟨hheadDtype, htailDtype⟩ := List.forall_mem_cons.mp hdtype
      have hsegment := deriveTensor_segment hstored hheadFits hencoded hsource
        htarget hheadDtype hfirst
      obtain ⟨segments, hall, rfl⟩ := ih
        ((deriveTensor_extends hfirst).fileBytes hstored) htailFits
        htailDtype hrest
      exact ⟨segment :: segments, .cons hsegment hall, rfl⟩

/-- A re-arranged segment is of a dtype with whole elements. -/
theorem segment_dtype {derived : DerivedTensor} {segment : List FileRecord}
    {bytes : Bytes} (h : derived.Segment P bytes records segment)
    (hmoves : derived.transform.isIdentity = false) :
    derived.dtype ∉ overweightDtypes := by
  rw [DerivedTensor.Segment, if_neg (by simp [hmoves])] at h
  obtain ⟨moved, ⟨size, dims, permute, hbytes, -⟩, -⟩ := h
  intro hover
  rw [elementBytes_overweight hover] at hbytes
  cases hbytes

/-- The tensors of a derivation come from an encoded inventory. -/
theorem derivePlan_fits {origin : ByteSource} {adapter : Adapter}
    (h : derivePlan P origin source target = .ok adapter) :
    ∃ tensors : List InventoryTensor, (∀ tensor ∈ tensors, tensor.Encoded) ∧
      ∀ derived ∈ adapter.tensors, derived.Fits source target tensors := by
  simp only [derivePlan, except_bind_eq_ok, planning_eq_ok,
    refusing_eq_ok] at h
  obtain ⟨found, hfound, chosen, hchosen, h⟩ := h
  cases found with
  | none => cases hchosen
  | some found =>
      cases hchosen
      refine ⟨chosen.tensors, inventory_encoded hfound, ?_⟩
      cases hdecide : Adapter.decide source chosen target with
      | error failure =>
          rw [hdecide] at h
          cases failure <;> cases h
      | ok decision =>
          rw [hdecide] at h
          refine Adapter.decide_fits hdecide ?_
          cases decision <;> cases h <;> rfl

end

/-- The header's records and the tensors' records make the derived body. -/
theorem derive_eq_ok {P : Platform} {store later : ObjectStore P}
    {format : TensorFormat} {stamp : Stamp} {size : UInt64}
    {records : List FileRecord} {content : Slice} {source target : Contract}
    {adapter : Adapter} {body : FileBody}
    (hstored : fileBytes store records = some content.bytes)
    (hplan : derivePlan P content.source source target = .ok adapter) :
    derive store (.tensor format stamp size records) source target =
        .ok (later, body) ↔
      ∃ composed, deriveTensors records (admitBytes store (safetensorsHeader
          (adapter.tensors.map DerivedTensor.declared))).1 adapter.tensors =
          .ok (later, composed) ∧
        body = .tensor .safetensorsV1 (target.stamp P.sha256)
          (recordSum ((admitBytes store (safetensorsHeader
            (adapter.tensors.map DerivedTensor.declared))).2 ++ composed))
          ((admitBytes store (safetensorsHeader
            (adapter.tensors.map DerivedTensor.declared))).2 ++ composed) := by
  simp only [derive, except_bind_eq_ok, recordsSource_eq_slice hstored,
    hplan, Except.ok.injEq]
  constructor
  · rintro ⟨found, rfl, ⟨last, composed⟩, hderived, hbody⟩
    cases hbody
    exact ⟨composed, hderived, rfl⟩
  · rintro ⟨composed, hderived, rfl⟩
    exact ⟨adapter, rfl, (later, composed), hderived, rfl⟩

/-- A derivation of one re-arranged tensor succeeds where its walk does. -/
theorem derive_one {P : Platform} {store : ObjectStore P}
    {format : TensorFormat} {stamp : Stamp} {size : UInt64}
    {records : List FileRecord} {content : Slice} {source target : Contract}
    {derived : DerivedTensor} {moved : Bytes}
    (hstored : fileBytes store records = some content.bytes)
    (hplan : derivePlan P content.source source target = .ok ⟨[derived]⟩)
    (hmoves : derived.transform.isIdentity = false)
    (hmoved : rearrange content.source derived = .ok moved) :
    ∃ later body, derive store (.tensor format stamp size records) source
      target = .ok (later, body) := by
  have hkept : ∀ header : Bytes,
      fileBytes (admitBytes store header).1 records = some content.bytes :=
    fun header => (admitBytes_extends store header).fileBytes hstored
  have hone : ∀ header : Bytes, ∃ later composed,
      deriveTensors records (admitBytes store header).1 [derived] =
        .ok (later, composed) := by
    intro header
    have hfirst : ∃ admitted,
        deriveTensor records (admitBytes store header).1 derived =
          .ok admitted := by
      rw [deriveTensor, if_neg (by simp [hmoves]),
        recordsSource_eq_slice (hkept header), hmoved, except_ok_bind]
      exact ⟨_, rfl⟩
    obtain ⟨admitted, hfirst⟩ := hfirst
    refine ⟨admitted.1, admitted.2 ++ [], ?_⟩
    rw [deriveTensors, hfirst, except_ok_bind, deriveTensors, except_ok_bind]
  obtain ⟨later, composed, hderived⟩ := hone (safetensorsHeader
    (List.map DerivedTensor.declared [derived]))
  exact ⟨later, _, (derive_eq_ok hstored hplan).mpr
    ⟨composed, hderived, rfl⟩⟩

/-- A materialized permute moves whole elements, except those of the block
dtypes that spend over a byte on an element; for every other dtype the walk is
entered with all of the tensor's bytes. -/
theorem derive_moves_iff (P : Platform) (store : ObjectStore P)
    (format : TensorFormat) (stamp : Stamp) (size : UInt64)
    (records : List FileRecord) (content : Slice)
    (hstored : fileBytes store records = some content.bytes)
    (source target : Contract)
    (hsource : ∃ fromStr document,
      Contract.parse fromStr document = .ok source)
    (htarget : ∃ fromStr document,
      Contract.parse fromStr document = .ok target)
    (adapter : Adapter)
    (hplan : derivePlan P content.source source target = .ok adapter) :
    (∀ derived ∈ adapter.tensors, derived.dtype ∉ overweightDtypes →
      derived.Enters content.source) ∧
    ∀ later body,
      derive store (.tensor format stamp size records) source target =
          .ok (later, body) →
        (MovesWhole P content.bytes records adapter body.records ↔
          ∀ derived ∈ adapter.tensors,
            derived.transform.isIdentity = false →
              derived.dtype ∉ overweightDtypes) := by
  obtain ⟨fromSource, sourceDocument, hsource⟩ := hsource
  obtain ⟨fromTarget, targetDocument, htarget⟩ := htarget
  have hsourceOk : ∀ permute, source.Permutes permute → permute.Ok :=
    fun _ => Contract.permuteOk_of_parse hsource
  have htargetOk : ∀ permute, target.Permutes permute → permute.Ok :=
    fun _ => Contract.permuteOk_of_parse htarget
  obtain ⟨tensors, hencoded, hfits⟩ := derivePlan_fits hplan
  refine ⟨fun derived hmem hdtype stored result hread hsize hmoves happly =>
    ?_, fun later body hderive => ⟨?_, fun hdtype => ?_⟩⟩
  · obtain ⟨moved, rfl, size, dims, permute, -, rfl, hdims, hcases⟩ :=
      (hfits derived hmem).apply hencoded hsourceOk htargetOk hdtype hread
        hsize hmoves happly
    obtain ⟨-, hruns, -⟩ := readRuns_ok (Nat.zero_le _) hread
    refine ⟨rfl, fun other found htransform hfound => ?_⟩
    have hlength : dims.prod * derived.elementSize = stored.length := by
      rw [hruns]
      rcases hcases with ⟨-, hgathered⟩ | ⟨-, hgathered⟩
      · exact hgathered.stored_length.symm
      · exact hgathered.moved_length.symm
    rw [(Permute.resolve_spec hfound).2, ← (Permute.resolve_spec hdims).2,
      hlength]
  · rintro ⟨segments, hsegments, -⟩ derived hmem hmoves
    obtain ⟨index, hindex, rfl⟩ := List.getElem_of_mem hmem
    have hlt : index < segments.length := hsegments.length_eq ▸ hindex
    exact segment_dtype (hsegments.get hindex hlt) hmoves
  · obtain ⟨composed, hderived, rfl⟩ := (derive_eq_ok hstored hplan).mp hderive
    have hkept : (admitBytes store (safetensorsHeader
        (adapter.tensors.map DerivedTensor.declared))).1.Extends store :=
      admitBytes_extends store _
    obtain ⟨segments, hall, rfl⟩ := deriveTensors_segments
      (hkept.fileBytes hstored) hfits hencoded hsourceOk htargetOk hdtype
      hderived
    exact ⟨segments, hall, by rw [FileBody.records, admitBytes_snd]⟩

/-! A GGUF with one matrix of two rows of 32, and the contracts that transpose
it. -/

namespace MatrixFile

def platform : Platform := ⟨asciiUnicode, sha256, fun _ => none⟩

def directory (ggmlType : UInt8) : Bytes :=
  leBytes 8 1 ++ [0x77] ++ leBytes 4 2 ++ leBytes 8 32 ++ leBytes 8 2 ++
    [ggmlType, 0, 0, 0] ++ leBytes 8 0

def pieces (ggmlType : UInt8) (length : Nat) : List Bytes :=
  [Gguf.magic ++ leBytes 4 3 ++ leBytes 8 1 ++ leBytes 8 0,
    directory ggmlType, List.replicate 31 0,
    (List.range length).map UInt8.ofNat] ++
    if length % 32 = 0 then []
    else [List.replicate (32 - length % 32) 0]

def content (ggmlType : UInt8) (length : Nat)
    (h : (pieces ggmlType length).flatten.length < 2 ^ 64) : Slice :=
  ⟨(pieces ggmlType length).flatten, h⟩

def stored (ggmlType : UInt8) (length : Nat) :
    ObjectStore platform × List FileRecord :=
  putPieces .empty (pieces ggmlType length)

def entry (permute : Option Permute) : TensorPattern where
  role := ⟨[.literal "w".toList], "w".toList⟩
  pattern := ⟨[.literal "w".toList], "w".toList⟩
  dtypes := []
  rank := none
  required := true
  fusion := none
  permute := permute

def contract (permute : Option Permute) : Contract where
  handle := some ⟨"lay.out".toList, 1, by decide, Handle.version_one⟩
  description := []
  dtype := none
  tensors := [entry permute]
  sets := .empty

def transpose : Permute := ⟨[.axis 0 1, .axis 1 1], [1, 0]⟩

def rawContract (permute : Option RawPermute) : RawContract where
  format := contractFormat
  name := some "lay.out".toList
  version := some 1
  description := []
  dtype := none
  tensors := [{
    role := "w".toList
    pattern := "w".toList
    dtypes := []
    rank := none
    required := true
    fusion := none
    permute := permute }]
  sets := .empty

def rawTranspose : RawPermute :=
  ⟨[.string "shape[0]".toList, .string "shape[1]".toList], [1, 0]⟩

def documentText (permute : Text) : Text :=
  "\x7b\"format\":\"tensorfs-contract-v1\",\"name\":\"lay.out\",".toList ++
    "\"version\":1,\"tensors\":[\x7b\"role\":\"w\",\"pattern\":\"w\"".toList ++
    permute ++ "\x7d]\x7d".toList

def transposeText : Text :=
  ",\"permute\":\x7b\"view\":[\"shape[0]\",\"shape[1]\"],".toList ++
    "\"axes\":[1,0]\x7d".toList

def fromStr (document : Text) : Except Text RawContract :=
  if document = documentText [] then .ok (rawContract none)
  else if document = documentText transposeText then
    .ok (rawContract (some rawTranspose))
  else .error []

theorem source_accepted : ∃ fromStr document,
    Contract.parse fromStr document = .ok (contract none) := by
  refine ⟨fromStr, documentText [], ?_⟩
  rw [Contract.parse, fromStr, if_pos rfl]
  rfl

theorem target_accepted : ∃ fromStr document,
    Contract.parse fromStr document = .ok (contract (some transpose)) := by
  refine ⟨fromStr, documentText transposeText, ?_⟩
  rw [Contract.parse, fromStr, if_neg (by decide +kernel), if_pos rfl]
  rfl

def derived (dtype : Text) (length : Nat) : DerivedTensor :=
  ⟨"w".toList, dtype, [2, 32],
    [⟨"w".toList, "w".toList, dtype, none, 96, length, 2, [32]⟩],
    .forward transpose⟩

def body (ggmlType : UInt8) (length : Nat) : FileBody :=
  .tensor .ggufV1 .none (recordSum (stored ggmlType length).2)
    (stored ggmlType length).2

def bytes : Slice := content 24 64 (by decide +kernel)

def blocks : Slice := content 8 68 (by decide +kernel)

end MatrixFile

/-- Two rows of one block each, 68 bytes of 64 elements, are re-arranged as
bytes instead of being refused. -/
theorem derive_tears_blocks :
    derivePlan MatrixFile.platform MatrixFile.blocks.source
        (MatrixFile.contract none)
        (MatrixFile.contract (some MatrixFile.transpose)) =
      .ok ⟨[MatrixFile.derived "Q8_0".toList 68]⟩ ∧
    ¬ (MatrixFile.derived "Q8_0".toList 68).Enters
      MatrixFile.blocks.source ∧
    ∃ later found,
      derive (MatrixFile.stored 8 68).1 (MatrixFile.body 8 68)
          (MatrixFile.contract none)
          (MatrixFile.contract (some MatrixFile.transpose)) =
        .ok (later, found) ∧
      ¬ MovesWhole MatrixFile.platform MatrixFile.blocks.bytes
        (MatrixFile.stored 8 68).2
        ⟨[MatrixFile.derived "Q8_0".toList 68]⟩ found.records := by
  have hstored : fileBytes (MatrixFile.stored 8 68).1
      (MatrixFile.stored 8 68).2 = some MatrixFile.blocks.bytes := by
    decide +kernel
  have hplan : derivePlan MatrixFile.platform MatrixFile.blocks.source
      (MatrixFile.contract none)
      (MatrixFile.contract (some MatrixFile.transpose)) =
      .ok ⟨[MatrixFile.derived "Q8_0".toList 68]⟩ := by
    decide +kernel
  have hmoved : ∃ moved, rearrange MatrixFile.blocks.source
      (MatrixFile.derived "Q8_0".toList 68) = .ok moved := by
    refine ⟨(rearrange MatrixFile.blocks.source
      (MatrixFile.derived "Q8_0".toList 68)).toOption.getD [], ?_⟩
    decide +kernel
  obtain ⟨moved, hmoved⟩ := hmoved
  refine ⟨hplan, fun henters => ?_, ?_⟩
  · obtain ⟨stored, hread, hsize, happly⟩ := rearrange_ok hmoved
    have hlength := (readRuns_ok (Nat.zero_le _) hread).2.2
    have hentered := (henters stored (some moved) hread hsize rfl happly).2
      MatrixFile.transpose [2, 32] (.inl rfl) (by decide +kernel)
    rw [hlength] at hentered
    exact absurd hentered (by decide +kernel)
  · obtain ⟨later, found, hderive⟩ :=
      @derive_one _ _ .ggufV1 .none (recordSum (MatrixFile.stored 8 68).2) _ _ _
        _ _ _ hstored hplan rfl hmoved
    refine ⟨later, found, hderive, ?_⟩
    rintro ⟨segments, hsegments, -⟩
    obtain ⟨segment, _, hsegment, -, -⟩ := List.forall₂_cons_left_iff.mp hsegments
    exact segment_dtype hsegment rfl (by decide)

/-- A matrix of bytes is transposed element by element. -/
theorem derive_moves_iff_bytes :
    ∃ later found,
      derive (MatrixFile.stored 24 64).1 (MatrixFile.body 24 64)
          (MatrixFile.contract none)
          (MatrixFile.contract (some MatrixFile.transpose)) =
        .ok (later, found) ∧
      MovesWhole MatrixFile.platform MatrixFile.bytes.bytes
        (MatrixFile.stored 24 64).2
        ⟨[MatrixFile.derived "I8".toList 64]⟩ found.records := by
  have hstored : fileBytes (MatrixFile.stored 24 64).1
      (MatrixFile.stored 24 64).2 = some MatrixFile.bytes.bytes := by
    decide +kernel
  have hplan : derivePlan MatrixFile.platform MatrixFile.bytes.source
      (MatrixFile.contract none)
      (MatrixFile.contract (some MatrixFile.transpose)) =
      .ok ⟨[MatrixFile.derived "I8".toList 64]⟩ := by
    decide +kernel
  have hmoved : rearrange MatrixFile.bytes.source
      (MatrixFile.derived "I8".toList 64) =
      .ok ((rearrange MatrixFile.bytes.source
        (MatrixFile.derived "I8".toList 64)).toOption.getD []) := by
    decide +kernel
  obtain ⟨later, found, hderive⟩ :=
    @derive_one _ _ .ggufV1 .none (recordSum (MatrixFile.stored 24 64).2) _ _ _
      _ _ _ hstored hplan rfl hmoved
  have hiff := (derive_moves_iff MatrixFile.platform
    (MatrixFile.stored 24 64).1 .ggufV1 .none _ (MatrixFile.stored 24 64).2
    MatrixFile.bytes hstored (MatrixFile.contract none)
    (MatrixFile.contract (some MatrixFile.transpose))
    MatrixFile.source_accepted MatrixFile.target_accepted
    ⟨[MatrixFile.derived "I8".toList 64]⟩ hplan).2 later found hderive
  exact ⟨later, found, hderive, hiff.mpr (by decide)⟩

end TensorFS
