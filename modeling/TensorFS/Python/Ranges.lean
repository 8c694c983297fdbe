import TensorFS.Data.Table
import TensorFS.Python.Tensors

namespace TensorFS.Python

open Data

/-! Reading a range of a committed file, and the objects a tensor occupies. -/

inductive ReadError where
  | closed
  | absent (path : Text)
  | raised (error : PyError)
  deriving DecidableEq

/-- A reader of one manifest; `verified` names the objects it has hashed. -/
structure TensorReader where
  cas : Cas
  entries : List FileEntry
  verify : Bool
  verified : List Digest
  closed : Bool

abbrev Reads (α : Type) := Client TensorReader ReadError α

namespace TensorReader

def init (cas : Cas) (manifest : RepositoryManifest) (verify : Bool) :
    TensorReader := ⟨cas, manifest.files, verify, [], false⟩

def entry (reader : TensorReader) (path : Text) : Except ReadError FileEntry :=
  match findRow FileEntry.path reader.entries path with
  | some entry => .ok entry
  | none => .error (.absent path)

end TensorReader

/-- The last place of a sorted list that has nothing above `x` before it. -/
def bisectRight (starts : List Int) (x : Int) : Nat :=
  (starts.takeWhile fun start => start ≤ x).length

section

variable (sha256 : Bytes → Digest)

/-- Each object is hashed at most once. -/
def TensorReader.map (ref : CASRef) (size : Int) : Reads Bytes := do
  let reader ← Client.read id
  match reader.cas.find ref with
  | none => Client.fail (.raised (.other "FileNotFoundError".toList))
  | some view => do
      Client.check ((view.length : Int) = size)
        (.raised (.tensor (.objectSize ref view.length size)))
      if reader.verify = true ∧ ref.digest ∉ reader.verified then do
        Client.check (sha256 view = ref.digest)
          (.raised (.tensor (.objectBytes ref)))
        Client.update fun reader =>
          { reader with verified := ref.digest :: reader.verified }
      else pure ()
      pure view

/-- The parts of the objects between `offset` and `stop`, from the object the
range starts in. -/
def viewsFrom (offset stop : Int) :
    List (Int × CASRef × Int) → Reads (List Bytes)
  | [] => pure []
  | (start, ref, size) :: grid =>
      if stop ≤ start then pure []
      else do
        let view ← TensorReader.map sha256 ref size
        let first := (max offset start - start).toNat
        let last := (min stop (start + size) - start).toNat
        let views ← viewsFrom offset stop grid
        pure ((view.take last).drop first :: views)

-- The first object starts at zero, so the index is never below it.
def TensorReader.pieces (path : Text) (offset length : Int) :
    Reads (List Bytes) := do
  let reader ← Client.read id
  Client.check (reader.closed = false) .closed
  let entry ← Client.orFail (reader.entry path)
  Client.check (0 ≤ offset ∧ 0 ≤ length ∧ offset + length ≤ entry.sizeBytes)
    (.raised (.tensor
      (.escapes path offset (offset + length) entry.sizeBytes)))
  if length = 0 then pure []
  else
    let starts := startsFrom 0 entry.objects
    let index := bisectRight starts offset - 1
    viewsFrom sha256 offset (offset + length)
      ((starts.zip entry.objects).drop index)

end

/-! Objects laid end to end. -/

def totalSize (objects : List (CASRef × Int)) : Int :=
  (objects.map Prod.snd).sum

section

variable {objects front back : List (CASRef × Int)} {position x : Int}

@[simp] theorem totalSize_nil : totalSize [] = 0 := rfl

@[simp] theorem totalSize_cons (object : CASRef × Int) :
    totalSize (object :: objects) = object.2 + totalSize objects := by
  simp [totalSize]

@[simp] theorem totalSize_append :
    totalSize (front ++ back) = totalSize front + totalSize back := by
  simp [totalSize]

theorem totalSize_nonneg (h : ∀ object ∈ objects, 0 ≤ object.2) :
    0 ≤ totalSize objects := by
  apply List.sum_nonneg
  intro size hsize
  obtain ⟨object, hobject, rfl⟩ := List.mem_map.mp hsize
  exact h object hobject

theorem startsFrom_drop (n : Nat) :
    (startsFrom position objects).drop n =
      startsFrom (position + totalSize (objects.take n)) (objects.drop n) := by
  induction objects generalizing position n with
  | nil => simp [startsFrom]
  | cons object objects ih =>
      cases n with
      | zero => simp
      | succ n =>
          rw [startsFrom, List.drop_succ_cons, ih, List.take_succ_cons,
            totalSize_cons, List.drop_succ_cons, Int.add_assoc]

theorem startsFrom_eq_some {n : Nat} :
    (startsFrom position objects)[n]? = some x ↔
      n < objects.length ∧ position + totalSize (objects.take n) = x := by
  rw [← List.head?_drop, startsFrom_drop]
  cases hdrop : objects.drop n with
  | nil =>
      have hlength := List.drop_eq_nil_iff.mp hdrop
      simp [startsFrom, hlength.not_gt]
  | cons object rest =>
      have hlength : n < objects.length := by
        by_contra hnot
        rw [List.drop_eq_nil_of_le (Nat.not_lt.mp hnot)] at hdrop
        cases hdrop
      simp [startsFrom, hlength]

/-- The object `bisect_right` points behind starts at `x` or before. -/
theorem bisectRight_start (hne : objects ≠ []) (hle : position ≤ x) :
    position +
      totalSize (objects.take (bisectRight (startsFrom position objects) x - 1))
        ≤ x := by
  cases objects with
  | nil => exact absurd rfl hne
  | cons object objects =>
      have hpos : 0 < bisectRight (startsFrom position (object :: objects)) x := by
        simp [bisectRight, startsFrom, hle]
      have hlast := Nat.sub_one_lt_of_lt hpos
      have hmem := List.getElem_mem hlast
      have hvalue := List.mem_takeWhile_imp hmem
      have hbelow := List.takeWhile_prefix (fun start => decide (start ≤ x))
        |>.getElem hlast
      have hstart := (startsFrom_eq_some.mp
        (List.getElem?_eq_some_iff.mpr ⟨_, hbelow.symm⟩)).2
      rw [hstart]
      exact of_decide_eq_true hvalue

end

/-! Reading. -/

section

variable {sha256 : Bytes → Digest} {reader : TensorReader}
  {objects : List (CASRef × Int)} {contents : List Bytes}

/-- What a reader finds under an object: it has the declared length and, where
the reader checks it, the name. -/
def TensorReader.Holds (sha256 : Bytes → Digest) (reader : TensorReader)
    (object : CASRef × Int) (content : Bytes) : Prop :=
  reader.cas.find object.1 = some content ∧
    (content.length : Int) = object.2 ∧
      (reader.verify = true → sha256 content = object.1.digest)

theorem map_of_holds {object : CASRef × Int} {content : Bytes}
    (h : reader.Holds sha256 object content) :
    ∃ verified, TensorReader.map sha256 object.1 object.2 reader =
      (.ok content, { reader with verified := verified }) := by
  obtain ⟨hfind, hlength, hdigest⟩ := h
  by_cases hnew : reader.verify = true ∧ object.1.digest ∉ reader.verified
  · exact ⟨object.1.digest :: reader.verified, by
      simp [TensorReader.map, Client.bind_run, Client.check, hfind, hlength,
        hnew, hdigest hnew.1]⟩
  · refine ⟨reader.verified, ?_⟩
    simp only [TensorReader.map, Client.bind_run, Client.read_run, id_eq,
      hfind, Client.check_of _ _ hlength, if_neg hnew, Client.pure_run]

theorem window_append {front back : Bytes} {offset stop position : Int} :
    ((front ++ back).take (stop - position).toNat).drop
        (offset - position).toNat =
      (front.take (min stop (position + front.length) - position).toNat).drop
          (max offset position - position).toNat ++
        (back.take (stop - (position + front.length)).toNat).drop
          (offset - (position + front.length)).toNat := by
  have htake : front.take (min stop (position + front.length) - position).toNat =
      front.take (stop - position).toNat := by
    apply List.take_eq_take_iff.mpr
    omega
  have hfirst : (max offset position - position).toNat =
      (offset - position).toNat := by omega
  have hlast : (stop - position).toNat - front.length =
      (stop - (position + front.length)).toNat := by omega
  rw [htake, hfirst, List.take_append, List.drop_append, hlast,
    List.length_take]
  congr 1
  by_cases hshort : (stop - position).toNat ≤ front.length
  · have hnone : (stop - (position + front.length)).toNat = 0 := by omega
    simp [hnone]
  · congr 1
    omega

/-- The parts of the objects, one behind the other, are the part of their
contents. -/
theorem viewsFrom_flatten
    (h : List.Forall₂ (reader.Holds sha256) objects contents)
    (offset stop position : Int) (verified : List Digest) :
    ∃ views last,
      viewsFrom sha256 offset stop
          ((startsFrom position objects).zip objects)
          { reader with verified := verified } =
        (.ok views, { reader with verified := last }) ∧
      views.flatten = (contents.flatten.take (stop - position).toNat).drop
        (offset - position).toNat := by
  induction h generalizing verified position with
  | nil => exact ⟨[], verified, rfl, by simp⟩
  | @cons object content objects contents hobject hobjects ih =>
      by_cases hstop : stop ≤ position
      · refine ⟨[], verified, ?_, ?_⟩
        · simp [startsFrom, viewsFrom, hstop]
        · simp [Int.toNat_of_nonpos (show stop - position ≤ 0 by omega)]
      · obtain ⟨first, hfirst⟩ :=
          @map_of_holds _ { reader with verified := verified } _ _ hobject
        obtain ⟨views, last, hviews, hflatten⟩ := ih (position + object.2) first
        refine ⟨(content.take (min stop (position + object.2) - position).toNat
          ).drop (max offset position - position).toNat :: views, last, ?_, ?_⟩
        · simp only [startsFrom, List.zip_cons_cons, viewsFrom, if_neg hstop]
          rw [Client.bind_of_ok hfirst, Client.bind_of_ok hviews]
          rfl
        · rw [List.flatten_cons, hflatten, List.flatten_cons, ← hobject.2.1]
          exact window_append.symm

theorem length_flatten_of_holds
    (h : List.Forall₂ (reader.Holds sha256) objects contents) :
    (contents.flatten.length : Int) = totalSize objects := by
  induction h with
  | nil => rfl
  | cons hobject _ ih =>
      rw [List.flatten_cons, List.length_append, Int.natCast_add, ih,
        totalSize_cons, hobject.2.1]

/-- The bytes from `offset` on, so many of them. -/
def rangeOf (content : Bytes) (offset length : Int) : Bytes :=
  (content.drop offset.toNat).take length.toNat

/-- A range that begins behind some objects is a range of the rest. -/
theorem window_of_front {front back : Bytes} {offset length : Int}
    (hfront : (front.length : Int) ≤ offset) (hlength : 0 ≤ length) :
    (back.take (offset + length - front.length).toNat).drop
        (offset - front.length).toNat =
      rangeOf (front ++ back) offset length := by
  have hdrop : front.drop offset.toNat = [] :=
    List.drop_eq_nil_of_le (by omega)
  have hsame : offset.toNat - front.length = (offset - front.length).toNat := by
    omega
  have hcount : (offset + length - front.length).toNat =
      (offset - front.length).toNat + length.toNat := by omega
  rw [rangeOf, List.drop_append, hdrop, List.nil_append, hsame, hcount,
    List.drop_take, Nat.add_sub_cancel_left]

end

/-! Whole objects. -/

section

variable {objects front span back : List (CASRef × Int)} {nbytes position x : Int}

theorem spanFrom_sound (h : spanFrom nbytes position objects = some span) :
    ∃ back, objects = span ++ back ∧ position + totalSize span = nbytes := by
  induction objects generalizing position span with
  | nil =>
      rw [spanFrom, Option.ite_none_right_eq_some] at h
      cases h.2
      exact ⟨[], rfl, by simpa using h.1⟩
  | cons object objects ih =>
      rw [spanFrom] at h
      by_cases hless : position < nbytes
      · rw [if_pos hless] at h
        obtain ⟨rest, hrest, rfl⟩ := Option.map_eq_some_iff.mp h
        obtain ⟨back, rfl, hsize⟩ := ih hrest
        refine ⟨back, rfl, ?_⟩
        rw [totalSize_cons]
        omega
      · rw [if_neg hless, Option.ite_none_right_eq_some] at h
        cases h.2
        exact ⟨object :: objects, rfl, by simpa using h.1⟩

theorem spanFrom_complete (hspan : ∀ object ∈ span, 0 ≤ object.2)
    (hsize : position + totalSize span = nbytes) :
    ∃ found, spanFrom nbytes position (span ++ back) = some found := by
  induction span generalizing position with
  | nil =>
      have heq : position = nbytes := by simpa using hsize
      cases back with
      | nil => exact ⟨[], by simp [spanFrom, heq]⟩
      | cons object back => exact ⟨[], by simp [spanFrom, heq]⟩
  | cons object span ih =>
      obtain ⟨hobject, hspan⟩ := List.forall_mem_cons.mp hspan
      rw [totalSize_cons] at hsize
      have hrest := totalSize_nonneg hspan
      rw [List.cons_append, spanFrom]
      by_cases hless : position < nbytes
      · obtain ⟨found, hfound⟩ :=
          @ih (position + object.2) hspan (by omega)
        rw [if_pos hless, hfound]
        exact ⟨object :: found, rfl⟩
      · rw [if_neg hless, if_pos (by omega)]
        exact ⟨[], rfl⟩

/-- Where `bisect_left` finds the start of an object, it finds the first object
there. -/
theorem bisectLeft_front (hfront : ∀ object ∈ front, 0 ≤ object.2)
    (hne : back ≠ []) (hx : position + totalSize front = x) :
    ∃ before after, front = before ++ after ∧ totalSize after = 0 ∧
      bisectLeft (startsFrom position (front ++ back)) x = before.length := by
  induction front generalizing position with
  | nil =>
      have heq : position = x := by simpa using hx
      obtain ⟨object, rest, rfl⟩ := List.exists_cons_of_ne_nil hne
      exact ⟨[], [], rfl, rfl, by simp [startsFrom, bisectLeft, heq]⟩
  | cons object front ih =>
      obtain ⟨hobject, hrest⟩ := List.forall_mem_cons.mp hfront
      rw [totalSize_cons] at hx
      have hnonneg := totalSize_nonneg hrest
      by_cases hless : position < x
      · obtain ⟨before, after, rfl, hafter, hindex⟩ :=
          @ih (position + object.2) hrest (by omega)
        refine ⟨object :: before, after, rfl, hafter, ?_⟩
        rw [List.cons_append, startsFrom, bisectLeft, List.takeWhile_cons,
          if_pos (decide_eq_true hless), List.length_cons]
        exact congrArg (· + 1) hindex
      · refine ⟨[], object :: front, rfl, ?_, ?_⟩
        · rw [totalSize_cons]
          omega
        · simp [startsFrom, bisectLeft, hless]

/-- No object starts behind all of them. -/
theorem bisectLeft_end (hpos : ∀ object ∈ objects, 0 < object.2)
    (hx : position + totalSize objects = x) :
    (startsFrom position objects)[bisectLeft (startsFrom position objects) x]? ≠
      some x := by
  intro hfound
  obtain ⟨hindex, hstart⟩ := startsFrom_eq_some.mp hfound
  have hsplit := congrArg totalSize (List.take_append_drop
    (bisectLeft (startsFrom position objects) x) objects)
  rw [totalSize_append, List.drop_eq_getElem_cons hindex, totalSize_cons]
    at hsplit
  have hobject := hpos _ (List.getElem_mem hindex)
  have hrest : 0 ≤ totalSize (objects.drop
      (bisectLeft (startsFrom position objects) x + 1)) :=
    totalSize_nonneg fun object hmem => (hpos object (List.mem_of_mem_drop hmem)).le
  omega

end

/-- The range of a tensor is that of whole objects, next to each other. -/
def TensorView.OccupiesWhole (view : TensorView) : Prop :=
  ∃ front span back, view.file.objects = front ++ span ++ back ∧
    totalSize front = view.offset ∧ totalSize span = view.nbytes

/-- A tensor without bytes, behind the last byte of a file that has some. -/
def TensorView.EmptyAtEnd (view : TensorView) : Prop :=
  view.nbytes = 0 ∧ view.offset = view.file.sizeBytes ∧
    0 < view.file.sizeBytes

instance (view : TensorView) : Decidable view.EmptyAtEnd :=
  inferInstanceAs (Decidable (_ ∧ _))

section

variable {view : TensorView} {span : List (CASRef × Int)}

theorem objectSpan_sound (h : view.objectSpan = some span) :
    ∃ front back, view.file.objects = front ++ span ++ back ∧
      totalSize front = view.offset ∧ totalSize span = view.nbytes := by
  rw [TensorView.objectSpan] at h
  obtain ⟨hstart, hspan⟩ := Option.ite_none_right_eq_some.mp h
  obtain ⟨-, hoffset⟩ := startsFrom_eq_some.mp hstart
  obtain ⟨back, hdrop, hsize⟩ := spanFrom_sound hspan
  refine ⟨_, back, ?_, (Int.zero_add _).symm.trans hoffset,
    (Int.zero_add _).symm.trans hsize⟩
  rw [List.append_assoc, ← hdrop, List.take_append_drop]

/-- A start that an object has may have objects of no length before it. -/
theorem objectSpan_complete {front span back : List (CASRef × Int)}
    (hnonneg : ∀ object ∈ view.file.objects, 0 ≤ object.2)
    (hobjects : view.file.objects = front ++ (span ++ back))
    (hne : span ++ back ≠ []) (hoffset : totalSize front = view.offset)
    (hnbytes : totalSize span = view.nbytes) :
    view.objectSpan.isSome = true := by
  rw [hobjects] at hnonneg
  obtain ⟨hfront, hrest⟩ := List.forall_mem_append.mp hnonneg
  obtain ⟨before, after, rfl, hafter, hindex⟩ :=
    @bisectLeft_front front (span ++ back) 0 view.offset hfront hne
      ((Int.zero_add _).trans hoffset)
  have hsplit : view.file.objects = before ++ (after ++ span ++ back) := by
    rw [hobjects]
    simp only [List.append_assoc]
  have hstart : (startsFrom 0 view.file.objects)[before.length]? =
      some view.offset := by
    apply startsFrom_eq_some.mpr
    rw [hsplit, List.length_append, List.take_left]
    refine ⟨Nat.lt_add_of_pos_right (List.length_pos_of_ne_nil ?_), ?_⟩
    · rw [List.append_assoc]
      exact List.append_ne_nil_of_right_ne_nil _ hne
    · rw [totalSize_append] at hoffset
      omega
  have hspan : ∀ object ∈ after ++ span, 0 ≤ object.2 :=
    List.forall_mem_append.mpr ⟨(List.forall_mem_append.mp hfront).2,
      (List.forall_mem_append.mp hrest).1⟩
  have hsize : 0 + totalSize (after ++ span) = view.nbytes := by
    rw [totalSize_append]
    omega
  obtain ⟨found, hfound⟩ := @spanFrom_complete _ back _ _ hspan hsize
  rw [← hobjects] at hindex
  simp only [TensorView.objectSpan, hindex, if_pos hstart]
  rw [hsplit, List.drop_left, hfound]
  rfl

theorem objectSpan_isSome_iff (hne : view.file.objects ≠ [])
    (hnonneg : ∀ object ∈ view.file.objects, 0 ≤ object.2)
    (hpos : 0 < totalSize view.file.objects →
      ∀ object ∈ view.file.objects, 0 < object.2)
    (hsize : totalSize view.file.objects = view.file.sizeBytes)
    (hnbytes : 0 ≤ view.nbytes) (hoffset : 0 ≤ view.offset)
    (hinside : view.offset + view.nbytes ≤ view.file.sizeBytes) :
    view.objectSpan.isSome = true ↔
      view.OccupiesWhole ∧ ¬ view.EmptyAtEnd := by
  constructor
  · intro hsome
    obtain ⟨span, hspan⟩ := Option.isSome_iff_exists.mp hsome
    obtain ⟨front, back, hwhole⟩ := objectSpan_sound hspan
    refine ⟨⟨front, span, back, hwhole⟩, fun ⟨_, hend, hfile⟩ => ?_⟩
    rw [TensorView.objectSpan] at hspan
    apply bisectLeft_end (hpos (by omega))
      (show (0 : Int) + totalSize view.file.objects = view.offset by omega)
    exact (Option.ite_none_right_eq_some.mp hspan).1
  · intro h
    obtain ⟨⟨front, span, back, hobjects, hfront, hspan⟩, hbefore⟩ := h
    rw [List.append_assoc] at hobjects
    by_cases hrest : span ++ back = []
    · -- the range is empty at the end, so the file has no bytes at all
      have hlast := congrArg totalSize hobjects
      rw [hrest, List.append_nil, hfront] at hlast
      have hfile : ¬ 0 < view.file.sizeBytes := fun hfile =>
        hbefore ⟨by omega, by omega, hfile⟩
      apply @objectSpan_complete view [] view.file.objects [] hnonneg
      · rw [List.nil_append, List.append_nil]
      · rwa [List.append_nil]
      · rw [totalSize_nil]
        omega
      · omega
    · exact objectSpan_complete hnonneg hobjects hrest hfront hspan

end

/-! The objects of an entry, and the entry a reader finds. -/

section

variable {path : Text} {sizeBytes : Int} {digest : Option CASRef}
  {chunks : List Chunk} {entry : FileEntry}

theorem totalSize_objects
    (h : FileEntry.make path sizeBytes digest chunks = .ok entry) :
    totalSize entry.objects = entry.sizeBytes := by
  obtain ⟨ref, -, -, -, hchunks, rfl⟩ := fileEntry_make_eq_ok.mp h
  have hsum := (checkChunks_eq_ok.mp hchunks).1
  rw [FileEntry.objects]
  by_cases hnone : chunks = []
  · simp [hnone]
  · rw [if_neg hnone, ← hsum hnone, totalSize, List.map_map]
    rfl

theorem objects_pos (hsize : 0 < entry.sizeBytes) :
    ∀ object ∈ entry.objects, 0 < object.2 := by
  rw [FileEntry.objects]
  by_cases hnone : entry.chunks = []
  · simpa [hnone] using hsize
  · rw [if_neg hnone]
    intro object hobject
    obtain ⟨chunk, -, rfl⟩ := List.mem_map.mp hobject
    exact chunk.length_ok.1

theorem objects_nonneg
    (h : FileEntry.make path sizeBytes digest chunks = .ok entry) :
    ∀ object ∈ entry.objects, 0 ≤ object.2 := by
  obtain ⟨_, -, -, hsize, -, hentry⟩ := fileEntry_make_eq_ok.mp h
  rw [FileEntry.objects]
  by_cases hnone : entry.chunks = []
  · rw [if_pos hnone, List.forall_mem_singleton, hentry]
    exact hsize.1
  · rw [if_neg hnone]
    intro object hobject
    obtain ⟨chunk, -, rfl⟩ := List.mem_map.mp hobject
    exact chunk.length_ok.1.le

theorem objects_ne_nil : entry.objects ≠ [] := by
  rw [FileEntry.objects]
  by_cases hnone : entry.chunks = []
  · rw [if_pos hnone]
    apply List.cons_ne_nil
  · rw [if_neg hnone]
    exact mt List.map_eq_nil_iff.mp hnone

end

section

variable {files : List FileEntry} {format : Int} {manifest : RepositoryManifest}
  {reader : TensorReader} {entry : FileEntry}

theorem make_eq_ok (h : RepositoryManifest.make files format = .ok manifest) :
    (manifest.files.map FileEntry.path).Nodup ∧
      ∀ file ∈ manifest.files, file ∈ files := by
  simp only [RepositoryManifest.make, except_bind_eq_ok, ensure_eq_ok,
    exists_unit, checkPaths_nil_eq_ok, Except.ok.injEq] at h
  obtain ⟨-, ⟨-, hnodup⟩, rfl⟩ := h
  rw [← Function.comp_def, ← List.map_map] at hnodup
  exact ⟨hnodup.of_map asciiFold, fun file => List.mem_mergeSort.mp⟩

theorem entry_of_mem (h : RepositoryManifest.make files format = .ok manifest)
    (hreader : reader.entries = manifest.files)
    (hmem : entry ∈ manifest.files) : reader.entry entry.path = .ok entry := by
  have hpaths : (reader.entries.map FileEntry.path).Nodup := by
    rw [hreader]
    exact (make_eq_ok h).1
  have hfound := (findRow_eq_some hpaths).mpr ⟨hreader ▸ hmem, rfl⟩
  rw [TensorReader.entry, hfound]

variable {sha256 : Bytes → Digest} {contents : List Bytes}

theorem pieces_run {path : Text} {offset length : Int}
    (hentry : reader.entry path = .ok entry) (hopen : reader.closed = false)
    (hinside : 0 ≤ offset ∧ 0 ≤ length ∧ offset + length ≤ entry.sizeBytes) :
    TensorReader.pieces sha256 path offset length reader =
      if length = 0 then (.ok [], reader)
      else
        let index := bisectRight (startsFrom 0 entry.objects) offset - 1
        viewsFrom sha256 offset (offset + length)
          ((startsFrom (totalSize (entry.objects.take index))
            (entry.objects.drop index)).zip (entry.objects.drop index))
          reader := by
  simp only [TensorReader.pieces, Client.bind_run, Client.read_run, id_eq,
    hentry, Client.orFail_ok, Client.check_of _ _ hopen,
    Client.check_of _ _ hinside, List.zip, List.drop_zipWith, startsFrom_drop,
    Int.zero_add]
  by_cases hempty : length = 0
  · rw [if_pos hempty, if_pos hempty]
    rfl
  · rw [if_neg hempty, if_neg hempty]

/-- Where the objects are there, a range of a file is read as that range of
them, one behind the other. -/
theorem pieces_flatten {path : Text} {offset length : Int}
    (hentry : reader.entry path = .ok entry) (hopen : reader.closed = false)
    (hstored : List.Forall₂ (reader.Holds sha256) entry.objects contents)
    (hoffset : 0 ≤ offset) (hlength : 0 ≤ length)
    (hinside : offset + length ≤ entry.sizeBytes) :
    ∃ pieces verified,
      TensorReader.pieces sha256 path offset length reader =
        (.ok pieces, { reader with verified := verified }) ∧
      pieces.flatten = rangeOf contents.flatten offset length := by
  rw [pieces_run hentry hopen ⟨hoffset, hlength, hinside⟩]
  by_cases hempty : length = 0
  · rw [if_pos hempty]
    exact ⟨[], reader.verified, rfl, by simp [rangeOf, hempty]⟩
  · rw [if_neg hempty]
    generalize hindex :
      bisectRight (startsFrom 0 entry.objects) offset - 1 = index
    have hfront := List.forall₂_take index hstored
    have hback := List.forall₂_drop index hstored
    have hstart := bisectRight_start (@objects_ne_nil entry) hoffset
    rw [hindex, ← length_flatten_of_holds hfront, Int.zero_add] at hstart
    obtain ⟨views, last, hviews, hflatten⟩ := viewsFrom_flatten hback offset
      (offset + length) (totalSize (entry.objects.take index)) reader.verified
    refine ⟨views, last, hviews, ?_⟩
    rw [hflatten, ← length_flatten_of_holds hfront,
      window_of_front hstart hlength, ← List.flatten_append,
      List.take_append_drop]

/-! A conversion reads with the checks on, so it need not know what is verified
already: the parts it gets are those of the reader. -/

theorem cas_map_of_holds {object : CASRef × Int} {content : Bytes}
    (h : reader.Holds sha256 object content) (hverify : reader.verify = true) :
    reader.cas.map sha256 object.1 object.2 = .ok content := by
  obtain ⟨hfind, hlength, hdigest⟩ := h
  rw [Cas.map, hfind]
  simp [ensure_of hlength, ensure_of (hdigest hverify)]

theorem piecesFrom_flatten {objects : List (CASRef × Int)}
    (h : List.Forall₂ (reader.Holds sha256) objects contents)
    (hverify : reader.verify = true) (offset stop position : Int) :
    ∃ parts, piecesFrom sha256 reader.cas offset stop position objects =
        .ok parts ∧
      parts.flatten = (contents.flatten.take (stop - position).toNat).drop
        (offset - position).toNat := by
  induction h generalizing position with
  | nil => exact ⟨[], rfl, by simp⟩
  | @cons object content objects contents hobject hobjects ih =>
      obtain ⟨parts, hparts, hflatten⟩ := ih (position + object.2)
      rw [piecesFrom, List.flatten_cons, window_append, hobject.2.1, ← hflatten]
      by_cases hbefore : position + object.2 ≤ offset
      · refine ⟨parts, by rw [if_pos hbefore, hparts], ?_⟩
        rw [List.drop_eq_nil_of_le, List.nil_append]
        rw [List.length_take]
        have hlength := hobject.2.1
        omega
      · rw [if_neg hbefore]
        by_cases hstop : stop ≤ position
        · refine ⟨[], if_pos hstop, ?_⟩
          have hlength := hobject.2.1
          have hnone : (min stop (position + object.2) - position).toNat = 0 := by
            omega
          have hrest : (stop - (position + object.2)).toNat = 0 := by omega
          rw [hflatten, hnone, hrest]
          simp
        · rw [if_neg hstop, cas_map_of_holds hobject hverify]
          exact ⟨_, by rw [except_ok_bind, hparts]; rfl, rfl⟩

theorem tobytes_eq {view : TensorView}
    (hstored : List.Forall₂ (reader.Holds sha256) view.file.objects contents)
    (hverify : reader.verify = true) (hoffset : 0 ≤ view.offset)
    (hnbytes : 0 ≤ view.nbytes)
    (hinside : view.offset + view.nbytes ≤ view.file.sizeBytes) :
    view.tobytes sha256 reader.cas =
      .ok (rangeOf contents.flatten view.offset view.nbytes) := by
  by_cases hempty : view.nbytes = 0
  · simp [TensorView.tobytes, hempty, rangeOf]
  · obtain ⟨parts, hparts, hflatten⟩ := piecesFrom_flatten hstored hverify
      view.offset (view.offset + view.nbytes) 0
    have hwindow := @window_of_front [] contents.flatten view.offset view.nbytes
      hoffset hnbytes
    rw [List.length_nil, Int.natCast_zero] at hwindow
    rw [hwindow, List.nil_append] at hflatten
    rw [TensorView.tobytes, if_neg hempty, pieces,
      ensure_of ⟨hoffset, hnbytes, hinside⟩, except_ok_bind, if_neg hempty,
      hparts, except_ok_bind, hflatten]

/-- What `object_span` is for: it lists objects where the tensor occupies whole
ones, and the objects it lists hold the bytes of the tensor. -/
def SpanExact (sha256 : Bytes → Digest) (reader : TensorReader)
    (contents : List Bytes) (view : TensorView) : Prop :=
  (view.objectSpan.isSome = true ↔ view.OccupiesWhole) ∧
    ∀ span, view.objectSpan = some span →
      ∃ parts, List.Forall₂ (reader.Holds sha256) span parts ∧
        parts.flatten = rangeOf contents.flatten view.offset view.nbytes

theorem rangeOf_flatten {before parts after : List Bytes} :
    rangeOf (before ++ (parts ++ after)).flatten before.flatten.length
      parts.flatten.length = parts.flatten := by
  rw [rangeOf, Int.toNat_natCast, Int.toNat_natCast, List.flatten_append,
    List.drop_left, List.flatten_append, List.take_left]

theorem span_bytes {view : TensorView} {span : List (CASRef × Int)}
    (hstored : List.Forall₂ (reader.Holds sha256) view.file.objects contents)
    (h : view.objectSpan = some span) :
    ∃ parts, List.Forall₂ (reader.Holds sha256) span parts ∧
      parts.flatten = rangeOf contents.flatten view.offset view.nbytes := by
  obtain ⟨front, back, hobjects, hoffset, hnbytes⟩ := objectSpan_sound h
  rw [hobjects, List.append_assoc] at hstored
  have hfront := List.forall₂_take front.length hstored
  have hrest := List.forall₂_drop front.length hstored
  rw [List.take_left] at hfront
  rw [List.drop_left] at hrest
  have hspan := List.forall₂_take span.length hrest
  rw [List.take_left] at hspan
  refine ⟨_, hspan, ?_⟩
  have hcontents : contents = contents.take front.length ++
      ((contents.drop front.length).take span.length ++
        (contents.drop front.length).drop span.length) := by
    rw [List.take_append_drop, List.take_append_drop]
  rw [← hoffset, ← hnbytes, ← length_flatten_of_holds hfront,
    ← length_flatten_of_holds hspan]
  have hrange := @rangeOf_flatten (contents.take front.length)
    ((contents.drop front.length).take span.length)
    ((contents.drop front.length).drop span.length)
  rw [← hcontents] at hrange
  exact hrange.symm

theorem occupiesWhole_of_emptyAtEnd {view : TensorView}
    (hsize : totalSize view.file.objects = view.file.sizeBytes)
    (h : view.EmptyAtEnd) : view.OccupiesWhole := by
  obtain ⟨hnbytes, hoffset, -⟩ := h
  refine ⟨view.file.objects, [], [], ?_, ?_, hnbytes.symm⟩
  · rw [List.append_nil, List.append_nil]
  · exact hsize.trans hoffset.symm

theorem spanExact_iff {view : TensorView}
    (hmake : ∃ path sizeBytes digest chunks,
      FileEntry.make path sizeBytes digest chunks = .ok view.file)
    (hstored : List.Forall₂ (reader.Holds sha256) view.file.objects contents)
    (hoffset : 0 ≤ view.offset) (hnbytes : 0 ≤ view.nbytes)
    (hinside : view.offset + view.nbytes ≤ view.file.sizeBytes) :
    SpanExact sha256 reader contents view ↔ ¬ view.EmptyAtEnd := by
  obtain ⟨_, _, _, _, hmake⟩ := hmake
  have hsize := totalSize_objects hmake
  have hsome := objectSpan_isSome_iff objects_ne_nil (objects_nonneg hmake)
    (fun hpos => objects_pos (hsize ▸ hpos)) hsize hnbytes hoffset hinside
  constructor
  · intro hexact hempty
    have hwhole := occupiesWhole_of_emptyAtEnd hsize hempty
    exact (hsome.mp (hexact.1.mpr hwhole)).2 hempty
  · intro hbefore
    refine ⟨?_, fun span => span_bytes hstored⟩
    rw [hsome]
    exact and_iff_left hbefore

/-- A range of a file is read as it is.  The objects of a tensor are the ones
it occupies, unless it is empty and behind the last byte of its file. -/
theorem ranges_read_and_spans_exact_iff
    (hmake : RepositoryManifest.make files format = .ok manifest)
    (hfiles : ∀ file ∈ files, ∃ path sizeBytes digest chunks,
      FileEntry.make path sizeBytes digest chunks = .ok file)
    (hreader : reader.entries = manifest.files) (hopen : reader.closed = false)
    (hmem : entry ∈ manifest.files)
    (hstored : List.Forall₂ (reader.Holds sha256) entry.objects contents) :
    (∀ offset length, 0 ≤ offset → 0 ≤ length →
      offset + length ≤ entry.sizeBytes →
      ∃ pieces verified,
        TensorReader.pieces sha256 entry.path offset length reader =
          (.ok pieces, { reader with verified := verified }) ∧
        pieces.flatten = rangeOf contents.flatten offset length) ∧
    ∀ view : TensorView, view.file = entry → 0 ≤ view.offset →
      0 ≤ view.nbytes → view.offset + view.nbytes ≤ entry.sizeBytes →
      (SpanExact sha256 reader contents view ↔ ¬ view.EmptyAtEnd) := by
  constructor
  · intro offset length hoffset hlength hinside
    exact pieces_flatten (entry_of_mem hmake hreader hmem) hopen hstored
      hoffset hlength hinside
  · intro view hview hoffset hnbytes hinside
    rw [← hview] at hmem hstored hinside
    exact spanExact_iff (hfiles view.file ((make_eq_ok hmake).2 _ hmem)) hstored
      hoffset hnbytes hinside

end

/-! A file of one object twice, and tensors in it. -/

namespace TwiceFile

def path : Text := ['w']

def ref : CASRef := ⟨sha256 [1, 2]⟩

def entry : FileEntry :=
  ⟨path, 4, ⟨sha256 [1, 2, 1, 2]⟩,
    [⟨ref, 2, by decide⟩, ⟨ref, 2, by decide⟩]⟩

def manifest : RepositoryManifest := ⟨[entry], currentFormat⟩

def reader : TensorReader :=
  TensorReader.init [(ref, [1, 2])] manifest true

def tensor (shape : List Int) (nbytes offset : Int) : TensorView :=
  ⟨"w".toList, entry, .safetensors, "U8".toList, shape, nbytes, offset⟩

theorem make_entry :
    FileEntry.make path 4 (some ⟨sha256 [1, 2, 1, 2]⟩) entry.chunks =
      .ok entry := by
  apply fileEntry_make_eq_ok.mpr
  refine ⟨_, rfl, ?_, by simp [maxSize], ?_, rfl⟩
  · have hsplit : path.splitOn '/' = [path] :=
      List.splitOn_eq_singleton (by decide)
    rw [PortablePath, hsplit]
    simp [path]
  · simp [checkChunks, entry]

theorem make_manifest :
    RepositoryManifest.make [entry] currentFormat = .ok manifest := by
  simp [RepositoryManifest.make, checkPaths, manifest]

theorem reader_holds :
    List.Forall₂ (reader.Holds sha256) entry.objects [[1, 2], [1, 2]] := by
  have hobject : reader.Holds sha256 (ref, 2) [1, 2] := by
    refine ⟨?_, rfl, fun _ => rfl⟩
    simp [reader, TensorReader.init, Cas.find]
  exact .cons hobject (.cons hobject .nil)

end TwiceFile

/-- The border in the middle is read across, and the second object is the one
of the tensor it is kept for. -/
theorem ranges_read_and_spans_exact_twice :
    (∃ pieces verified,
      TensorReader.pieces sha256 TwiceFile.path 1 2 TwiceFile.reader =
        (.ok pieces, { TwiceFile.reader with verified := verified }) ∧
      pieces.flatten = [2, 1]) ∧
    SpanExact sha256 TwiceFile.reader [[1, 2], [1, 2]]
      (TwiceFile.tensor [2] 2 2) := by
  have h := ranges_read_and_spans_exact_iff TwiceFile.make_manifest
    (fun file hfile => ⟨_, _, _, _,
      List.mem_singleton.mp hfile ▸ TwiceFile.make_entry⟩)
    rfl rfl (List.mem_singleton_self TwiceFile.entry) TwiceFile.reader_holds
  refine ⟨h.1 1 2 (by decide) (by decide) (by decide), ?_⟩
  exact (h.2 (TwiceFile.tensor [2] 2 2) rfl (by decide) (by decide)
    (by decide)).mpr (by decide)

/-- An empty tensor at the end of the file starts on a border, and is refused
as if it began inside an object. -/
theorem spans_exact_empty_last :
    ∃ view : TensorView, view.file = TwiceFile.entry ∧ view.shape = [0] ∧
      0 ≤ view.offset ∧ 0 ≤ view.nbytes ∧
      view.offset + view.nbytes ≤ view.file.sizeBytes ∧
      view.OccupiesWhole ∧ view.objectSpan = none ∧
      ¬ SpanExact sha256 TwiceFile.reader [[1, 2], [1, 2]] view := by
  have hwhole : (TwiceFile.tensor [0] 0 4).OccupiesWhole :=
    ⟨TwiceFile.entry.objects, [], [], rfl, rfl, rfl⟩
  refine ⟨TwiceFile.tensor [0] 0 4, rfl, rfl, by decide, by decide, by decide,
    hwhole, rfl, ?_⟩
  intro hexact
  cases hexact.1.mpr hwhole

end TensorFS.Python
