import TensorFS.Data.Table
import TensorFS.Repository.Manifest

namespace TensorFS.Go

open Data

/-! Reading a declaration back and holding it to its limits. -/

structure Object where
  digest : Ref
  sizeBytes : Int64
  deriving DecidableEq

/-- The objects a file is rebuilt from. -/
def File.objects (f : File) : List Object :=
  if f.chunks = [] then [⟨f.digest, f.sizeBytes⟩]
  else f.chunks.map fun chunk => ⟨chunk.digest, chunk.len⟩

/-- A file as the decoder leaves it; chunks are absent, null or a list. -/
structure WireFile where
  path : Option Text
  sizeBytes : Option Int64
  digest : Option Ref
  chunks : Option (Option (List Chunk))

structure WireManifest where
  format : Option Int
  files : Option (List WireFile)
  derived : Option Derivation

structure Limits where
  maxFiles : Int
  maxObjects : Int
  maxFileBytes : Int64
  maxTotalBytes : Int64

inductive DeclarationFault where
  | manifest (fault : ManifestFault)
  | utf8
  | json
  | fileFields
  | nullChunks
  | emptyChunks
  | file (fault : FileFault)
  | manifestFields
  | files (count : Nat) (limit : Int)
  | fileBytes (path : Text) (sizeBytes limit : Int64)
  | signed (label : String)
  | totalBytes (total limit : Int64)
  | twoSizes (digest : Ref) (previous sizeBytes : Int64)
  | objects (count : Nat) (limit : Int)
  deriving DecidableEq

def WireFile.read (wire : WireFile) : Except DeclarationFault File :=
  match wire.path, wire.sizeBytes, wire.digest with
  | some path, some sizeBytes, some digest => do
      let chunks ←
        match wire.chunks with
        | none => .ok []
        | some none => .error .nullChunks
        | some (some []) => .error .emptyChunks
        | some (some chunks) => .ok chunks
      let decoded : File := ⟨path, sizeBytes, digest, chunks⟩
      decoded.validate.mapError .file
      .ok decoded
  | _, _, _ => .error .fileFields

namespace Manifest

/-- What the decoder hands over has been encoded as this manifest is. -/
def wire (m : Manifest) : WireManifest where
  format := some m.format
  files := some (m.files.map fun f =>
    ⟨some f.path, some f.sizeBytes, some f.digest,
      if f.chunks = [] then none else some (some f.chunks)⟩)
  derived := m.derived

def sorted (m : Manifest) : Manifest := { m with files := sortFiles m.files }

end Manifest

/-! Limits. -/

def defaultMaxFiles : Int := 100000

def defaultMaxObjects : Int := 200000

def defaultMaxFileBytes : Int64 := Int64.ofNat (512 * 2 ^ 30)

def defaultMaxTotalBytes : Int64 := Int64.ofNat (4 * 2 ^ 40)

namespace Limits

def zero : Limits := ⟨0, 0, 0, 0⟩

def defaults (limits : Limits) : Limits where
  maxFiles := if limits.maxFiles ≤ 0 then defaultMaxFiles else limits.maxFiles
  maxObjects :=
    if limits.maxObjects ≤ 0 then defaultMaxObjects else limits.maxObjects
  maxFileBytes :=
    if limits.maxFileBytes ≤ 0 then defaultMaxFileBytes
    else limits.maxFileBytes
  maxTotalBytes :=
    if limits.maxTotalBytes ≤ 0 then defaultMaxTotalBytes
    else limits.maxTotalBytes

end Limits

def checkedAdd (total increment : Int64) (label : String) :
    Except DeclarationFault Int64 := do
  ensure (¬ Int64.maxValue - total < increment) (.signed label)
  .ok (total + increment)

/-- Digests are kept in the order they are first declared in. -/
def declareObject (objects : List Object) (object : Object) :
    Except DeclarationFault (List Object) :=
  match findRow Object.digest objects object.digest with
  | some previous => do
      ensure (previous.sizeBytes = object.sizeBytes)
        (.twoSizes object.digest previous.sizeBytes object.sizeBytes)
      .ok objects
  | none => .ok (objects ++ [object])

/-- The walk over the files that every reader of a declaration makes; `charge`
is what it does with a file before its objects. -/
def walkFiles (charge : Int64 → File → Except DeclarationFault Int64) :
    Int64 → List Object → List File →
      Except DeclarationFault (Int64 × List Object)
  | total, objects, [] => .ok (total, objects)
  | total, objects, file :: files => do
      let total ← charge total file
      let objects ← file.objects.foldlM declareObject objects
      walkFiles charge total objects files

def Limits.charge (limits : Limits) (total : Int64) (file : File) :
    Except DeclarationFault Int64 := do
  ensure (¬ limits.maxFileBytes < file.sizeBytes)
    (.fileBytes file.path file.sizeBytes limits.maxFileBytes)
  let total ← checkedAdd total file.sizeBytes "declared repository size"
  ensure (¬ limits.maxTotalBytes < total)
    (.totalBytes total limits.maxTotalBytes)
  .ok total

section

variable (decode : Bytes → Option WireManifest)

/-- `decode` reads one JSON value into the wire form, and nothing behind it. -/
def Manifest.parse (data : Bytes) : Except DeclarationFault Manifest := do
  ensure ((Text.fromUtf8 data).isSome) .utf8
  let wire ←
    match decode data with
    | some wire => .ok wire
    | none => .error .json
  let files ← (wire.files.getD []).mapM WireFile.read
  match wire.format, wire.files with
  | some format, some _ => do
      let decoded : Manifest := ⟨format, files, wire.derived⟩
      let _ ← decoded.canonical.mapError .manifest
      .ok decoded.sorted
  | _, _ => .error .manifestFields

/-- A declaration is made canonical and bounded before any store is asked. -/
def validateManifest (manifest : Manifest) (limits : Limits) :
    Except DeclarationFault Manifest := do
  let canonical ← manifest.canonical.mapError .manifest
  let manifest ← Manifest.parse decode canonical
  let limits := limits.defaults
  ensure (¬ limits.maxFiles < manifest.files.length)
    (.files manifest.files.length limits.maxFiles)
  let (_, objects) ← walkFiles limits.charge 0 [] manifest.files
  ensure (¬ limits.maxObjects < objects.length)
    (.objects objects.length limits.maxObjects)
  .ok manifest

end

/-! What the walk finds. -/

def Manifest.objects (m : Manifest) : List Object :=
  m.files.flatMap File.objects

/-- Every object once, under its own digest. -/
structure Distinct (objects distinct : List Object) : Prop where
  nodup : (distinct.map Object.digest).Nodup
  mem : ∀ object, object ∈ distinct ↔ object ∈ objects

/-- A digest declared again has to have the size it had. -/
theorem declareObject_distinct {objects seen next : List Object}
    {object : Object} (h : Distinct seen objects)
    (hstep : declareObject objects object = .ok next) :
    Distinct (seen ++ [object]) next := by
  unfold declareObject at hstep
  cases hfind : findRow Object.digest objects object.digest with
  | none =>
      rw [hfind] at hstep
      cases hstep
      refine ⟨nodup_append_key h.nodup (findRow_eq_none.mp hfind),
        fun other => ?_⟩
      rw [List.mem_append, List.mem_append, h.mem]
  | some previous =>
      rw [hfind] at hstep
      simp only [except_bind_eq_ok, ensure_eq_ok, exists_unit,
        Except.ok.injEq] at hstep
      obtain ⟨hsize, rfl⟩ := hstep
      obtain ⟨hmem, hdigest⟩ := findRow_mem hfind
      have hsame : previous = object := by
        cases previous
        cases object
        cases hsize
        cases hdigest
        rfl
      refine ⟨h.nodup, fun other => ?_⟩
      rw [List.mem_append, List.mem_singleton, h.mem]
      refine ⟨.inl, fun hor => ?_⟩
      rcases hor with hother | rfl
      · exact hother
      · exact (h.mem _).mp (hsame ▸ hmem)

theorem declareObjects_distinct {objects seen next : List Object}
    {declared : List Object} (h : Distinct seen objects)
    (hrun : declared.foldlM declareObject objects = .ok next) :
    Distinct (seen ++ declared) next := by
  induction declared generalizing objects seen with
  | nil =>
      cases hrun
      rwa [List.append_nil]
  | cons object declared ih =>
      rw [List.foldlM_cons, except_bind_eq_ok] at hrun
      obtain ⟨middle, hstep, hrun⟩ := hrun
      have hrest := ih (declareObject_distinct h hstep) hrun
      rwa [List.append_assoc, List.singleton_append] at hrest

/-- The walk is a run over the files beside a run over their objects. -/
theorem walkFiles_eq_ok
    {charge : Int64 → File → Except DeclarationFault Int64}
    {total last : Int64} {objects found : List Object} {files : List File} :
    walkFiles charge total objects files = .ok (last, found) ↔
      files.foldlM charge total = .ok last ∧
        (files.flatMap File.objects).foldlM declareObject objects =
          .ok found := by
  induction files generalizing total objects with
  | nil =>
      show Except.ok (total, objects) = Except.ok (last, found) ↔
        Except.ok total = Except.ok last ∧
          Except.ok objects = Except.ok found
      simp
  | cons file files ih =>
      rw [List.foldlM_cons, List.flatMap_cons, List.foldlM_append]
      simp only [walkFiles, except_bind_eq_ok, ih]
      constructor
      · intro h
        obtain ⟨next, hcharge, middle, hobjects, hfold, hrest⟩ := h
        exact ⟨⟨next, hcharge, hfold⟩, middle, hobjects, hrest⟩
      · intro h
        obtain ⟨⟨next, hcharge, hfold⟩, middle, hobjects, hrest⟩ := h
        exact ⟨next, hcharge, middle, hobjects, hfold, hrest⟩

theorem walkFiles_distinct
    {charge : Int64 → File → Except DeclarationFault Int64}
    {total last : Int64} {found : List Object} {files : List File}
    (h : walkFiles charge total [] files = .ok (last, found)) :
    Distinct (files.flatMap File.objects) found := by
  have hnone : Distinct [] [] := ⟨List.nodup_nil, fun _ => Iff.rfl⟩
  exact declareObjects_distinct hnone (walkFiles_eq_ok.mp h).2

/-! What the limits charge. -/

def filesTotal (files : List File) : Int :=
  (files.map fun f => f.sizeBytes.toInt).sum

theorem checkedAdd_eq_ok {total increment next : Int64} {label : String}
    (htotal : 0 ≤ total.toInt) (hincrement : 0 ≤ increment.toInt) :
    checkedAdd total increment label = .ok next ↔
      next.toInt = total.toInt + increment.toInt ∧
        total.toInt + increment.toInt < 2 ^ 63 := by
  have hmax : (Int64.maxValue).toInt = 2 ^ 63 - 1 := by decide
  have hbound := total.toInt_lt
  have hleft : (Int64.maxValue - total).toInt = 2 ^ 63 - 1 - total.toInt := by
    rw [Int64.toInt_sub_of_le _ _ (Int64.le_iff_toInt_le.mpr htotal)
      (Int64.le_iff_toInt_le.mpr (by omega)), hmax]
  simp only [checkedAdd, except_bind_eq_ok, ensure_eq_ok, exists_unit,
    Int64.lt_iff_toInt_lt, hleft, not_lt, Except.ok.injEq,
    ← Int64.toInt_inj (y := next)]
  constructor
  · intro h
    obtain ⟨hfits, hnext⟩ := h
    rw [toInt_add_of_lt (by omega) (by omega)] at hnext
    omega
  · intro h
    obtain ⟨hnext, hfits⟩ := h
    rw [toInt_add_of_lt (by omega) (by omega)]
    omega

theorem charge_eq_ok {limits : Limits} {total next : Int64} {file : File}
    (htotal : 0 ≤ total.toInt) (hsize : 0 ≤ file.sizeBytes.toInt) :
    limits.charge total file = .ok next ↔
      file.sizeBytes.toInt ≤ limits.maxFileBytes.toInt ∧
        next.toInt = total.toInt + file.sizeBytes.toInt ∧
        total.toInt + file.sizeBytes.toInt ≤ limits.maxTotalBytes.toInt := by
  have hbound := limits.maxTotalBytes.toInt_lt
  simp only [Limits.charge, except_bind_eq_ok, ensure_eq_ok, exists_unit,
    checkedAdd_eq_ok htotal hsize, Int64.lt_iff_toInt_lt, not_lt,
    Except.ok.injEq]
  constructor
  · intro h
    obtain ⟨hfile, sum, ⟨hsum, _⟩, hlimit, heq⟩ := h
    rw [heq] at hsum hlimit
    omega
  · intro h
    obtain ⟨hfile, hnext, hlimit⟩ := h
    exact ⟨hfile, next, ⟨hnext, by omega⟩, by omega, rfl⟩

theorem admitAll_ok_iff {limits : Limits} {total : Int64} {files : List File}
    (htotal : 0 ≤ total.toInt)
    (hroom : total.toInt ≤ limits.maxTotalBytes.toInt)
    (hsizes : ∀ f ∈ files, 0 ≤ f.sizeBytes.toInt) :
    (∃ last, files.foldlM limits.charge total = .ok last) ↔
      (∀ f ∈ files, f.sizeBytes.toInt ≤ limits.maxFileBytes.toInt) ∧
        total.toInt + filesTotal files ≤ limits.maxTotalBytes.toInt := by
  induction files generalizing total with
  | nil =>
      have hok : ([] : List File).foldlM limits.charge total = .ok total := rfl
      simpa [hok, filesTotal] using hroom
  | cons file files ih =>
      obtain ⟨hsize, hrest⟩ := List.forall_mem_cons.mp hsizes
      have hsum : filesTotal (file :: files) =
          file.sizeBytes.toInt + filesTotal files := List.sum_cons
      have hnonneg : 0 ≤ filesTotal files := by
        apply List.sum_nonneg
        intro size hmem
        obtain ⟨f, hf, rfl⟩ := List.mem_map.mp hmem
        exact hrest f hf
      simp only [List.foldlM_cons, except_bind_eq_ok, List.forall_mem_cons,
        hsum]
      constructor
      · intro h
        obtain ⟨last, next, hcharge, hfold⟩ := h
        obtain ⟨hfile, hnext, hlimit⟩ := (charge_eq_ok htotal hsize).mp hcharge
        obtain ⟨hfiles, htotals⟩ :=
          (ih (by omega) (by omega) hrest).mp ⟨last, hfold⟩
        exact ⟨⟨hfile, hfiles⟩, by omega⟩
      · intro h
        obtain ⟨⟨hfile, hfiles⟩, htotals⟩ := h
        have hnext : (total + file.sizeBytes).toInt =
            total.toInt + file.sizeBytes.toInt := by
          have := limits.maxTotalBytes.toInt_lt
          exact toInt_add_of_lt (by omega) (by omega)
        obtain ⟨last, hfold⟩ := (@ih (total + file.sizeBytes)
          (by omega) (by omega) hrest).mpr ⟨hfiles, by omega⟩
        exact ⟨last, _, (charge_eq_ok htotal hsize).mpr
          ⟨hfile, hnext, by omega⟩, hfold⟩

/-! Reading back. -/

namespace Manifest

theorem sortFiles_sortFiles (files : List File) :
    sortFiles (sortFiles files) = sortFiles files :=
  sortFiles_of_pairwise (sortFiles_pairwise files)

@[simp] theorem sorted_sorted (m : Manifest) : m.sorted.sorted = m.sorted := by
  rw [sorted, sorted, sortFiles_sortFiles]

theorem sorted_perm (m : Manifest) : m.sorted.files.Perm m.files :=
  sortFiles_perm m.files

@[simp] theorem sorted_canonical (m : Manifest) :
    m.sorted.canonical = m.canonical := by
  unfold canonical
  dsimp only [sorted]
  rw [sortFiles_sortFiles]
  rfl

end Manifest

/-- The decoder reads back what the encoder wrote of a manifest. -/
def ReadsBack (decode : Bytes → Option WireManifest) (m : Manifest) : Prop :=
  ∀ bytes, m.canonical = .ok bytes → decode bytes = some m.sorted.wire

theorem read_wire {f : File} (h : f.Valid) :
    WireFile.read ⟨some f.path, some f.sizeBytes, some f.digest,
      if f.chunks = [] then none else some (some f.chunks)⟩ = .ok f := by
  have hvalid : f.validate = .ok () := File.validate_eq_ok.mpr h
  obtain ⟨path, sizeBytes, digest, chunks⟩ := f
  cases chunks with
  | nil => simp [WireFile.read, hvalid, Except.mapError]
  | cons chunk chunks => simp [WireFile.read, hvalid, Except.mapError]

theorem mapM_read_wire {files : List File} (h : ∀ f ∈ files, f.Valid) :
    (files.map fun f => WireFile.mk (some f.path) (some f.sizeBytes)
      (some f.digest) (if f.chunks = [] then none else some (some f.chunks))
      ).mapM WireFile.read = .ok files := by
  induction files with
  | nil => rfl
  | cons f files ih =>
      obtain ⟨hf, hfiles⟩ := List.forall_mem_cons.mp h
      rw [List.map_cons, List.mapM_cons, read_wire hf, except_ok_bind,
        ih hfiles]
      rfl

variable {decode : Bytes → Option WireManifest}

theorem parse_canonical {m : Manifest} {bytes : Bytes}
    (hdecode : ReadsBack decode m) (h : m.canonical = .ok bytes) :
    Manifest.parse decode bytes = .ok m.sorted := by
  obtain ⟨_, _, hvalid, _, hbytes⟩ := Manifest.canonical_eq_ok.mp h
  have hfiles : ∀ f ∈ m.sorted.files, f.Valid := fun f hmem =>
    hvalid f (m.sorted_perm.mem_iff.mp hmem)
  have hutf8 : (Text.fromUtf8 bytes).isSome := by
    rw [hbytes, Text.fromUtf8_utf8]
    rfl
  have hcanonical : Manifest.canonical
      ⟨m.format, m.sorted.files, m.derived⟩ = .ok bytes :=
    m.sorted_canonical.trans h
  simp only [Manifest.parse, hdecode bytes h, Manifest.wire,
    Option.getD_some, mapM_read_wire hfiles, ensure_of hutf8, except_ok_bind]
  show (do
    let _ ← (Manifest.canonical ⟨m.format, m.sorted.files, m.derived⟩).mapError
      DeclarationFault.manifest
    Except.ok m.sorted.sorted) = _
  rw [hcanonical, Manifest.sorted_sorted]
  rfl

/-- What one set of limits admits. -/
structure Limits.Admits (limits : Limits) (m : Manifest) : Prop where
  files : m.files.length ≤ limits.maxFiles
  fileBytes : ∀ f ∈ m.files, f.sizeBytes.toInt ≤ limits.maxFileBytes.toInt
  totalBytes : filesTotal m.files ≤ limits.maxTotalBytes.toInt
  objects : (m.objects.map Object.digest).dedup.length ≤ limits.maxObjects

/-- The distinct objects of a declaration, where it has them. -/
def Manifest.declares (m : Manifest) (objects : List Object) : Prop :=
  m.objects.foldlM declareObject [] = .ok objects

theorem Manifest.sorted_objects_perm (m : Manifest) :
    m.sorted.objects.Perm m.objects :=
  m.sorted_perm.flatMap_right _

theorem Distinct.length_eq {objects distinct : List Object}
    (h : Distinct objects distinct) :
    distinct.length = (objects.map Object.digest).dedup.length := by
  have hperm : (distinct.map Object.digest).Perm
      (objects.map Object.digest).dedup := by
    rw [List.perm_ext_iff_of_nodup h.nodup (List.nodup_dedup _)]
    intro digest
    simp only [List.mem_dedup, List.mem_map, h.mem]
  rw [← hperm.length_eq, List.length_map]

theorem Limits.Admits.perm {limits : Limits} {m other : Manifest}
    (hperm : m.files.Perm other.files) (h : limits.Admits m) :
    limits.Admits other where
  files := hperm.length_eq ▸ h.files
  fileBytes f hmem := h.fileBytes f (hperm.mem_iff.mpr hmem)
  totalBytes := by
    have hsum : filesTotal other.files = filesTotal m.files :=
      ((hperm.map _).sum_eq).symm
    exact hsum ▸ h.totalBytes
  objects := by
    have hobjects := ((hperm.flatMap_right File.objects).map
      Object.digest).dedup.length_eq
    have hadmitted := h.objects
    rw [Manifest.objects, hobjects] at hadmitted
    exact hadmitted

theorem admits_sorted_iff {limits : Limits} {m : Manifest} :
    limits.Admits m.sorted ↔ limits.Admits m :=
  ⟨.perm m.sorted_perm, .perm m.sorted_perm.symm⟩

theorem Limits.defaults_total_nonneg (limits : Limits) :
    0 ≤ limits.defaults.maxTotalBytes.toInt := by
  unfold Limits.defaults
  dsimp only
  split
  · decide
  · rename_i h
    rw [Int64.le_iff_toInt_le, not_le] at h
    exact h.le

/-- A declaration passes when it is canonical, declares no object with two
sizes and keeps to the limits. -/
theorem validateManifest_eq_ok {m validated : Manifest} {limits : Limits}
    (hdecode : ReadsBack decode m) :
    validateManifest decode m limits = .ok validated ↔
      (∃ bytes, m.canonical = .ok bytes) ∧
        (∃ objects, m.sorted.declares objects) ∧
        limits.defaults.Admits m ∧ validated = m.sorted := by
  have hparse (bytes : Bytes) (h : m.canonical = .ok bytes)
      (read : Manifest) :
      Manifest.parse decode bytes = .ok read ↔ m.sorted = read := by
    rw [parse_canonical hdecode h, Except.ok.injEq]
  have hsizes (bytes : Bytes) (h : m.canonical = .ok bytes) :
      ∀ f ∈ m.sorted.files, 0 ≤ f.sizeBytes.toInt := fun f hmem =>
    ((Manifest.canonical_eq_ok.mp h).2.2.1 f
      (m.sorted_perm.mem_iff.mp hmem)).size
  have hcharge (bytes : Bytes) (h : m.canonical = .ok bytes) :=
    admitAll_ok_iff (Int64.toInt_zero.ge)
      (Int64.toInt_zero.le.trans limits.defaults_total_nonneg) (hsizes bytes h)
  rw [← admits_sorted_iff]
  simp only [validateManifest, except_bind_eq_ok, mapError_eq_ok,
    ensure_eq_ok, exists_unit, not_lt, Except.ok.injEq, Prod.exists,
    walkFiles_eq_ok]
  constructor
  · intro h
    obtain ⟨bytes, hbytes, read, hread, hfiles, last, found, ⟨hfold, hfound⟩,
      hobjects, hvalidated⟩ := h
    cases (hparse bytes hbytes read).mp hread
    obtain ⟨hfile, htotal⟩ := (hcharge bytes hbytes).mp ⟨last, hfold⟩
    rw [Int64.toInt_zero, zero_add] at htotal
    have hdistinct := walkFiles_distinct (walkFiles_eq_ok.mpr ⟨hfold, hfound⟩)
    rw [hdistinct.length_eq] at hobjects
    exact ⟨⟨bytes, hbytes⟩, ⟨found, hfound⟩,
      ⟨hfiles, hfile, htotal, hobjects⟩, hvalidated.symm⟩
  · intro h
    obtain ⟨⟨bytes, hbytes⟩, ⟨found, hfound⟩, hadmits, hvalidated⟩ := h
    obtain ⟨last, hfold⟩ := (hcharge bytes hbytes).mpr
      ⟨hadmits.fileBytes, by simpa using hadmits.totalBytes⟩
    have hdistinct := walkFiles_distinct (walkFiles_eq_ok.mpr ⟨hfold, hfound⟩)
    refine ⟨bytes, hbytes, m.sorted, (hparse bytes hbytes _).mpr rfl,
      hadmits.files, last, found, ⟨hfold, hfound⟩, ?_, hvalidated.symm⟩
    rw [hdistinct.length_eq]
    exact hadmits.objects

end TensorFS.Go
