import TensorFS.Compose.Header
import TensorFS.Data.JsonText
import TensorFS.Data.Utf8Text
import TensorFS.Engine.Document
import TensorFS.Repository.Ref

namespace TensorFS

open Data

/-! What the two writers of a repository manifest have in common: one pass
over the sorted paths, kept apart exactly and up to ASCII case. -/

section Paths

variable {α ε : Type} (check : α → Except ε Unit) (path : α → Text)
  (fold : Text → Text) (duplicate collision : Text → ε)

def checkPaths : List Text → List Text → List α → Except ε Unit
  | _, _, [] => .ok ()
  | seen, folded, file :: files => do
      check file
      ensure (path file ∉ seen) (duplicate (path file))
      let caseKey := fold (path file)
      ensure (caseKey ∉ folded) (collision (path file))
      checkPaths (path file :: seen) (caseKey :: folded) files

variable {check path fold duplicate collision}

/-- Paths that fold apart are apart. -/
theorem checkPaths_eq_ok {seen : List Text} {files : List α} :
    checkPaths check path fold duplicate collision seen (seen.map fold) files =
        .ok () ↔
      (∀ file ∈ files, check file = .ok ()) ∧
        (files.map fun file => fold (path file)).Nodup ∧
        ∀ file ∈ files, fold (path file) ∉ seen.map fold := by
  induction files generalizing seen with
  | nil => simp [checkPaths]
  | cons file files ih =>
      have hseen : path file ∈ seen → fold (path file) ∈ seen.map fold :=
        List.mem_map_of_mem
      have hrest := @ih (path file :: seen)
      rw [List.map_cons] at hrest
      simp only [checkPaths, except_bind_eq_ok, ensure_eq_ok, hrest,
        forall_eq_or_imp, List.map_cons, List.nodup_cons, List.mem_cons,
        not_or, exists_unit]
      constructor
      · intro h
        obtain ⟨hcheck, _, hfold, hchecks, hnodup, hapart⟩ := h
        refine ⟨⟨hcheck, hchecks⟩, ⟨?_, hnodup⟩, hfold,
          fun other hother => (hapart other hother).2⟩
        intro hmem
        obtain ⟨other, hother, heq⟩ := List.mem_map.mp hmem
        exact (hapart other hother).1 heq
      · intro h
        obtain ⟨⟨hcheck, hchecks⟩, ⟨hhead, hnodup⟩, hfold, hapart⟩ := h
        refine ⟨hcheck, fun hmem => hfold (hseen hmem), hfold, hchecks, hnodup,
          fun other hother => ⟨fun heq => hhead ?_, hapart other hother⟩⟩
        exact heq ▸ List.mem_map_of_mem hother

theorem checkPaths_nil_eq_ok {files : List α} :
    checkPaths check path fold duplicate collision [] [] files = .ok () ↔
      (∀ file ∈ files, check file = .ok ()) ∧
        (files.map fun file => fold (path file)).Nodup := by
  simpa using @checkPaths_eq_ok α ε check path fold duplicate collision [] files

end Paths

/-- The forms of a repository path both writers keep. -/
def PortablePath (path : Text) : Prop :=
  path ≠ [] ∧ path.head? ≠ some '/' ∧ '\\' ∉ path ∧
    (∀ c ∈ path, ¬ c.toNat < 32 ∧ c.toNat ≠ 127) ∧
    ∀ component ∈ path.splitOn '/',
      component ≠ [] ∧ component ≠ ['.'] ∧ component ≠ ['.', '.']

end TensorFS

namespace TensorFS.Go

open Data

def formatV1 : Int := 1

structure Chunk where
  digest : Ref
  len : Int64
  deriving DecidableEq

/-- A path is the text its bytes spell; other bytes are refused first. -/
structure File where
  path : Text
  sizeBytes : Int64
  digest : Ref
  chunks : List Chunk
  deriving DecidableEq

structure Derivation where
  source : Ref
  morphism : Text
  deriving DecidableEq

structure Manifest where
  format : Int
  files : List File
  derived : Option Derivation
  deriving DecidableEq

inductive FileFault where
  | relative (path : Text)
  | control (path : Text)
  | component (path : Text)
  | digest
  | negative
  | chunkDigest (index : Nat)
  | chunkLength (index : Nat) (len : Int64)
  | exceed
  | sum
  | whole
  deriving DecidableEq

inductive ManifestFault where
  | format (format : Int)
  | source
  | bridge (text : Text)
  | handle (fault : HandleFault)
  | derivesNothing (morphism : Text)
  | file (path : Text) (fault : FileFault)
  | duplicate (path : Text)
  | collision (path : Text)
  deriving DecidableEq

def parseBridge (text : Text) : Except ManifestFault (Handle × Handle) :=
  match Dim.splitOnce '>' text with
  | none => .error (.bridge text)
  | some (left, right) => do
      let source ← (parseHandle left).mapError .handle
      let target ← (parseHandle right).mapError .handle
      .ok (source, target)

def Derivation.validate (d : Derivation) : Except ManifestFault Unit := do
  ensure (d.source ≠ .zero) .source
  let (source, target) ← parseBridge d.morphism
  ensure (source ≠ target) (.derivesNothing d.morphism)

def validatePath (value : Text) : Except FileFault Unit := do
  ensure (¬ (value = [] ∨ value.head? = some '/' ∨ '\\' ∈ value))
    (.relative value)
  ensure (∀ character ∈ value,
    ¬ (character.toNat < 32 ∨ character.toNat = 127)) (.control value)
  ensure (∀ component ∈ value.splitOn '/',
    ¬ (component = [] ∨ component = ['.'] ∨ component = ['.', '.']))
    (.component value)

/-- The loop over the chunks; lengths are signed 64-bit words. -/
def checkChunks (sizeBytes : Int64) :
    Nat → Int64 → List Chunk → Except FileFault Int64
  | _, total, [] => .ok total
  | index, total, chunk :: chunks => do
      ensure (chunk.digest ≠ .zero) (.chunkDigest index)
      ensure (¬ (chunk.len ≤ 0 ∨ Int64.ofNat maxChunkSize < chunk.len))
        (.chunkLength index chunk.len)
      ensure (¬ sizeBytes - total < chunk.len) .exceed
      checkChunks sizeBytes (index + 1) (total + chunk.len) chunks

def File.validate (f : File) : Except FileFault Unit := do
  validatePath f.path
  ensure (f.digest ≠ .zero) .digest
  ensure (¬ f.sizeBytes < 0) .negative
  if f.chunks = [] then .ok ()
  else do
    let total ← checkChunks f.sizeBytes 0 0 f.chunks
    ensure (total = f.sizeBytes) .sum
    match f.chunks with
    | [chunk] => ensure (chunk.digest = f.digest) .whole
    | _ => .ok ()

theorem validatePath_eq_ok {value : Text} :
    validatePath value = .ok () ↔ PortablePath value := by
  simp only [validatePath, except_bind_eq_ok, ensure_eq_ok, exists_unit,
    not_or, PortablePath, ne_eq, and_assoc]

theorem toInt_add_of_lt {a b : Int64} (hlow : 0 ≤ a.toInt + b.toInt)
    (hhigh : a.toInt + b.toInt < 2 ^ 63) :
    (a + b).toInt = a.toInt + b.toInt := by
  rw [Int64.toInt_add]
  exact Int.bmod_eq_of_le_mul_two (by omega) (by omega)

/-- The bytes the chunks claim together. -/
def chunksTotal (chunks : List Chunk) : Int :=
  (chunks.map fun chunk => chunk.len.toInt).sum

def Chunk.Valid (chunk : Chunk) : Prop :=
  chunk.digest ≠ .zero ∧ 0 < chunk.len.toInt ∧
    chunk.len.toInt ≤ maxChunkSize

theorem chunksTotal_nonneg {chunks : List Chunk}
    (h : ∀ chunk ∈ chunks, chunk.Valid) : 0 ≤ chunksTotal chunks := by
  apply List.sum_nonneg
  intro len hmem
  obtain ⟨chunk, hchunk, rfl⟩ := List.mem_map.mp hmem
  exact (h chunk hchunk).2.1.le

/-- No sum or difference of the loop leaves 64 bits. -/
theorem checkChunks_eq_ok {sizeBytes total result : Int64} {index : Nat}
    {chunks : List Chunk} (htotal : 0 ≤ total.toInt)
    (hroom : total.toInt ≤ sizeBytes.toInt) :
    checkChunks sizeBytes index total chunks = .ok result ↔
      (∀ chunk ∈ chunks, chunk.Valid) ∧
        result.toInt = total.toInt + chunksTotal chunks ∧
        total.toInt + chunksTotal chunks ≤ sizeBytes.toInt := by
  induction chunks generalizing index total with
  | nil =>
      simp [checkChunks, chunksTotal, ← Int64.toInt_inj, eq_comm, hroom]
  | cons chunk chunks ih =>
      have hmax := sizeBytes.toInt_lt
      have hleft : (sizeBytes - total).toInt =
          sizeBytes.toInt - total.toInt :=
        Int64.toInt_sub_of_le _ _ (Int64.le_iff_toInt_le.mpr htotal)
          (Int64.le_iff_toInt_le.mpr hroom)
      have hnext (hlen : 0 < chunk.len.toInt)
          (hfits : chunk.len.toInt ≤ sizeBytes.toInt - total.toInt) :
          (total + chunk.len).toInt = total.toInt + chunk.len.toInt :=
        toInt_add_of_lt (by omega) (by omega)
      have hbound : (Int64.ofNat maxChunkSize).toInt = maxChunkSize := by
        decide
      have hsum : chunksTotal (chunk :: chunks) =
          chunk.len.toInt + chunksTotal chunks := List.sum_cons
      simp only [checkChunks, except_bind_eq_ok, ensure_eq_ok, exists_unit,
        not_or, Int64.le_iff_toInt_le, Int64.lt_iff_toInt_lt, not_lt, not_le,
        hbound, hleft, Int64.toInt_zero, List.forall_mem_cons, Chunk.Valid,
        hsum]
      constructor
      · intro h
        obtain ⟨hdigest, ⟨hlen, hmax⟩, hfits, hrest⟩ := h
        rw [ih (by rw [hnext hlen hfits]; omega)
          (by rw [hnext hlen hfits]; omega), hnext hlen hfits] at hrest
        exact ⟨⟨⟨hdigest, hlen, hmax⟩, hrest.1⟩, by omega, by omega⟩
      · intro h
        obtain ⟨⟨⟨hdigest, hlen, hmax⟩, hvalid⟩, hresult, hend⟩ := h
        have hrest := chunksTotal_nonneg hvalid
        have hfits : chunk.len.toInt ≤ sizeBytes.toInt - total.toInt := by
          omega
        refine ⟨hdigest, ⟨hlen, hmax⟩, hfits, ?_⟩
        rw [ih (by rw [hnext hlen hfits]; omega)
          (by rw [hnext hlen hfits]; omega), hnext hlen hfits]
        exact ⟨hvalid, by omega, by omega⟩

/-- What is kept of a file that passes. -/
structure File.Valid (f : File) : Prop where
  path : PortablePath f.path
  digest : f.digest ≠ .zero
  size : 0 ≤ f.sizeBytes.toInt
  chunks : ∀ chunk ∈ f.chunks, chunk.Valid
  total : f.chunks ≠ [] → chunksTotal f.chunks = f.sizeBytes.toInt
  whole : ∀ chunk, f.chunks = [chunk] → chunk.digest = f.digest

theorem File.validate_eq_ok {f : File} :
    f.validate = .ok () ↔ f.Valid := by
  simp only [File.validate, except_bind_eq_ok, ensure_eq_ok, exists_unit,
    validatePath_eq_ok, Int64.lt_iff_toInt_lt, Int64.toInt_zero, not_lt]
  constructor
  · intro h
    obtain ⟨hpath, hdigest, hsize, hrest⟩ := h
    split at hrest
    · rename_i hnil
      refine ⟨hpath, hdigest, hsize, ?_, fun h => absurd hnil h, ?_⟩
      · simp [hnil]
      · intro chunk hone
        rw [hnil] at hone
        cases hone
    · simp only [except_bind_eq_ok, ensure_eq_ok, exists_unit] at hrest
      obtain ⟨total, hchunks, hsum, hwhole⟩ := hrest
      rw [checkChunks_eq_ok (by simp) (by simpa using hsize)] at hchunks
      obtain ⟨hvalid, htotal, -⟩ := hchunks
      refine ⟨hpath, hdigest, hsize, hvalid, fun _ => ?_, ?_⟩
      · rw [← hsum, htotal, Int64.toInt_zero, zero_add]
      · intro chunk hone
        rw [hone] at hwhole
        exact ensure_eq_ok.mp hwhole
  · intro h
    refine ⟨h.path, h.digest, h.size, ?_⟩
    split
    · rfl
    · rename_i hne
      have htotal := h.total hne
      simp only [except_bind_eq_ok, ensure_eq_ok, exists_unit]
      refine ⟨f.sizeBytes, ?_, rfl, ?_⟩
      · rw [checkChunks_eq_ok (by simp) (by simpa using h.size)]
        exact ⟨h.chunks, by simp [htotal], by simp [htotal]⟩
      · split
        · rename_i chunk hone
          exact ensure_of (h.whole chunk hone)
        · rfl

/-! The encoder.  The checks leave no zero reference, which is all it would
refuse. -/

def escapeString (c : Char) : Text :=
  if c = '\u2028' then "\\u2028".toList
  else if c = '\u2029' then "\\u2029".toList
  else escapeChar c

def Chunk.marshal (chunk : Chunk) : Text :=
  jsonObject [("digest", jsonString escapeString chunk.digest.render),
    ("len", renderInt chunk.len.toInt)]

def File.marshal (f : File) : Text :=
  jsonObject ([("path", jsonString escapeString f.path),
    ("size_bytes", renderInt f.sizeBytes.toInt),
    ("digest", jsonString escapeString f.digest.render)] ++
    if f.chunks = [] then []
    else [("chunks", jsonArray (f.chunks.map Chunk.marshal))])

def Derivation.marshal (d : Derivation) : Text :=
  jsonObject [("source", jsonString escapeString d.source.render),
    ("morphism", jsonString escapeString d.morphism)]

namespace Manifest

def marshal (m : Manifest) : Text :=
  jsonObject ([("format", renderInt m.format),
    ("files", jsonArray (m.files.map File.marshal))] ++
    m.derived.toList.map fun d => ("derived_from", d.marshal))

/-- Strings are ordered by their bytes. -/
def sortFiles (files : List File) : List File :=
  files.mergeSort fun left right => ¬ right.path.utf8 < left.path.utf8

def checkFile (f : File) : Except ManifestFault Unit :=
  f.validate.mapError (.file f.path)

def checkFiles (files : List File) : Except ManifestFault Unit :=
  checkPaths checkFile File.path asciiFold .duplicate .collision [] [] files

def canonical (m : Manifest) : Except ManifestFault Bytes := do
  ensure (m.format = formatV1) (.format m.format)
  match m.derived with
  | some d => d.validate
  | none => .ok ()
  let copyOf := { m with files := sortFiles m.files }
  checkFiles copyOf.files
  .ok copyOf.marshal.utf8

def digest (sha256 : Bytes → Digest) (m : Manifest) :
    Except ManifestFault Ref := do
  let data ← m.canonical
  .ok (.ofDigest (sha256 data))

theorem checkFile_eq_ok {f : File} : checkFile f = .ok () ↔ f.Valid := by
  rw [← File.validate_eq_ok, checkFile, mapError_eq_ok]

theorem checkFiles_eq_ok {files : List File} :
    checkFiles files = .ok () ↔
      (∀ f ∈ files, f.Valid) ∧
        (files.map fun f => asciiFold f.path).Nodup := by
  simp only [checkFiles, checkPaths_nil_eq_ok, checkFile_eq_ok]

theorem sortFiles_perm (files : List File) : (sortFiles files).Perm files :=
  List.mergeSort_perm _ _

theorem sortFiles_eq (files : List File) :
    sortFiles files =
      files.mergeSort fun left right => left.path ≤ right.path := by
  unfold sortFiles
  congr 1
  funext left right
  rw [decide_eq_decide, utf8_lt_iff, not_lt]

theorem sortFiles_pairwise (files : List File) :
    (sortFiles files).Pairwise fun left right =>
      left.path ≤ right.path := by
  rw [sortFiles_eq]
  refine (List.pairwise_mergeSort ?_ ?_ files).imp of_decide_eq_true
  · intro a b c hab hbc
    simp only [decide_eq_true_eq] at hab hbc ⊢
    exact hab.trans hbc
  · intro a b
    simp only [Bool.or_eq_true, decide_eq_true_eq]
    exact le_total _ _

/-- Files whose paths fold apart have one order. -/
theorem sortFiles_congr {files reordered : List File}
    (hperm : files.Perm reordered)
    (hnodup : (files.map fun f => asciiFold f.path).Nodup) :
    sortFiles files = sortFiles reordered := by
  have hsort := sortFiles_perm files
  refine List.Perm.eq_of_pairwise ?_ (sortFiles_pairwise files)
    (sortFiles_pairwise reordered)
    (hsort.trans (hperm.trans (sortFiles_perm reordered).symm))
  intro left right hleft hright hle hge
  refine List.inj_on_of_nodup_map hnodup (hsort.mem_iff.mp hleft) ?_
    (congrArg asciiFold (le_antisymm hle hge))
  exact hperm.mem_iff.mpr
    ((sortFiles_perm reordered).mem_iff.mp hright)

theorem sortFiles_of_pairwise {files : List File}
    (h : files.Pairwise fun left right => left.path ≤ right.path) :
    sortFiles files = files := by
  rw [sortFiles_eq]
  exact List.mergeSort_of_pairwise (h.imp fun hle => decide_eq_true hle)

/-- A manifest is encoded when its files stand one by one and their paths fold
apart. -/
theorem canonical_eq_ok {m : Manifest} {bytes : Bytes} :
    m.canonical = .ok bytes ↔
      m.format = formatV1 ∧ (∀ d, m.derived = some d → d.validate = .ok ()) ∧
        (∀ f ∈ m.files, f.Valid) ∧
        (m.files.map fun f => asciiFold f.path).Nodup ∧
        bytes = Text.utf8 (marshal { m with files := sortFiles m.files }) := by
  have hperm := sortFiles_perm m.files
  have hfiles := (hperm.map fun f => asciiFold f.path).nodup_iff
  unfold canonical
  cases m.derived <;>
    simp [checkFiles_eq_ok, hperm.mem_iff, hfiles, and_assoc,
      eq_comm (a := bytes)]

end Manifest

end TensorFS.Go
