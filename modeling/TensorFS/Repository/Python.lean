import TensorFS.Repository.Manifest

namespace TensorFS.Python

open Data

/-! The reference client's repository manifest.  Its integers are unbounded and
its texts are compared by scalar value. -/

def maxChunkSize : Int := 64 * 2 ^ 20

def currentFormat : Int := 1

def maxSize : Int := 2 ^ 63 - 1

structure CASRef where
  digest : Digest
  deriving DecidableEq

inductive ManifestError where
  | emptyRef
  | relative (path : Text)
  | control (path : Text)
  | component (path : Text)
  | chunkLength (length : Int)
  | fileSize
  | sum
  | whole
  | format (format : Int)
  | duplicate (path : Text)
  | collision (path : Text)
  deriving DecidableEq

/-- A reference is kept as it is; nothing else is handed over but the empty
text. -/
def CASRef.parse : Option CASRef → Except ManifestError CASRef
  | some ref => .ok ref
  | none => .error .emptyRef

def CASRef.render (ref : CASRef) : Text :=
  "sha256:".toList ++ Go.hexEncode ref.digest.bytes

def validPath (path : Text) : Except ManifestError Text := do
  ensure (¬ (path = [] ∨ path.head? = some '/' ∨ '\\' ∈ path)) (.relative path)
  ensure (¬ ∃ char ∈ path, char.toNat < 32 ∨ char.toNat = 127) (.control path)
  ensure (¬ ∃ part ∈ path.splitOn '/',
    part = [] ∨ part = ['.'] ∨ part = ['.', '.']) (.component path)
  .ok path

def asciiFold (value : Text) : Text :=
  value.map fun char =>
    if 'A' ≤ char ∧ char ≤ 'Z' then Char.ofNat (char.toNat + 32) else char

structure Chunk where
  digest : CASRef
  length : Int
  length_ok : 0 < length ∧ length ≤ maxChunkSize
  deriving DecidableEq

def Chunk.make (digest : Option CASRef) (length : Int) :
    Except ManifestError Chunk := do
  let digest ← CASRef.parse digest
  if h : 0 < length ∧ length ≤ maxChunkSize then .ok ⟨digest, length, h⟩
  else .error (.chunkLength length)

structure FileEntry where
  path : Text
  sizeBytes : Int
  digest : CASRef
  chunks : List Chunk
  deriving DecidableEq

/-- An entry without chunks is one whole object of any size. -/
def checkChunks (sizeBytes : Int) (digest : CASRef) (chunks : List Chunk) :
    Except ManifestError Unit := do
  if chunks = [] then .ok ()
  else do
    ensure ((chunks.map Chunk.length).sum = sizeBytes) .sum
    match chunks with
    | [chunk] => ensure (chunk.digest = digest) .whole
    | _ => .ok ()

def FileEntry.make (path : Text) (sizeBytes : Int) (digest : Option CASRef)
    (chunks : List Chunk) : Except ManifestError FileEntry := do
  let path ← validPath path
  let digest ← CASRef.parse digest
  ensure (0 ≤ sizeBytes ∧ sizeBytes ≤ maxSize) .fileSize
  checkChunks sizeBytes digest chunks
  .ok ⟨path, sizeBytes, digest, chunks⟩

structure RepositoryManifest where
  files : List FileEntry
  format : Int
  deriving DecidableEq

def RepositoryManifest.make (files : List FileEntry) (format : Int) :
    Except ManifestError RepositoryManifest := do
  ensure (format = currentFormat) (.format format)
  let ordered := files.mergeSort fun left right => left.path ≤ right.path
  checkPaths (fun _ => .ok ()) FileEntry.path asciiFold .duplicate .collision
    [] [] ordered
  .ok ⟨ordered, format⟩

/-! The encoder escapes no scalar value above ASCII; two of them are rewritten
in the finished bytes. -/

def Chunk.dump (chunk : Chunk) : Text :=
  jsonObject [("digest", jsonString escapeChar chunk.digest.render),
    ("len", Go.renderInt chunk.length)]

def FileEntry.dump (entry : FileEntry) : Text :=
  jsonObject ([("path", jsonString escapeChar entry.path),
    ("size_bytes", Go.renderInt entry.sizeBytes),
    ("digest", jsonString escapeChar entry.digest.render)] ++
    if entry.chunks = [] then []
    else [("chunks", jsonArray (entry.chunks.map Chunk.dump))])

namespace RepositoryManifest

def dump (m : RepositoryManifest) : Text :=
  jsonObject [("format", Go.renderInt m.format),
    ("files", jsonArray (m.files.map FileEntry.dump))]

def canonicalBytes (m : RepositoryManifest) : Bytes :=
  replaceBytes [0xe2, 0x80, 0xa9] (Text.utf8 "\\u2029".toList)
    (replaceBytes [0xe2, 0x80, 0xa8] (Text.utf8 "\\u2028".toList)
      m.dump.utf8)

def digest (sha256 : Bytes → Digest) (m : RepositoryManifest) : CASRef :=
  ⟨sha256 m.canonicalBytes⟩

end RepositoryManifest

/-! What the constructors accept. -/

theorem validPath_eq_ok {path kept : Text} :
    validPath path = .ok kept ↔ PortablePath path ∧ kept = path := by
  simp only [validPath, except_bind_eq_ok, ensure_eq_ok, exists_unit,
    not_exists, not_or, not_and, PortablePath, ne_eq, Except.ok.injEq,
    and_assoc, eq_comm (a := kept)]

theorem chunk_make_eq_ok {digest : Option CASRef} {length : Int}
    {chunk : Chunk} :
    Chunk.make digest length = .ok chunk ↔
      digest = some chunk.digest ∧ length = chunk.length := by
  cases digest with
  | none => simp [Chunk.make, CASRef.parse]
  | some ref =>
      simp only [Chunk.make, CASRef.parse, except_ok_bind]
      split
      · rw [Except.ok.injEq]
        constructor
        · intro heq
          rw [← heq]
          exact ⟨rfl, rfl⟩
        · intro h
          obtain ⟨hdigest, hlength⟩ := h
          cases chunk
          cases hdigest
          cases hlength
          rfl
      · rename_i hbad
        constructor
        · intro h
          cases h
        · intro h
          obtain ⟨_, hlength⟩ := h
          exact absurd (hlength ▸ chunk.length_ok) hbad

theorem checkChunks_eq_ok {sizeBytes : Int} {digest : CASRef}
    {chunks : List Chunk} :
    checkChunks sizeBytes digest chunks = .ok () ↔
      (chunks ≠ [] → (chunks.map Chunk.length).sum = sizeBytes) ∧
        ∀ chunk, chunks = [chunk] → chunk.digest = digest := by
  cases chunks with
  | nil => simp [checkChunks]
  | cons chunk chunks =>
      cases chunks with
      | nil => simp [checkChunks]
      | cons next chunks => simp [checkChunks]

theorem fileEntry_make_eq_ok {path : Text} {sizeBytes : Int}
    {digest : Option CASRef} {chunks : List Chunk} {entry : FileEntry} :
    FileEntry.make path sizeBytes digest chunks = .ok entry ↔
      ∃ ref, digest = some ref ∧ PortablePath path ∧
        (0 ≤ sizeBytes ∧ sizeBytes ≤ maxSize) ∧
        checkChunks sizeBytes ref chunks = .ok () ∧
        entry = ⟨path, sizeBytes, ref, chunks⟩ := by
  cases digest with
  | none => simp [FileEntry.make, CASRef.parse]
  | some ref =>
      simp [FileEntry.make, CASRef.parse, validPath_eq_ok,
        eq_comm (a := entry)]

end TensorFS.Python
