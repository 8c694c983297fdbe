import TensorFS.Repository.Python
import TensorFS.Tfm1.Parity

namespace TensorFS

open Data

/-! Two writers, one repository: the engine's canonical manifest and the
client's are made from the same entries. -/

/-- A file as a caller names it, before either writer has looked at it. -/
structure RepositoryEntry where
  path : Text
  sizeBytes : Int64
  digest : Option Digest
  chunks : List (Option Digest × Int64)

namespace RepositoryEntry

def goRef : Option Digest → Go.Ref
  | some digest => .ofDigest digest
  | none => .zero

def goChunk (chunk : Option Digest × Int64) : Go.Chunk :=
  ⟨goRef chunk.1, chunk.2⟩

def goFile (entry : RepositoryEntry) : Go.File :=
  ⟨entry.path, entry.sizeBytes, goRef entry.digest, entry.chunks.map goChunk⟩

def goManifest (entries : List RepositoryEntry) : Go.Manifest :=
  ⟨Go.formatV1, entries.map goFile, none⟩

def pythonChunk (chunk : Option Digest × Int64) :
    Except Python.ManifestError Python.Chunk :=
  Python.Chunk.make (chunk.1.map .mk) chunk.2.toInt

def pythonFile (entry : RepositoryEntry) :
    Except Python.ManifestError Python.FileEntry := do
  let chunks ← entry.chunks.mapM pythonChunk
  Python.FileEntry.make entry.path entry.sizeBytes.toInt (entry.digest.map .mk) chunks

def pythonManifest (entries : List RepositoryEntry) :
    Except Python.ManifestError Python.RepositoryManifest := do
  let files ← entries.mapM pythonFile
  Python.RepositoryManifest.make files Python.currentFormat

end RepositoryEntry

/-! The encoders. -/

/-- What one encoder escapes and the other leaves to be rewritten. -/
def lineEscape (c : Char) : Text :=
  if c = '\u2028' then "\\u2028".toList
  else if c = '\u2029' then "\\u2029".toList
  else [c]

theorem lineEscape_ascii {c : Char} (h : c.toNat < 128) : lineEscape c = [c] := by
  unfold lineEscape
  split
  · rename_i heq
    rw [heq] at h
    exact absurd h (by decide)
  · split
    · rename_i heq
      rw [heq] at h
      exact absurd h (by decide)
    · rfl

theorem plain_ascii {text : Text} (h : ∀ c ∈ text, c.toNat < 128) :
    Plain lineEscape text := fun c hmem => lineEscape_ascii (h c hmem)

theorem plain_digits (n : Nat) : Plain lineEscape (decimal n) := by
  apply plain_ascii
  intro c hmem
  have hdigit := Nat.isDigit_of_mem_toDigits (by decide) (by decide) hmem
  simp only [Char.isDigit, Bool.and_eq_true, decide_eq_true_eq] at hdigit
  have hle := UInt32.le_iff_toNat_le.mp hdigit.2
  exact lt_of_le_of_lt hle (by decide)

theorem plain_renderInt (value : Int) :
    Plain lineEscape (Go.renderInt value) := by
  unfold Go.renderInt
  split
  · intro c hmem
    rcases List.mem_cons.mp hmem with rfl | hmem
    · rfl
    · exact plain_digits _ c hmem
  · exact plain_digits _

theorem escapeChar_ascii {c : Char} (h : escapeChar c ≠ [c]) :
    ∀ d ∈ escapeChar c, d.toNat < 128 := by
  have hdigit : ∀ n < 16, (hexDigit n).toNat < 128 := by decide
  unfold escapeChar at h ⊢
  split_ifs at h ⊢ with _ _ _ _ _ _ _ hcontrol
  iterate 7 · simp
  · intro d hmem
    have hmark : ∀ d ∈ "\\u00".toList, d.toNat < 128 := by simp
    rcases List.mem_append.mp hmem with hfront | hdigits
    · exact hmark d hfront
    · rcases List.mem_pair.mp hdigits with heq | heq
      · exact heq ▸ hdigit _ (by omega)
      · exact heq ▸ hdigit _ (by omega)
  · exact absurd rfl h

/-- Nothing else that is escaped is rewritten again. -/
theorem plain_escapeChar {c : Char} (hline : c ≠ '\u2028')
    (hparagraph : c ≠ '\u2029') : Plain lineEscape (escapeChar c) := by
  by_cases hself : escapeChar c = [c]
  · rw [hself]
    intro d hmem
    rw [List.mem_singleton.mp hmem, lineEscape, if_neg hline,
      if_neg hparagraph]
  · exact plain_ascii (escapeChar_ascii hself)

theorem escapeString_eq (c : Char) :
    Go.escapeString c = (escapeChar c).flatMap lineEscape := by
  unfold Go.escapeString
  split
  · rename_i hline
    rw [hline]
    decide
  · split
    · rename_i hparagraph
      rw [hparagraph]
      decide
    · rename_i hline hparagraph
      exact (plain_escapeChar hline hparagraph).flatMap.symm

theorem flatMap_string (text : Text) :
    (jsonString escapeChar text).flatMap lineEscape =
      jsonString Go.escapeString text := by
  rw [flatMap_jsonString (by decide)]
  exact congrArg (jsonString · text) (funext fun c => (escapeString_eq c).symm)

theorem flatMap_array (items : List Text) :
    (jsonArray items).flatMap lineEscape =
      jsonArray (items.map fun item => item.flatMap lineEscape) :=
  flatMap_jsonArray (plain_ascii (by simp)) items

theorem flatMap_object {members : List (String × Text)}
    (hnames : ∀ member ∈ members, ∀ c ∈ member.1.toList, c.toNat < 128) :
    (jsonObject members).flatMap lineEscape =
      jsonObject
        (members.map fun member => (member.1, member.2.flatMap lineEscape)) :=
  flatMap_jsonObject (plain_ascii (by simp)) fun member hmem =>
    plain_ascii (hnames member hmem)

/-- The two passes over the finished bytes rewrite both separators. -/
theorem canonicalBytes_eq (m : Python.RepositoryManifest) :
    m.canonicalBytes = Text.utf8 (m.dump.flatMap lineEscape) := by
  have hline := replaceBytes_utf8 '\u2028' "\\u2028".toList m.dump
  have hparagraph := replaceBytes_utf8 '\u2029' "\\u2029".toList
    (m.dump.flatMap fun c => if c = '\u2028' then "\\u2028".toList else [c])
  have hlineBytes : String.utf8EncodeChar '\u2028' = [0xe2, 0x80, 0xa8] := by
    decide
  have hparagraphBytes : String.utf8EncodeChar '\u2029' =
      [0xe2, 0x80, 0xa9] := by
    decide
  rw [hlineBytes] at hline
  rw [hparagraphBytes] at hparagraph
  rw [Python.RepositoryManifest.canonicalBytes, hline, hparagraph,
    List.flatMap_assoc]
  congr 2
  funext c
  unfold lineEscape
  by_cases h : c = '\u2028'
  · rw [if_pos h, if_pos h]
    decide
  · rw [if_neg h, if_neg h, List.flatMap_singleton]

/-! The same file on both sides. -/

def ChunkAlike (left : Go.Chunk) (right : Python.Chunk) : Prop :=
  left.digest = .ofDigest right.digest.digest ∧ left.len.toInt = right.length

structure FileAlike (left : Go.File) (right : Python.FileEntry) : Prop where
  path : left.path = right.path
  size : left.sizeBytes.toInt = right.sizeBytes
  digest : left.digest = .ofDigest right.digest.digest
  chunks : List.Forall₂ ChunkAlike left.chunks right.chunks

theorem render_ofDigest (ref : Python.CASRef) :
    (Go.Ref.ofDigest ref.digest).render = ref.render := by
  rw [Go.Ref.render, if_neg (Go.Ref.ofDigest_hex_ne_nil ref.digest)]
  rfl

theorem ChunkAlike.marshal {left : Go.Chunk} {right : Python.Chunk}
    (h : ChunkAlike left right) :
    left.marshal = right.dump.flatMap lineEscape := by
  rw [Python.Chunk.dump, flatMap_object (by simp), Go.Chunk.marshal, h.1, h.2,
    render_ofDigest]
  simp only [List.map_cons, List.map_nil, flatMap_string,
    (plain_renderInt _).flatMap]

theorem FileAlike.marshal {left : Go.File} {right : Python.FileEntry}
    (h : FileAlike left right) :
    left.marshal = right.dump.flatMap lineEscape := by
  have hchunks : left.chunks.map Go.Chunk.marshal =
      right.chunks.map fun chunk => chunk.dump.flatMap lineEscape :=
    map_eq_of_forall₂ h.chunks fun _ _ hchunk => hchunk.marshal
  have hnil : left.chunks = [] ↔ right.chunks = [] := by
    rw [← List.length_eq_zero_iff, h.chunks.length_eq,
      List.length_eq_zero_iff]
  rw [Python.FileEntry.dump, flatMap_object, Go.File.marshal, h.path, h.size,
    h.digest, render_ofDigest, hchunks]
  · by_cases hempty : right.chunks = []
    · simp [hempty, hnil.mpr hempty, flatMap_string,
        (plain_renderInt _).flatMap]
    · simp [hempty, mt hnil.mp hempty, flatMap_string, flatMap_array,
        (plain_renderInt _).flatMap, Function.comp_def]
  · split <;> simp

/-! The constructors. -/

namespace RepositoryEntry

theorem goRef_eq_ofDigest {digest : Option Digest} {d : Digest} :
    goRef digest = .ofDigest d ↔ digest = some d := by
  cases digest with
  | none =>
      simp only [goRef, reduceCtorEq, iff_false]
      exact (Go.Ref.ofDigest_ne_zero d).symm
  | some digest => rw [goRef, Go.Ref.ofDigest_inj, Option.some.injEq]

theorem goRef_ne_zero {digest : Option Digest} :
    goRef digest ≠ .zero ↔ ∃ d, digest = some d := by
  cases digest with
  | none => simp [goRef]
  | some digest => simp [goRef, Go.Ref.ofDigest_ne_zero]

theorem map_mk_eq_some {digest : Option Digest} {ref : Python.CASRef} :
    digest.map Python.CASRef.mk = some ref ↔ digest = some ref.digest := by
  cases digest with
  | none => simp
  | some digest =>
      cases ref
      simp

theorem pythonChunk_eq_ok {chunk : Option Digest × Int64}
    {made : Python.Chunk} :
    pythonChunk chunk = .ok made ↔ ChunkAlike (goChunk chunk) made := by
  rw [pythonChunk, Python.chunk_make_eq_ok, map_mk_eq_some, ChunkAlike,
    goChunk, goRef_eq_ofDigest]

theorem chunk_valid_iff {chunk : Option Digest × Int64} :
    (goChunk chunk).Valid ↔ ∃ made, ChunkAlike (goChunk chunk) made := by
  constructor
  · intro h
    obtain ⟨hdigest, hlength⟩ := h
    obtain ⟨digest, hdigest⟩ := goRef_ne_zero.mp hdigest
    exact ⟨⟨⟨digest⟩, chunk.2.toInt, hlength⟩,
      goRef_eq_ofDigest.mpr hdigest, rfl⟩
  · intro h
    obtain ⟨made, hdigest, hlength⟩ := h
    exact ⟨hdigest ▸ Go.Ref.ofDigest_ne_zero _, hlength ▸ made.length_ok⟩

theorem pythonChunks_eq_ok {chunks : List (Option Digest × Int64)}
    {made : List Python.Chunk} :
    chunks.mapM pythonChunk = .ok made ↔
      List.Forall₂ ChunkAlike (chunks.map goChunk) made := by
  rw [mapM_eq_ok_iff, List.forall₂_map_left_iff]
  simp only [pythonChunk_eq_ok]

theorem chunks_valid_iff {chunks : List (Option Digest × Int64)} :
    (∀ chunk ∈ chunks.map goChunk, chunk.Valid) ↔
      ∃ made, List.Forall₂ ChunkAlike (chunks.map goChunk) made := by
  rw [exists_forall₂_iff, List.forall_mem_map, List.forall_mem_map]
  simp only [chunk_valid_iff]

/-- Chunks are summed and compared alike. -/
theorem checkChunks_iff {chunks : List Go.Chunk} {made : List Python.Chunk}
    (h : List.Forall₂ ChunkAlike chunks made) {size : Int}
    {ref : Python.CASRef} :
    Python.checkChunks size ref made = .ok () ↔
      (chunks ≠ [] → Go.chunksTotal chunks = size) ∧
        ∀ chunk, chunks = [chunk] → chunk.digest = .ofDigest ref.digest := by
  have htotal : Go.chunksTotal chunks = (made.map Python.Chunk.length).sum :=
    congrArg List.sum (map_eq_of_forall₂ h fun _ _ halike => halike.2)
  rw [Python.checkChunks_eq_ok, htotal]
  cases h with
  | nil => simp
  | cons hhead hrest =>
      cases hrest with
      | nil =>
          have heq {left right : Python.CASRef} :
              left = right ↔ left.digest = right.digest := by
            cases left
            cases right
            simp
          simp [hhead.1, Go.Ref.ofDigest_inj, heq]
      | cons hnext hrest => simp

theorem pythonFile_eq_ok {entry : RepositoryEntry} {made : Python.FileEntry} :
    entry.pythonFile = .ok made ↔
      entry.goFile.Valid ∧ FileAlike entry.goFile made := by
  simp only [pythonFile, except_bind_eq_ok, pythonChunks_eq_ok,
    Python.fileEntry_make_eq_ok, map_mk_eq_some]
  constructor
  · intro h
    obtain ⟨chunks, hchunks, ref, hdigest, hpath, hsize, hcheck, hmade⟩ := h
    have href : entry.goFile.digest = .ofDigest ref.digest :=
      goRef_eq_ofDigest.mpr hdigest
    obtain ⟨htotal, hwhole⟩ := (checkChunks_iff hchunks).mp hcheck
    rw [hmade]
    exact ⟨⟨hpath, href ▸ Go.Ref.ofDigest_ne_zero _, hsize.1,
      chunks_valid_iff.mpr ⟨chunks, hchunks⟩, htotal,
      fun chunk hone => href ▸ hwhole chunk hone⟩, rfl, rfl, href, hchunks⟩
  · intro h
    obtain ⟨hvalid, halike⟩ := h
    have hsize := entry.sizeBytes.toInt_lt
    refine ⟨made.chunks, halike.chunks, made.digest,
      goRef_eq_ofDigest.mp halike.digest, hvalid.path,
      ⟨hvalid.size, by rw [Python.maxSize]; omega⟩, ?_, ?_⟩
    · rw [checkChunks_iff halike.chunks]
      exact ⟨hvalid.total, fun chunk hone =>
        halike.digest ▸ hvalid.whole chunk hone⟩
    · cases made
      cases halike.path
      cases halike.size
      rfl

theorem file_valid_iff {entry : RepositoryEntry} :
    entry.goFile.Valid ↔ ∃ made, entry.pythonFile = .ok made := by
  constructor
  · intro h
    obtain ⟨chunks, hchunks⟩ := chunks_valid_iff.mp h.chunks
    obtain ⟨digest, hdigest⟩ := goRef_ne_zero.mp h.digest
    exact ⟨⟨entry.path, entry.sizeBytes.toInt, ⟨digest⟩, chunks⟩,
      pythonFile_eq_ok.mpr
        ⟨h, rfl, rfl, goRef_eq_ofDigest.mpr hdigest, hchunks⟩⟩
  · intro h
    obtain ⟨made, hmade⟩ := h
    exact (pythonFile_eq_ok.mp hmade).1

/-! The order of the files. -/

theorem sortFiles_alike {files : List Go.File}
    {made : List Python.FileEntry} (h : List.Forall₂ FileAlike files made) :
    List.Forall₂ FileAlike (Go.Manifest.sortFiles files)
      (made.mergeSort fun left right => left.path ≤ right.path) := by
  obtain ⟨hlength, halike⟩ := List.forall₂_iff_zip.mp h
  have hfst : (files.zip made).map Prod.fst = files :=
    List.map_fst_zip hlength.le
  have hsnd : (files.zip made).map Prod.snd = made :=
    List.map_snd_zip hlength.ge
  let byPath (left right : Go.File × Python.FileEntry) : Bool :=
    left.1.path ≤ right.1.path
  have hleft : ((files.zip made).mergeSort byPath).map Prod.fst =
      Go.Manifest.sortFiles files := by
    rw [List.map_mergeSort (f := Prod.fst) (s := fun left right : Go.File =>
      decide (left.path ≤ right.path)) (fun _ _ _ _ => rfl), hfst,
      Go.Manifest.sortFiles_eq]
  have hright : ((files.zip made).mergeSort byPath).map Prod.snd =
      made.mergeSort fun left right => left.path ≤ right.path := by
    rw [List.map_mergeSort, hsnd]
    intro p hp q hq
    rw [decide_eq_decide, (halike hp).path, (halike hq).path]
  rw [← hleft, ← hright, List.forall₂_map_left_iff,
    List.forall₂_map_right_iff, List.forall₂_same]
  intro pair hmem
  exact halike ((List.mergeSort_perm _ _).mem_iff.mp hmem)

/-! The manifests. -/

theorem pythonFiles_eq_ok {entries : List RepositoryEntry}
    {made : List Python.FileEntry} :
    entries.mapM pythonFile = .ok made ↔
      (∀ f ∈ entries.map goFile, f.Valid) ∧
        List.Forall₂ FileAlike (entries.map goFile) made := by
  rw [mapM_eq_ok_iff, List.forall_mem_map, List.forall₂_map_left_iff,
    ← List.forall₂_and_left]
  simp only [pythonFile_eq_ok]

theorem manifest_make_eq_ok {files : List Python.FileEntry}
    {m : Python.RepositoryManifest} :
    Python.RepositoryManifest.make files Python.currentFormat = .ok m ↔
      (files.map fun f => Go.asciiFold f.path).Nodup ∧
        m = ⟨files.mergeSort fun left right => left.path ≤ right.path,
          Python.currentFormat⟩ := by
  have hperm (le) : ((files.mergeSort le).map fun f =>
      Python.asciiFold f.path).Nodup ↔
      (files.map fun f => Go.asciiFold f.path).Nodup :=
    ((List.mergeSort_perm files le).map _).nodup_iff
  simp only [Python.RepositoryManifest.make, except_bind_eq_ok, ensure_eq_ok,
    exists_unit, checkPaths_nil_eq_ok, hperm, Except.ok.injEq,
    eq_comm (a := m), implies_true, true_and]

theorem marshal_eq {files : List Go.File} {made : List Python.FileEntry}
    (h : List.Forall₂ FileAlike files made) :
    Go.Manifest.marshal ⟨Go.formatV1, files, none⟩ =
      (Python.RepositoryManifest.dump ⟨made, Python.currentFormat⟩).flatMap
        lineEscape := by
  have hfiles : files.map Go.File.marshal =
      made.map fun f => f.dump.flatMap lineEscape :=
    map_eq_of_forall₂ h fun _ _ halike => halike.marshal
  rw [Python.RepositoryManifest.dump, flatMap_object (by simp),
    Go.Manifest.marshal, hfiles]
  simp [flatMap_array, (plain_renderInt _).flatMap, Function.comp_def,
    Go.formatV1, Python.currentFormat]

theorem canonical_eq_ok_iff {entries : List RepositoryEntry} {bytes : Bytes} :
    (goManifest entries).canonical = .ok bytes ↔
      ∃ m, pythonManifest entries = .ok m ∧ m.canonicalBytes = bytes := by
  have hfold {files : List Go.File} {made : List Python.FileEntry}
      (h : List.Forall₂ FileAlike files made) :
      (files.map fun f => Go.asciiFold f.path).Nodup ↔
        (made.map fun f => Go.asciiFold f.path).Nodup := by
    rw [map_eq_of_forall₂ h fun _ _ halike => congrArg Go.asciiFold halike.path]
  simp only [Go.Manifest.canonical_eq_ok, pythonManifest, except_bind_eq_ok,
    pythonFiles_eq_ok, manifest_make_eq_ok, goManifest]
  constructor
  · intro h
    obtain ⟨_, _, hvalid, hnodup, hbytes⟩ := h
    obtain ⟨made, hmade⟩ : ∃ made,
        List.Forall₂ FileAlike (entries.map goFile) made := by
      refine exists_forall₂_iff.mpr fun f hmem => ?_
      obtain ⟨entry, -, rfl⟩ := List.mem_map.mp hmem
      obtain ⟨file, hfile⟩ := file_valid_iff.mp (hvalid _ hmem)
      exact ⟨file, (pythonFile_eq_ok.mp hfile).2⟩
    refine ⟨_, ⟨made, ⟨hvalid, hmade⟩, (hfold hmade).mp hnodup, rfl⟩, ?_⟩
    rw [hbytes, canonicalBytes_eq, marshal_eq (sortFiles_alike hmade)]
  · intro h
    obtain ⟨m, ⟨made, ⟨hvalid, hmade⟩, hnodup, hm⟩, hbytes⟩ := h
    refine ⟨trivial, by simp, hvalid, (hfold hmade).mpr hnodup, ?_⟩
    rw [← hbytes, hm, canonicalBytes_eq, marshal_eq (sortFiles_alike hmade)]

/-- The order the files are listed in decides nothing. -/
theorem canonical_perm {entries reordered : List RepositoryEntry}
    (h : entries.Perm reordered) :
    (goManifest entries).canonical.toOption =
      (goManifest reordered).canonical.toOption := by
  have hfiles := h.map goFile
  apply Option.ext
  intro bytes
  simp only [toOption_eq_some, Go.Manifest.canonical_eq_ok, goManifest,
    hfiles.mem_iff, (hfiles.map _).nodup_iff]
  refine and_congr_right fun _ => and_congr_right fun _ =>
    and_congr_right fun _ => and_congr_right fun hnodup => ?_
  rw [Go.Manifest.sortFiles_congr hfiles ((hfiles.map _).nodup_iff.mpr hnodup)]

end RepositoryEntry

open RepositoryEntry in
/-- The engine encodes a list of files, in whatever order, exactly when the
client's constructors accept them, and then to the same bytes under the same
digest. -/
theorem manifests_name_alike {entries reordered : List RepositoryEntry}
    (h : entries.Perm reordered) (sha256 : Bytes → Digest) :
    (∀ bytes, (goManifest entries).canonical = .ok bytes ↔
      ∃ m, pythonManifest reordered = .ok m ∧ m.canonicalBytes = bytes) ∧
    ∀ digest, (goManifest entries).digest sha256 = .ok (.ofDigest digest) ↔
      ∃ m, pythonManifest reordered = .ok m ∧ m.digest sha256 = ⟨digest⟩ := by
  have hbytes (bytes : Bytes) : (goManifest entries).canonical = .ok bytes ↔
      ∃ m, pythonManifest reordered = .ok m ∧ m.canonicalBytes = bytes := by
    rw [← canonical_eq_ok_iff, ← toOption_eq_some, canonical_perm h,
      toOption_eq_some]
  refine ⟨hbytes, fun digest => ?_⟩
  simp only [Go.Manifest.digest, except_bind_eq_ok, hbytes, Except.ok.injEq,
    Go.Ref.ofDigest_inj, Python.RepositoryManifest.digest,
    Python.CASRef.mk.injEq]
  constructor
  · intro hgiven
    obtain ⟨_, ⟨m, hm, heq⟩, hdigest⟩ := hgiven
    exact ⟨m, hm, heq ▸ hdigest⟩
  · intro hgiven
    obtain ⟨m, hm, hdigest⟩ := hgiven
    exact ⟨_, ⟨m, hm, rfl⟩, hdigest⟩

/-- One whole object under a path. -/
def RepositoryEntry.blob (path : String) (digest : Digest) : RepositoryEntry :=
  ⟨path.toList, 3, some digest, []⟩

open RepositoryEntry in
/-- Two files in either order have one encoding. -/
theorem manifests_name_alike_swapped :
    { bytes | (goManifest [blob "b" emptyBlobDigest,
        blob "a" emptyBlobDigest]).canonical = .ok bytes } =
      { bytes | ∃ m, pythonManifest [blob "a" emptyBlobDigest,
          blob "b" emptyBlobDigest] = .ok m ∧ m.canonicalBytes = bytes } := by
  ext bytes
  exact (manifests_name_alike (.swap _ _ _) fun _ => emptyBlobDigest).1 bytes

end TensorFS
