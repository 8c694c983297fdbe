import TensorFS.Tfm1.Codec
import TensorFS.Data.Machine

namespace TensorFS.Go

open Data

/-! The server's strict, non-authoring verifier.  A path or a link target is
held as the runes of its string once the string is valid UTF-8; a contract
stamp stays a string of bytes. -/

/-- The tables the verifier consults: the NFC test and the simple lowercase
mapping. -/
structure Tables where
  isNormalString : Text → Bool
  toLower : Char → Char

def tfm1MaxPathBytes : Nat := 4096
def tfm1MaxContractNameBytes : Nat := 64
def tfm1MaxFileRecords : Nat := 1000000
def tfm1MinEntryBytes : Nat := 4 + 1 + 1
def tfm1MinRecordBytes : Nat := 1 + 8
def maxChunkSize : Nat := 64 * 2 ^ 20

inductive TFM1EntryKind where
  | directory
  | file
  | symlink
  | hardlink
  deriving DecidableEq, Repr

def tfm1PlannerSafetensorsV1 : String := "safetensors-v1"
def tfm1PlannerGgufV1 : String := "gguf-v1"
def tfm1PlannerBlobV1 : String := "blob-v1"

/-- Lowercase hexadecimal, two digits a byte. -/
def hexEncode (bytes : Bytes) : Text :=
  bytes.flatMap fun b =>
    [Nat.digitChar (b.toNat / 16), Nat.digitChar (b.toNat % 16)]

theorem digitChar_inj : ∀ m < 16, ∀ n < 16,
    Nat.digitChar m = Nat.digitChar n → m = n := by decide

/-- Hexadecimal spells every byte apart. -/
theorem hexEncode_inj {left right : Bytes}
    (h : hexEncode left = hexEncode right) : left = right := by
  induction left generalizing right with
  | nil =>
      cases right with
      | nil => rfl
      | cons b right => simp [hexEncode] at h
  | cons a left ih =>
      cases right with
      | nil => simp [hexEncode] at h
      | cons b right =>
          simp only [hexEncode, List.flatMap_cons, List.cons_append,
            List.nil_append, List.cons.injEq] at h
          obtain ⟨hhigh, hlow, hrest⟩ := h
          have ha := a.toNat_lt
          have hb := b.toNat_lt
          have hdiv := digitChar_inj _ (by omega) _ (by omega) hhigh
          have hmod := digitChar_inj _ (by omega) _ (by omega) hlow
          rw [ih hrest, UInt8.toNat_inj.mp (show a.toNat = b.toNat by omega)]

def tfm1EmptyBlobDigest : Text :=
  "e3b0c44298fc1c149afbf4c8996fb92427ae41e4649b934ca495991b7852b855".toList

structure TFM1Record where
  hole : Bool := false
  digest : Text := []
  length : UInt64
  deriving DecidableEq

structure TFM1Entry where
  path : Text
  kind : TFM1EntryKind := .directory
  executable : Bool := false
  planner : String := ""
  contract : Bytes := []
  logicalSize : UInt64 := 0
  records : List TFM1Record := []
  digest : Text := []
  target : Text := []
  ordinal : Nat := 0
  deriving DecidableEq

structure TFM1Snapshot where
  snapshotId : Text
  parent : Text
  entries : List TFM1Entry
  deriving DecidableEq

structure TFM1Error where
  reason : String
  deriving DecidableEq

abbrev TFM1Reader (α : Type) := Reader TFM1Error α

def tfm1Refuse (reason : String) : TFM1Error := ⟨reason⟩

def take (count : Nat) : TFM1Reader Bytes :=
  Reader.take (tfm1Refuse "truncated") count

def takeU8 : TFM1Reader UInt8 := do
  let taken ← take 1
  pure (taken.headD 0)

def takeU32 : TFM1Reader Nat := do
  let taken ← take 4
  pure (leNat taken)

def takeU64 : TFM1Reader Nat := do
  let taken ← take 8
  pure (leNat taken)

def isTFM1Lower (character : UInt8) : Bool :=
  (97 ≤ character && character ≤ 122) || (48 ≤ character && character ≤ 57)

/-- The bytes of `.`, `-` and `_` are 46, 45 and 95. -/
def isTFM1ContractName (name : Bytes) : Bool :=
  match name.span (· ≠ 46) with
  | (_, []) => false
  | (producer, _ :: format) =>
      producer.head?.any isTFM1Lower &&
        (producer.all fun character =>
          isTFM1Lower character || character = 45) &&
        format.head?.any isTFM1Lower &&
        format.all fun character =>
          isTFM1Lower character || character = 46 || character = 45 ||
            character = 95

def takeContract : TFM1Reader Bytes := do
  let length ← takeU8
  if length = 0xff then
    let digestBytes ← take 32
    pure (Text.utf8 ("sha256:".toList ++ hexEncode digestBytes))
  else
    Reader.ensure (length.toNat ≤ tfm1MaxContractNameBytes)
      (tfm1Refuse "contract-name")
    let nameBytes ← take length.toNat
    let version ← takeU32
    if nameBytes = [] then
      Reader.ensure (version = 0) (tfm1Refuse "contract-version")
      pure []
    else
      Reader.ensure (isTFM1ContractName nameBytes = true)
        (tfm1Refuse "contract-name")
      Reader.ensure (version ≠ 0) (tfm1Refuse "contract-version")
      pure (nameBytes ++ Text.utf8 ('@' :: decimal version))

def tfm1WindowsReserved : List Text :=
  ["con", "prn", "aux", "nul", "com1", "com2", "com3", "com4", "com5", "com6",
    "com7", "com8", "com9", "lpt1", "lpt2", "lpt3", "lpt4", "lpt5", "lpt6",
    "lpt7", "lpt8", "lpt9"].map String.toList

def asciiFold (value : Text) : Text :=
  value.map fun character =>
    if 'A' ≤ character ∧ character ≤ 'Z' then
      Char.ofNat (character.toNat + ('a'.toNat - 'A'.toNat))
    else
      character

def isForbiddenRune (character : Char) : Bool :=
  isControl character || "\\:*?\"<>|".toList.contains character

def validateTFM1Segment (segment : Text) : Except TFM1Error Unit := do
  ensure (segment ≠ []) (tfm1Refuse "path-empty-segment")
  ensure (¬ (segment = ['.'] ∨ segment = ['.', '.']))
    (tfm1Refuse "path-dot-segment")
  ensure (segment.any isForbiddenRune = false)
    (tfm1Refuse "path-forbidden-character")
  ensure (¬ (segment.getLast? = some '.' ∨ segment.getLast? = some ' '))
    (tfm1Refuse "path-trailing-dot-space")
  let stem : Text := segment.takeWhile (· ≠ '.')
  ensure (stem.utf8Len ≤ 4 → asciiFold stem ∉ tfm1WindowsReserved)
    (tfm1Refuse "path-windows-reserved")

def validateTFM1Path (tables : Tables) (path : Text) :
    Except TFM1Error Unit := do
  ensure (¬ (path = [] ∨ path.utf8Len > tfm1MaxPathBytes))
    (tfm1Refuse "path-length")
  ensure (tables.isNormalString path = true) (tfm1Refuse "path-not-nfc")
  ensure (path.head? ≠ some '/') (tfm1Refuse "path-absolute")
  checkAll validateTFM1Segment (path.splitOn '/')

def validateTFM1SymlinkTarget (target : Text) : Except TFM1Error Unit := do
  ensure (¬ (target = [] ∨ target.utf8Len > tfm1MaxPathBytes))
    (tfm1Refuse "symlink-target")
  ensure (target.any isControl = false) (tfm1Refuse "symlink-target")

/-- The loop over the records, from the running sum and the kind of the record
before; the sum wraps and is compared with itself. -/
def sumTFM1Records : Bool → UInt64 → List TFM1Record →
    Except TFM1Error UInt64
  | _, sum, [] => .ok sum
  | previousWasHole, sum, record :: records => do
      ensure (record.length ≠ 0) (tfm1Refuse "zero-length-record")
      ensure ((record.hole && previousWasHole) = false)
        (tfm1Refuse "adjacent-holes")
      ensure (record.hole = false → record.length.toNat ≤ maxChunkSize)
        (tfm1Refuse "data-too-large")
      ensure (¬ sum + record.length < sum) (tfm1Refuse "length-sum-mismatch")
      sumTFM1Records record.hole (sum + record.length) records

def validateTFM1Records (records : List TFM1Record) (logicalSize : UInt64) :
    Except TFM1Error Unit := do
  ensure (records.length ≤ tfm1MaxFileRecords) (tfm1Refuse "record-limit")
  let sum ← sumTFM1Records false 0 records
  ensure (sum = logicalSize) (tfm1Refuse "length-sum-mismatch")

def tfm1CaseFold (tables : Tables) (path : Text) : Text :=
  path.flatMap fun character =>
    if character = 'İ' then ['i', '\u0307'] else [tables.toLower character]

/-- The first loop of the tree check; `folded` holds the keys seen so far. -/
def checkFolded (tables : Tables) :
    List Text → List TFM1Entry → Except TFM1Error Unit
  | _, [] => .ok ()
  | folded, entry :: entries => do
      let key := tfm1CaseFold tables entry.path
      ensure (key ∉ folded) (tfm1Refuse "case-fold-collision")
      checkFolded tables (key :: folded) entries

def checkParent (directories : List Text) (entry : TFM1Entry) :
    Except TFM1Error Unit :=
  match rsplitOnce '/' entry.path with
  | some (parent, _) =>
      ensure (parent ∈ directories) (tfm1Refuse "missing-parent-directory")
  | none => .ok ()

def validateTFM1Tree (tables : Tables) (entries : List TFM1Entry) :
    Except TFM1Error Unit := do
  checkFolded tables [] entries
  let directories :=
    (entries.filter fun entry => entry.kind = .directory).map TFM1Entry.path
  checkAll (checkParent directories) entries

/-! The parts of `ParseTFM1`, in the order its loop runs them. -/

def parseText (count : Nat) (reason : String) : TFM1Reader Text := do
  let bytes ← take count
  match Text.fromUtf8 bytes with
  | some text => pure text
  | none => Reader.fail (tfm1Refuse reason)

def parsePath (tables : Tables) : TFM1Reader Text := do
  let pathLength ← takeU32
  Reader.ensure (¬ (pathLength = 0 ∨ pathLength > tfm1MaxPathBytes))
    (tfm1Refuse "path-length")
  let path ← parseText pathLength "path-utf8"
  Reader.lift (validateTFM1Path tables path)
  pure path

def checkTFM1Order (previous : Option Text) (path : Text) :
    Except TFM1Error Unit :=
  match previous with
  | none => .ok ()
  | some previous =>
      if previous = path then .error (tfm1Refuse "duplicate-path")
      else if path < previous then .error (tfm1Refuse "entry-order")
      else .ok ()

def parseRecord : TFM1Reader TFM1Record := do
  let tag ← takeU8
  if tag = 1 then
    let digestBytes ← take 32
    let length ← takeU64
    pure { digest := hexEncode digestBytes, length := UInt64.ofNat length }
  else if tag = 2 then
    let length ← takeU64
    pure { hole := true, length := UInt64.ofNat length }
  else
    Reader.fail (tfm1Refuse "unknown-record-tag")

def parseRecords : Nat → TFM1Reader (List TFM1Record)
  | 0 => pure []
  | count + 1 => do
      let record ← parseRecord
      let records ← parseRecords count
      pure (record :: records)

def parsePlanner : TFM1Reader String := do
  let planner ← takeU8
  if planner = 1 then
    pure tfm1PlannerSafetensorsV1
  else if planner = 2 then
    pure tfm1PlannerGgufV1
  else if planner = 4 then
    pure tfm1PlannerBlobV1
  else
    Reader.fail (tfm1Refuse "unknown-planner")

def parseExecutable : TFM1Reader Bool := do
  let executable ← takeU8
  if executable = 0 then
    pure false
  else if executable = 1 then
    pure true
  else
    Reader.fail (tfm1Refuse "executable-flag")

def parseBlob (entry : TFM1Entry) : TFM1Reader TFM1Entry := do
  let digestBytes ← take 32
  Reader.ensure (¬ (entry.logicalSize = 0 ∧
    hexEncode digestBytes ≠ tfm1EmptyBlobDigest))
    (tfm1Refuse "empty-blob-digest")
  pure { entry with digest := hexEncode digestBytes }

def parseTensor (entry : TFM1Entry) : TFM1Reader TFM1Entry := do
  let contract ← takeContract
  let recordCount ← takeU64
  Reader.ensure (recordCount ≤ tfm1MaxFileRecords) (tfm1Refuse "record-limit")
  let remaining ← Reader.remaining
  Reader.ensure (recordCount ≤ remaining / tfm1MinRecordBytes)
    (tfm1Refuse "count-exceeds-input")
  let records ← parseRecords recordCount
  Reader.lift (validateTFM1Records records entry.logicalSize)
  pure { entry with contract := contract, records := records }

def parseFile (path : Text) : TFM1Reader TFM1Entry := do
  let executable ← parseExecutable
  let planner ← parsePlanner
  let logicalSize ← takeU64
  let entry : TFM1Entry :=
    { path := path, kind := .file, executable := executable,
      planner := planner, logicalSize := UInt64.ofNat logicalSize }
  if planner = tfm1PlannerBlobV1 then
    parseBlob entry
  else
    parseTensor entry

def parseSymlink (path : Text) : TFM1Reader TFM1Entry := do
  let targetLength ← takeU32
  Reader.ensure (targetLength ≤ tfm1MaxPathBytes) (tfm1Refuse "symlink-target")
  let target ← parseText targetLength "symlink-target"
  Reader.lift (validateTFM1SymlinkTarget target)
  pure { path := path, kind := .symlink, target := target }

def parseHardlink (path : Text) (assignedOrdinals : Nat) :
    TFM1Reader TFM1Entry := do
  let ordinal ← takeU64
  Reader.ensure (¬ assignedOrdinals ≤ ordinal) (tfm1Refuse "hardlink-ordinal")
  pure { path := path, kind := .hardlink, ordinal := ordinal }

/-- One entry behind its path, and the ordinals assigned after it. -/
def parseEntry (path : Text) (assignedOrdinals : Nat) :
    TFM1Reader (TFM1Entry × Nat) := do
  let kind ← takeU8
  if kind = 1 then
    pure ({ path := path, kind := .directory }, assignedOrdinals)
  else if kind = 2 then
    let entry ← parseFile path
    pure (entry, assignedOrdinals + 1)
  else if kind = 3 then
    let entry ← parseSymlink path
    pure (entry, assignedOrdinals)
  else if kind = 4 then
    let entry ← parseHardlink path assignedOrdinals
    pure (entry, assignedOrdinals)
  else
    Reader.fail (tfm1Refuse "unknown-entry-kind")

def parseEntries (tables : Tables) :
    Nat → Option Text → Nat → TFM1Reader (List TFM1Entry)
  | 0, _, _ => pure []
  | count + 1, previous, assignedOrdinals => do
      let path ← parsePath tables
      Reader.lift (checkTFM1Order previous path)
      let parsed ← parseEntry path assignedOrdinals
      let rest ← parseEntries tables count (some path) parsed.2
      pure (parsed.1 :: rest)

def parseParent : TFM1Reader Text := do
  let flag ← takeU8
  if flag = 0 then
    pure []
  else if flag = 1 then
    let bytes ← take 32
    pure (hexEncode bytes)
  else
    Reader.fail (tfm1Refuse "parent-flag")

def parseManifest (tables : Tables) : TFM1Reader (Text × List TFM1Entry) := do
  let front ← take 4
  Reader.ensure (front = Text.utf8 "TFM1".toList) (tfm1Refuse "bad-magic")
  let parent ← parseParent
  let entryCount ← takeU64
  let remaining ← Reader.remaining
  Reader.ensure (entryCount ≤ remaining / tfm1MinEntryBytes)
    (tfm1Refuse "count-exceeds-input")
  let entries ← parseEntries tables entryCount none 0
  let trailing ← Reader.remaining
  Reader.ensure (trailing = 0) (tfm1Refuse "trailing-bytes")
  Reader.lift (validateTFM1Tree tables entries)
  pure (parent, entries)

def parseTFM1 (tables : Tables) (sha256 : Bytes → Bytes) (data : Bytes) :
    Except TFM1Error TFM1Snapshot :=
  (parseManifest tables data).map fun parsed =>
    ⟨hexEncode (sha256 data), parsed.1.1, parsed.1.2⟩

end TensorFS.Go
