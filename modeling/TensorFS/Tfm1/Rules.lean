import TensorFS.Tfm1.Types

namespace TensorFS

open Data

/-! The rules every path, symlink target, record run and whole tree obeys. -/

/-- The Unicode tables the rules consult: the NFC test and the lowercase
mapping of one scalar value. -/
structure Unicode where
  isNfc : Text → Bool
  toLowercase : Char → Text

def maxPathBytes : Nat := 4096

def maxSymlinkTargetBytes : Nat := 4096

def maxFileRecords : Nat := 1000000

def maxObjectSize : Nat := 64 * 1024 * 1024

def windowsReserved : List Text :=
  ["CON", "PRN", "AUX", "NUL", "COM1", "COM2", "COM3", "COM4", "COM5", "COM6",
    "COM7", "COM8", "COM9", "LPT1", "LPT2", "LPT3", "LPT4", "LPT5", "LPT6",
    "LPT7", "LPT8", "LPT9"].map String.toList

def isControl (c : Char) : Bool :=
  c.toNat ≤ 0x1f || (0x7f ≤ c.toNat && c.toNat ≤ 0x9f)

def isForbidden (c : Char) : Bool :=
  isControl c || c ∈ ['\\', ':', '*', '?', '"', '<', '>', '|']

def eqIgnoreAsciiCase (left right : Text) : Bool :=
  left.map Char.toLower = right.map Char.toLower

def isWindowsReserved (segment : Text) : Bool :=
  let stem : Text := segment.takeWhile (· ≠ '.')
  stem.utf8Len ≤ 4 && windowsReserved.any (eqIgnoreAsciiCase stem)

def validateSegment (segment : Text) : Except Tfm1Error Unit := do
  ensure (segment ≠ []) .pathEmptySegment
  ensure (segment ≠ ['.'] ∧ segment ≠ ['.', '.']) .pathDotSegment
  ensure (segment.all fun c => !isForbidden c) .pathForbiddenCharacter
  ensure (segment.getLast? ≠ some '.' ∧ segment.getLast? ≠ some ' ')
    .pathTrailingDotSpace
  ensure (isWindowsReserved segment = false) .pathWindowsReserved

def splitPath (path : Text) : List Text := path.splitOn '/'

def validatePath (U : Unicode) (path : Text) : Except Tfm1Error Unit := do
  ensure (path ≠ [] ∧ path.utf8Len ≤ maxPathBytes) .pathLength
  ensure (U.isNfc path = true) .pathNotNfc
  ensure (path.head? ≠ some '/') .pathAbsolute
  checkAll validateSegment (splitPath path)

def validateSymlinkTarget (target : Text) : Except Tfm1Error Unit :=
  ensure (target ≠ [] ∧ target.utf8Len ≤ maxSymlinkTargetBytes ∧
    target.any isControl = false) .symlinkTarget

/-- One pass over a record run, from the previous record's kind and the sum so
far to the total. -/
def sumRun : Bool → Nat → List FileRecord → Except Tfm1Error Nat
  | _, sum, [] => .ok sum
  | previousWasHole, sum, record :: records => do
      ensure (record.length ≠ 0) .zeroLengthRecord
      ensure ((previousWasHole && record.isHole) = false) .adjacentHoles
      ensure (sum + record.size < 2 ^ 64) .lengthSumMismatch
      sumRun record.isHole (sum + record.size) records

def validateRecordRun (records : List FileRecord) (logicalSize : UInt64) :
    Except Tfm1Error Unit := do
  ensure (records.length ≤ maxFileRecords) .recordLimit
  let sum ← sumRun false 0 records
  ensure (sum = logicalSize.toNat) .lengthSumMismatch

def withinObjectSize : FileRecord → Bool
  | .data _ length => length.toNat ≤ maxObjectSize
  | .hole _ => true

def validateRecords (records : List FileRecord) (logicalSize : UInt64) :
    Except Tfm1Error Unit := do
  validateRecordRun records logicalSize
  ensure (records.all withinObjectSize) .dataTooLarge

def caseFold (U : Unicode) (path : Text) : Text := path.flatMap U.toLowercase

def parentOf (path : Text) : Option Text := (rsplitOnce '/' path).map Prod.fst

def validateTree (U : Unicode) (isDirectory : α → Bool)
    (entries : List (Text × α)) : Except Tfm1Error Unit := do
  ensure (entries.map fun pair => caseFold U pair.1).Nodup .caseFoldCollision
  let directories :=
    (entries.filter fun pair => isDirectory pair.2).map Prod.fst
  ensure (entries.all fun pair => (parentOf pair.1).all (· ∈ directories))
    .missingParentDirectory

/-! What the record rules accept. -/

/-- No record is empty and no two holes touch; `previousWasHole` is the kind of
the record before the run. -/
def RunShape (previousWasHole : Bool) : List FileRecord → Prop
  | [] => True
  | record :: records =>
      record.length ≠ 0 ∧ (previousWasHole && record.isHole) = false ∧
        RunShape record.isHole records

theorem sumRun_eq_ok {previousWasHole : Bool} {sum total : Nat}
    {records : List FileRecord} (hsum : sum < 2 ^ 64) :
    sumRun previousWasHole sum records = .ok total ↔
      RunShape previousWasHole records ∧ total = sum + totalSize records ∧
        total < 2 ^ 64 := by
  induction records generalizing previousWasHole sum with
  | nil =>
      simp only [sumRun, Except.ok.injEq, RunShape, totalSize_nil, true_and]
      omega
  | cons record records ih =>
      simp only [sumRun, except_bind_eq_ok, ensure_eq_ok, exists_unit,
        RunShape, totalSize_cons]
      constructor
      · rintro ⟨hzero, hhole, hfits, hrest⟩
        obtain ⟨hshape, htotal, hlt⟩ := (ih hfits).mp hrest
        exact ⟨⟨hzero, hhole, hshape⟩, by omega, hlt⟩
      · rintro ⟨⟨hzero, hhole, hshape⟩, htotal, hlt⟩
        have hfits : sum + record.size < 2 ^ 64 := by omega
        exact ⟨hzero, hhole, hfits, (ih hfits).mpr ⟨hshape, by omega, hlt⟩⟩

/-- The record runs the structural rule admits at some logical size. -/
structure ValidRun (records : List FileRecord) : Prop where
  count : records.length ≤ maxFileRecords
  shape : RunShape false records
  fits : totalSize records < 2 ^ 64

theorem validateRecordRun_eq_ok {records : List FileRecord}
    {logicalSize : UInt64} {u : Unit} :
    validateRecordRun records logicalSize = .ok u ↔
      ValidRun records ∧ totalSize records = logicalSize.toNat := by
  simp only [validateRecordRun, except_bind_eq_ok, ensure_eq_ok, exists_unit]
  constructor
  · rintro ⟨hcount, total, hsum, htotal⟩
    obtain ⟨hshape, heq, hlt⟩ := (sumRun_eq_ok (by omega)).mp hsum
    exact ⟨⟨hcount, hshape, by omega⟩, by omega⟩
  · rintro ⟨⟨hcount, hshape, hfits⟩, htotal⟩
    exact ⟨hcount, totalSize records,
      (sumRun_eq_ok (by omega)).mpr ⟨hshape, by omega, hfits⟩, htotal⟩

theorem validateRecords_eq_ok {records : List FileRecord}
    {logicalSize : UInt64} {u : Unit} :
    validateRecords records logicalSize = .ok u ↔
      ValidRun records ∧ totalSize records = logicalSize.toNat ∧
        records.all withinObjectSize = true := by
  simp only [validateRecords, except_bind_eq_ok, exists_unit, ensure_eq_ok,
    validateRecordRun_eq_ok, and_assoc]

theorem RunShape.ne_zero {previousWasHole : Bool} {records : List FileRecord}
    (hshape : RunShape previousWasHole records) :
    ∀ record ∈ records, record.length ≠ 0 := by
  induction records generalizing previousWasHole with
  | nil => simp
  | cons head records ih =>
      intro record hmem
      rcases List.mem_cons.mp hmem with rfl | hmem
      · exact hshape.1
      · exact ih hshape.2.2 record hmem

theorem validateTree_eq_ok {U : Unicode} {isDirectory : α → Bool}
    {entries : List (Text × α)} {u : Unit} :
    validateTree U isDirectory entries = .ok u ↔
      (entries.map fun pair => caseFold U pair.1).Nodup ∧
        ∀ pair ∈ entries, ∀ parent, parentOf pair.1 = some parent →
          ∃ entry, (parent, entry) ∈ entries ∧ isDirectory entry = true := by
  simp only [validateTree, except_bind_eq_ok, ensure_eq_ok, exists_unit,
    List.all_eq_true, Option.all_eq_true, decide_eq_true_eq, List.mem_map,
    List.mem_filter, Prod.exists, exists_and_right, exists_eq_right]

end TensorFS
