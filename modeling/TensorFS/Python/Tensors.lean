import TensorFS.Data.Client
import TensorFS.Repository.Python

namespace TensorFS.Python

open Data

/-! Reading tensors of committed files through the objects they are kept in. -/

inductive Container where
  | safetensors
  | gguf
  deriving DecidableEq

inductive GgufError where
  | unsupportedType (ggmlType : Int)
  | unknownType (dtype : Text)
  | partialRow
  | noDimensions
  deriving DecidableEq

inductive TensorError where
  | twice (name : Text)
  | unknownDtype (dtype : Text)
  | supplied (name : Text) (total : Int) (dtype : Text) (shape : List Int)
      (expected : Int)
  | partialByte (dtype : Text) (shape : List Int)
  | gguf (error : GgufError)
  | foreign (name : Text) (format target : Container)
  | unaligned (name file : Text)
  | escapes (path : Text) (start stop size : Int)
  | objectSize (ref : CASRef) (actual : Nat) (size : Int)
  | objectBytes (ref : CASRef)
  deriving DecidableEq

/-- A `TensorError`, or anything else that may be raised. -/
inductive PyError where
  | tensor (error : TensorError)
  | other (detail : Text)
  deriving DecidableEq

def dtypeBits : List (String × Nat) :=
  [("F4", 4), ("F6_E2M3", 6), ("F6_E3M2", 6), ("BOOL", 8), ("U8", 8), ("I8", 8),
    ("F8_E5M2", 8), ("F8_E4M3", 8), ("F8_E8M0", 8), ("F8_E5M2FNUZ", 8),
    ("F8_E4M3FNUZ", 8), ("I16", 16), ("U16", 16), ("F16", 16), ("BF16", 16),
    ("I32", 32), ("U32", 32), ("F32", 32), ("I64", 64), ("U64", 64),
    ("F64", 64), ("C64", 64)]

/-- The value a table of texts holds for a key. -/
def lookup {α : Type} (table : List (String × α)) (key : Text) : Option α :=
  (table.find? fun row => row.1.toList = key).map Prod.snd

def FileEntry.objects (entry : FileEntry) : List (CASRef × Int) :=
  if entry.chunks = [] then [(entry.digest, entry.sizeBytes)]
  else entry.chunks.map fun chunk => (chunk.digest, chunk.length)

/-- A tensor of a file; its reader is known by the entry it reads from. -/
structure TensorView where
  name : Text
  file : FileEntry
  format : Container
  dtype : Text
  shape : List Int
  nbytes : Int
  offset : Int
  deriving DecidableEq

/-- Where each object starts. -/
def startsFrom : Int → List (CASRef × Int) → List Int
  | _, [] => []
  | position, object :: objects =>
      position :: startsFrom (position + object.2) objects

/-- The first place of a sorted list that is not below `x`. -/
def bisectLeft (starts : List Int) (x : Int) : Nat :=
  (starts.takeWhile fun start => start < x).length

/-- Whole objects from here on, up to `nbytes`. -/
def spanFrom (nbytes : Int) : Int → List (CASRef × Int) →
    Option (List (CASRef × Int))
  | total, [] => if total = nbytes then some [] else none
  | total, object :: objects =>
      if total < nbytes then
        (spanFrom nbytes (total + object.2) objects).map (object :: ·)
      else if total = nbytes then some []
      else none

def TensorView.objectSpan (view : TensorView) : Option (List (CASRef × Int)) :=
  let objects := view.file.objects
  let begin_ := bisectLeft (startsFrom 0 objects) view.offset
  if (startsFrom 0 objects)[begin_]? = some view.offset then
    spanFrom view.nbytes 0 (objects.drop begin_)
  else none

/-- The object files, the newest first. -/
abbrev Cas := List (CASRef × Bytes)

def Cas.find (cas : Cas) (ref : CASRef) : Option Bytes :=
  (List.find? (fun object => object.1 = ref) cas).map Prod.snd

section

variable (sha256 : Bytes → Digest)

/-- One object, checked against its size and its name. -/
def Cas.map (cas : Cas) (ref : CASRef) (size : Int) : Except PyError Bytes :=
  match cas.find ref with
  | none => .error (.other "FileNotFoundError".toList)
  | some bytes => do
      ensure ((bytes.length : Int) = size)
        (.tensor (.objectSize ref bytes.length size))
      ensure (sha256 bytes = ref.digest) (.tensor (.objectBytes ref))
      .ok bytes

/-- The parts of the objects between `offset` and `stop`. -/
def piecesFrom (cas : Cas) (offset stop : Int) :
    Int → List (CASRef × Int) → Except PyError (List Bytes)
  | _, [] => .ok []
  | start, (ref, size) :: objects =>
      if start + size ≤ offset then
        piecesFrom cas offset stop (start + size) objects
      else if stop ≤ start then .ok []
      else do
        let bytes ← cas.map sha256 ref size
        let first := (max offset start - start).toNat
        let last := (min stop (start + size) - start).toNat
        let pieces ← piecesFrom cas offset stop (start + size) objects
        .ok ((bytes.take last).drop first :: pieces)

def pieces (cas : Cas) (file : FileEntry) (offset length : Int) :
    Except PyError (List Bytes) := do
  ensure (0 ≤ offset ∧ 0 ≤ length ∧ offset + length ≤ file.sizeBytes)
    (.tensor (.escapes file.path offset (offset + length) file.sizeBytes))
  if length = 0 then .ok []
  else piecesFrom sha256 cas offset (offset + length) 0 file.objects

def TensorView.tobytes (cas : Cas) (view : TensorView) : Except PyError Bytes :=
  if view.nbytes = 0 then .ok []
  else do
    let parts ← pieces sha256 cas view.file view.offset view.nbytes
    .ok parts.flatten

end

end TensorFS.Python
