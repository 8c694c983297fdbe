import TensorFS.Python.Gguf

namespace TensorFS.Python

open Data

/-! The writer.  A method changes the writer and the store as it goes, and what
it changed before it raised stays changed. -/

structure Pending where
  name : Text
  dtype : Text
  shape : List Int
  nbytes : Int
  inherited : Option (List (CASRef × Int))
  chunks : Option (List (CASRef × Int))
  deriving DecidableEq

structure TensorWriter where
  path : Text
  format : Container
  pending : List Pending := []
  names : List Text := []
  deriving DecidableEq

/-- A writer and the store it puts objects into. -/
structure Desk where
  cas : Cas
  writer : TensorWriter
  deriving DecidableEq

abbrev Method (α : Type) := Client Desk PyError α

/-- `try`, and what is done on a `TensorError`. -/
def onTensorError {α : Type} (m : Method α) (handler : Method α) : Method α :=
  fun desk =>
    match m desk with
    | (.error (.failed (.tensor _)), desk) => handler desk
    | result => result

/-- An iterable: what it yields, and where it raises. -/
abbrev Yields (α : Type) := List (Except PyError α)

section

variable (int : Text → Option Int) (sha256 : Bytes → Digest)
  (disk : Cas → Bytes → Option PyError)

/-- `disk` is what a write may fail with. -/
def putBytes (data : Bytes) : Method CASRef := do
  let cas ← Client.read Desk.cas
  match cas.map sha256 ⟨sha256 data⟩ data.length with
  | .ok _ => pure ⟨sha256 data⟩
  | .error _ =>
      match disk cas data with
      | some error => Client.fail error
      | none => do
          Client.update fun desk =>
            { desk with cas := (⟨sha256 data⟩, data) :: desk.cas }
          pure ⟨sha256 data⟩

def claim (name : Text) : Method Unit := do
  let writer ← Client.read Desk.writer
  Client.check (name ∉ writer.names) (.tensor (.twice name))
  Client.update fun desk =>
    { desk with writer :=
      { desk.writer with names := name :: desk.writer.names } }

/-- The objects admitted so far, and the bytes not yet in one. -/
structure Carry where
  chunks : List (CASRef × Int) := []
  carry : Bytes := []

def Carry.total (state : Carry) : Int := (state.chunks.map Prod.snd).sum

/-- One object for each full piece; `final` empties the carry. -/
def flush (final : Bool) : Nat → Carry → Method Carry
  | 0, state => pure state
  | rounds + 1, state =>
      if maxChunkSize ≤ state.carry.length ∨ (final = true ∧ state.carry ≠ [])
      then do
        let piece := state.carry.take maxChunkSize.toNat
        let ref ← putBytes sha256 disk piece
        flush final rounds
          ⟨state.chunks ++ [(ref, (piece.length : Int))],
            state.carry.drop maxChunkSize.toNat⟩
      else pure state

def feed : Yields Bytes → Carry → Method Carry
  | [], state => flush sha256 disk true state.carry.length state
  | block :: blocks, state => do
      let block ← Client.orFail block
      let carry := state.carry ++ block
      let state ← flush sha256 disk false carry.length ⟨state.chunks, carry⟩
      feed blocks state

/-- The bytes of so many elements. -/
def declaredBytes (dtype : Text) (shape : List Int) : Except PyError Int :=
  match lookup dtypeBits dtype with
  | none => .error (.other "KeyError".toList)
  | some bits => do
      let all := shape.foldl (· * ·) (1 : Int) * bits
      ensure (all % 8 = 0) (.tensor (.partialByte dtype shape))
      .ok (all / 8)

def TensorWriter.declaredBytes (writer : TensorWriter) (dtype : Text)
    (shape : List Int) : Except PyError Int :=
  match writer.format with
  | .gguf => ((typeId int dtype).bind fun ggmlType =>
      tensorNbytes ggmlType shape).mapError fun error => .tensor (.gguf error)
  | .safetensors => Python.declaredBytes dtype shape

def append (item : Pending) : Method Unit :=
  Client.update fun desk =>
    { desk with writer :=
      { desk.writer with pending := desk.writer.pending ++ [item] } }

/-- What `add` does once the name is claimed. -/
def addClaimed (name dtype : Text) (shape : Except PyError (List Int))
    (data : Yields Bytes) : Method Unit := do
  let writer ← Client.read Desk.writer
  Client.check
    (writer.format = .safetensors → (lookup dtypeBits dtype).isSome = true)
    (.tensor (.unknownDtype dtype))
  let dimensions ← Client.orFail shape
  let state ← feed sha256 disk data {}
  let expected ← Client.orFail (writer.declaredBytes int dtype dimensions)
  Client.check (state.total = expected)
    (.tensor (.supplied name state.total dtype dimensions expected))
  append ⟨name, dtype, dimensions, state.total, none, some state.chunks⟩

def add (name dtype : Text) (shape : Except PyError (List Int))
    (data : Yields Bytes) : Method Unit := do
  claim name
  addClaimed int sha256 disk name dtype shape data

/-- What `inherit` does once the name is claimed. -/
def adopt (view : TensorView) : Method Unit := do
  let writer ← Client.read Desk.writer
  Client.check (view.format = writer.format)
    (.tensor (.foreign view.name view.format writer.format))
  match view.objectSpan with
  | none => Client.fail (.tensor (.unaligned view.name view.file.path))
  | some span =>
      append ⟨view.name, view.dtype, view.shape, view.nbytes, some span, none⟩

def inherit (view : TensorView) : Method Unit := do
  claim view.name
  adopt view

end

end TensorFS.Python
