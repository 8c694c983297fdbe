import TensorFS.Contract.Document
import TensorFS.Data.OrdMap
import TensorFS.Data.Sha256
import TensorFS.Tfm1.Go

namespace TensorFS.Go

open Data

/-! What the engine's documents share: handles, layout ids and digests. -/

/-- `<name>@<version>`; the zero value names nothing. -/
structure Handle where
  name : Text
  version : UInt32
  deriving DecidableEq

namespace Handle

/-- Handles sort by name, then by version. -/
def key (handle : Handle) : Lex (Text × Nat) :=
  toLex (handle.name, handle.version.toNat)

theorem key_injective : Function.Injective key := by
  intro left right h
  cases left
  cases right
  simp only [key, EmbeddingLike.apply_eq_iff_eq, Prod.mk.injEq,
    UInt32.toNat_inj] at h
  obtain ⟨rfl, rfl⟩ := h
  rfl

instance : LinearOrder Handle := LinearOrder.lift' key key_injective

def render (handle : Handle) : Text :=
  handle.name ++ '@' :: decimal handle.version.toNat

def zero : Handle := ⟨[], 0⟩

end Handle

/-- The map from one arrangement to another. -/
def bridge (source target : Handle) : Text :=
  source.render ++ '>' :: target.render

inductive HandleFault where
  | noVersion (text : Text)
  | version (text : Text)
  | name (text : Text)
  deriving DecidableEq

/-- `strconv.ParseUint` in base ten at 32 bits. -/
def parseUint32 (digits : Text) : Option UInt32 :=
  if digits ≠ [] ∧ digits.all isAsciiDigit ∧ digitsValue digits < 2 ^ 32 then
    some (UInt32.ofNat (digitsValue digits))
  else none

def parseHandle (text : Text) : Except HandleFault Handle :=
  match Dim.splitOnce '@' text with
  | none => .error (.noVersion text)
  | some (name, digits) =>
      match parseUint32 digits with
      | none => .error (.version text)
      | some version => do
          ensure (version ≠ 0) (.version text)
          ensure (name ≠ [] ∧ name.utf8Len ≤ tfm1MaxContractNameBytes ∧
            isTFM1ContractName name.utf8 = true) (.name text)
          .ok ⟨name, version⟩

/-- `<name>@<version>` read back as a handle. -/
def namedHandle (name : Text) (version : UInt32) :
    Except HandleFault Handle :=
  parseHandle (name ++ '@' :: decimal version.toNat)

/-- The arrangement every tree carries unless it says otherwise. -/
def defaultLayout : Handle := ⟨"torch.contiguous".toList, 1⟩

/-- A stamp: which tensors, what element type, and in what arrangement. -/
structure LayoutID where
  topology : Handle
  quant : Handle
  bytes : Handle
  deriving DecidableEq

inductive LayoutIDFault where
  | parts (text : Text)
  | handle (fault : HandleFault)
  | explicitDefault (text : Text)
  deriving DecidableEq

namespace LayoutID

/-- An unset arrangement is the default. -/
def normalized (id : LayoutID) : LayoutID :=
  if id.bytes = .zero then { id with bytes := defaultLayout } else id

def equal (left right : LayoutID) : Bool :=
  left.normalized = right.normalized

/-- The part that decides a checkpoint's header. -/
def pair (id : LayoutID) : LayoutID := { id with bytes := defaultLayout }

def render (id : LayoutID) : Text :=
  let rendered := id.topology.render ++ '+' :: id.quant.render
  if id.bytes = defaultLayout ∨ id.bytes = .zero then rendered
  else rendered ++ '+' :: id.bytes.render

def parsePart (text : Text) : Except LayoutIDFault Handle :=
  match parseHandle text with
  | .ok handle => .ok handle
  | .error fault => .error (.handle fault)

/-- Two parts or three; the default arrangement is never spelled. -/
def parse (text : Text) : Except LayoutIDFault LayoutID :=
  match text.splitOn '+' with
  | [topology, quant] => do
      let topology ← parsePart topology
      let quant ← parsePart quant
      .ok ⟨topology, quant, defaultLayout⟩
  | [topology, quant, bytes] => do
      let topology ← parsePart topology
      let quant ← parsePart quant
      let bytes ← parsePart bytes
      ensure (bytes ≠ defaultLayout) (.explicitDefault text)
      .ok ⟨topology, quant, bytes⟩
  | _ => .error (.parts text)

end LayoutID

def renderInt (value : Int) : Text :=
  if value < 0 then '-' :: decimal value.natAbs else decimal value.natAbs

def renderBool (value : Bool) : Text :=
  if value then "true".toList else "false".toList

/-- A document's identity: SHA-256 over its canonical rendering. -/
def digestOf (canonical : Text) : Text := hexEncode (sha256 canonical.utf8).bytes

end TensorFS.Go
