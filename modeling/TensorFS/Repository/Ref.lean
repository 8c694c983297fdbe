import TensorFS.Tfm1.Go

namespace TensorFS.Go

open Data

/-! Content references: the zero value, or the lowercase hexadecimal of one
SHA-256 digest. -/

structure Ref where
  hex : Text
  hex_ok : hex = [] ∨ ∃ digest : Digest, hex = hexEncode digest.bytes
  deriving DecidableEq

namespace Ref

def zero : Ref := ⟨[], .inl rfl⟩

def ofDigest (digest : Digest) : Ref :=
  ⟨hexEncode digest.bytes, .inr ⟨digest, rfl⟩⟩

theorem ofDigest_inj {left right : Digest} :
    ofDigest left = ofDigest right ↔ left = right := by
  constructor
  · intro h
    cases left
    cases right
    simpa using hexEncode_inj (congrArg hex h)
  · exact congrArg _

theorem ofDigest_hex_ne_nil (digest : Digest) : (ofDigest digest).hex ≠ [] := by
  have hsize := digest.size
  cases hbytes : digest.bytes with
  | nil =>
      rw [hbytes] at hsize
      cases hsize
  | cons b bytes =>
      simp [ofDigest, hexEncode, hbytes]

theorem ofDigest_ne_zero (digest : Digest) : ofDigest digest ≠ zero := fun h =>
  ofDigest_hex_ne_nil digest (congrArg hex h)

def render (ref : Ref) : Text :=
  if ref.hex = [] then [] else "sha256:".toList ++ ref.hex

/-- `strings.Trim` of the separator. -/
def trimSlashes (text : Text) : Text :=
  (text.dropWhile (· = '/')).rdropWhile (· = '/')

inductive KeyFault where
  | emptyPrefix
  | unsafeComponent
  | zeroRef
  deriving DecidableEq

/-- A namespace an object key can be made under. -/
def checkPrefix (clean : Text) : Except KeyFault Unit := do
  ensure (clean ≠ []) .emptyPrefix
  ensure (∀ component ∈ clean.splitOn '/',
    component ≠ [] ∧ component ≠ ['.'] ∧ component ≠ ['.', '.'])
    .unsafeComponent

/-- The joined components hold nothing for `path.Join` to clean. -/
def objectKey (ref : Ref) (namespacePrefix : Text) :
    Except KeyFault Text := do
  let clean := trimSlashes namespacePrefix
  checkPrefix clean
  ensure (ref.hex ≠ []) .zeroRef
  .ok (clean ++ "/sha256/".toList ++ ref.hex.take 2 ++ '/' ::
    (ref.hex.drop 2).take 2 ++ '/' :: ref.hex)

end Ref

end TensorFS.Go
