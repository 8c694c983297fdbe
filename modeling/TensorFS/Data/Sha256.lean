import TensorFS.Tfm1.Types

namespace TensorFS

open Data

/-! SHA-256 as the standard defines it, on naturals below `2 ^ 32`. -/

namespace Sha256

def roundConstants : List Nat :=
[0x428a2f98, 0x71374491, 0xb5c0fbcf, 0xe9b5dba5, 0x3956c25b, 0x59f111f1,
    0x923f82a4, 0xab1c5ed5, 0xd807aa98, 0x12835b01, 0x243185be, 0x550c7dc3,
    0x72be5d74, 0x80deb1fe, 0x9bdc06a7, 0xc19bf174, 0xe49b69c1, 0xefbe4786,
    0x0fc19dc6, 0x240ca1cc, 0x2de92c6f, 0x4a7484aa, 0x5cb0a9dc, 0x76f988da,
    0x983e5152, 0xa831c66d, 0xb00327c8, 0xbf597fc7, 0xc6e00bf3, 0xd5a79147,
    0x06ca6351, 0x14292967, 0x27b70a85, 0x2e1b2138, 0x4d2c6dfc, 0x53380d13,
    0x650a7354, 0x766a0abb, 0x81c2c92e, 0x92722c85, 0xa2bfe8a1, 0xa81a664b,
    0xc24b8b70, 0xc76c51a3, 0xd192e819, 0xd6990624, 0xf40e3585, 0x106aa070,
    0x19a4c116, 0x1e376c08, 0x2748774c, 0x34b0bcb5, 0x391c0cb3, 0x4ed8aa4a,
    0x5b9cca4f, 0x682e6ff3, 0x748f82ee, 0x78a5636f, 0x84c87814, 0x8cc70208,
    0x90befffa, 0xa4506ceb, 0xbef9a3f7, 0xc67178f2]

structure State where
  a : Nat
  b : Nat
  c : Nat
  d : Nat
  e : Nat
  f : Nat
  g : Nat
  h : Nat

def initial : State :=
  ⟨0x6a09e667, 0xbb67ae85, 0x3c6ef372, 0xa54ff53a, 0x510e527f, 0x9b05688c, 0x1f83d9ab, 0x5be0cd19⟩

def rotr (x n : Nat) : Nat := (x >>> n ||| x <<< (32 - n)) % 2 ^ 32

def bigSigma0 (x : Nat) : Nat := rotr x 2 ^^^ rotr x 13 ^^^ rotr x 22

def bigSigma1 (x : Nat) : Nat := rotr x 6 ^^^ rotr x 11 ^^^ rotr x 25

def smallSigma0 (x : Nat) : Nat := rotr x 7 ^^^ rotr x 18 ^^^ x >>> 3

def smallSigma1 (x : Nat) : Nat := rotr x 17 ^^^ rotr x 19 ^^^ x >>> 10

def choose (x y z : Nat) : Nat := x &&& y ^^^ (2 ^ 32 - 1 - x) &&& z

def majority (x y z : Nat) : Nat := x &&& y ^^^ x &&& z ^^^ y &&& z

def round (s : State) (constant word : Nat) : State :=
  let t := s.h + bigSigma1 s.e + choose s.e s.f s.g + constant + word
  ⟨(t + bigSigma0 s.a + majority s.a s.b s.c) % 2 ^ 32, s.a, s.b, s.c,
    (s.d + t) % 2 ^ 32, s.e, s.f, s.g⟩

/-- The rounds of one block; `window` holds the next sixteen schedule words. -/
def rounds : List Nat → List Nat → State → State
  | constant :: constants, word :: window, s =>
      let next := (smallSigma1 (window.getD 13 0) + window.getD 8 0 +
        smallSigma0 (window.getD 0 0) + word) % 2 ^ 32
      rounds constants (window ++ [next]) (round s constant word)
  | _, _, s => s

def State.add (s t : State) : State :=
  ⟨(s.a + t.a) % 2 ^ 32, (s.b + t.b) % 2 ^ 32, (s.c + t.c) % 2 ^ 32,
    (s.d + t.d) % 2 ^ 32, (s.e + t.e) % 2 ^ 32, (s.f + t.f) % 2 ^ 32,
    (s.g + t.g) % 2 ^ 32, (s.h + t.h) % 2 ^ 32⟩

def words : Bytes → List Nat
  | a :: b :: c :: d :: rest =>
      (((a.toNat * 256 + b.toNat) * 256 + c.toNat) * 256 + d.toNat) ::
        words rest
  | _ => []

def blocks : Nat → List Nat → State → State
  | 0, _, s => s
  | count + 1, message, s =>
      blocks count (message.drop 16)
        (s.add (rounds roundConstants (message.take 16) s))

/-- The message, a one bit, zeros, and the bit length in eight bytes. -/
def padded (message : Bytes) : Bytes :=
  message ++ 0x80 :: List.replicate ((119 - message.length % 64) % 64) 0 ++
    (leBytes 8 (8 * message.length)).reverse

def wordBytes (word : Nat) : Bytes := (leBytes 4 word).reverse

def State.bytes (s : State) : Bytes :=
  wordBytes s.a ++ wordBytes s.b ++ wordBytes s.c ++ wordBytes s.d ++
    wordBytes s.e ++ wordBytes s.f ++ wordBytes s.g ++ wordBytes s.h

theorem State.length_bytes (s : State) : s.bytes.length = 32 := by
  simp [State.bytes, wordBytes]

end Sha256

def sha256 (message : Bytes) : Digest :=
  let message := Sha256.padded message
  ⟨(Sha256.blocks (message.length / 64) (Sha256.words message)
    Sha256.initial).bytes, Sha256.State.length_bytes _⟩

example : sha256 [] = emptyBlobDigest := by decide +kernel

end TensorFS
