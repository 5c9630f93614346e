/-
# `JevGrep.Lib.Sha256` — SHA-256, to run the models with.

The models take their digest as a parameter, as a crate or `node:crypto` provides it. Where a model is run,
this is the digest. Words are natural numbers below 2^32, and a round keeps the words of the schedule that
are still to come, so that every step is arithmetic on numerals.
-/
import Mathlib.Data.List.Basic

namespace JevGrep.Lib.Sha256

/-! ## §1 — words. -/

/-- The sum of two words, or of more, as a word. -/
def word (n : Nat) : Nat := n % 4294967296

/-- `ROTR^k`. -/
def rotateRight (k x : Nat) : Nat := x >>> k ||| word (x <<< (32 - k))

/-- `Σ0`. -/
def bigSigma0 (x : Nat) : Nat := rotateRight 2 x ^^^ rotateRight 13 x ^^^ rotateRight 22 x

/-- `Σ1`. -/
def bigSigma1 (x : Nat) : Nat := rotateRight 6 x ^^^ rotateRight 11 x ^^^ rotateRight 25 x

/-- `σ0`. -/
def sigma0 (x : Nat) : Nat := rotateRight 7 x ^^^ rotateRight 18 x ^^^ x >>> 3

/-- `σ1`. -/
def sigma1 (x : Nat) : Nat := rotateRight 17 x ^^^ rotateRight 19 x ^^^ x >>> 10

/-- `Ch`. -/
def choose (x y z : Nat) : Nat := (x &&& y) ^^^ ((4294967295 - x) &&& z)

/-- `Maj`. -/
def majority (x y z : Nat) : Nat := (x &&& y) ^^^ (x &&& z) ^^^ (y &&& z)

/-- The big-endian bytes of a word. -/
def wordBytes (x : Nat) : List UInt8 :=
  [UInt8.ofNat (x >>> 24), UInt8.ofNat (x >>> 16), UInt8.ofNat (x >>> 8), UInt8.ofNat x]

/-- The big-endian words of a string of bytes. -/
def words : List UInt8 → List Nat
  | a :: b :: c :: d :: rest =>
      (((a.toNat * 256 + b.toNat) * 256 + c.toNat) * 256 + d.toNat) :: words rest
  | _ => []

/-! ## §2 — one block. -/

/-- The constants of the sixty-four rounds. -/
def roundConstants : List Nat := [
  0x428a2f98, 0x71374491, 0xb5c0fbcf, 0xe9b5dba5, 0x3956c25b, 0x59f111f1, 0x923f82a4, 0xab1c5ed5,
  0xd807aa98, 0x12835b01, 0x243185be, 0x550c7dc3, 0x72be5d74, 0x80deb1fe, 0x9bdc06a7, 0xc19bf174,
  0xe49b69c1, 0xefbe4786, 0x0fc19dc6, 0x240ca1cc, 0x2de92c6f, 0x4a7484aa, 0x5cb0a9dc, 0x76f988da,
  0x983e5152, 0xa831c66d, 0xb00327c8, 0xbf597fc7, 0xc6e00bf3, 0xd5a79147, 0x06ca6351, 0x14292967,
  0x27b70a85, 0x2e1b2138, 0x4d2c6dfc, 0x53380d13, 0x650a7354, 0x766a0abb, 0x81c2c92e, 0x92722c85,
  0xa2bfe8a1, 0xa81a664b, 0xc24b8b70, 0xc76c51a3, 0xd192e819, 0xd6990624, 0xf40e3585, 0x106aa070,
  0x19a4c116, 0x1e376c08, 0x2748774c, 0x34b0bcb5, 0x391c0cb3, 0x4ed8aa4a, 0x5b9cca4f, 0x682e6ff3,
  0x748f82ee, 0x78a5636f, 0x84c87814, 0x8cc70208, 0x90befffa, 0xa4506ceb, 0xbef9a3f7, 0xc67178f2]

/-- The eight working variables, or a chaining value. -/
structure State where
  a : Nat
  b : Nat
  c : Nat
  d : Nat
  e : Nat
  f : Nat
  g : Nat
  h : Nat

/-- `k n`, with `n` evaluated first. -/
def strictly {α : Type} (n : Nat) (k : Nat → α) : α :=
  match n with
  | 0 => k 0
  | n + 1 => k (n + 1)

/-- The rounds of the given constants; the schedule is kept as its next sixteen words. -/
def rounds : List Nat → List Nat → State → State
  | constant :: constants, next :: later, s =>
      strictly (word (s.h + bigSigma1 s.e + choose s.e s.f s.g + constant + next)) fun t₁ =>
      strictly (word (bigSigma0 s.a + majority s.a s.b s.c)) fun t₂ =>
      strictly (word (s.d + t₁)) fun e =>
      strictly (word (t₁ + t₂)) fun a =>
      strictly (word (sigma1 (later.getD 13 0) + later.getD 8 0 + sigma0 (later.getD 0 0) + next)) fun w =>
        rounds constants (later ++ [w]) { a, b := s.a, c := s.b, d := s.c, e, f := s.e, g := s.f, h := s.g }
  | _, _, s => s

/-- The chaining value behind a block of sixteen words. -/
def compress (s : State) (block : List Nat) : State :=
  let t := rounds roundConstants block s
  { a := word (s.a + t.a), b := word (s.b + t.b), c := word (s.c + t.c), d := word (s.d + t.d)
    e := word (s.e + t.e), f := word (s.f + t.f), g := word (s.g + t.g), h := word (s.h + t.h) }

/-! ## §3 — a message. -/

/-- The first chaining value. -/
def initial : State where
  a := 0x6a09e667
  b := 0xbb67ae85
  c := 0x3c6ef372
  d := 0xa54ff53a
  e := 0x510e527f
  f := 0x9b05688c
  g := 0x1f83d9ab
  h := 0x5be0cd19

/-- A message with its padding: a one bit, zeros and the length in bits. -/
def padded (message : List UInt8) : List UInt8 :=
  message ++ 0x80 :: List.replicate ((119 - message.length % 64) % 64) 0
    ++ wordBytes (message.length * 8 / 4294967296) ++ wordBytes (word (message.length * 8))

/-- The chaining value behind some blocks. -/
def blocks : Nat → List Nat → State → State
  | 0, _, s => s
  | n + 1, ws, s => blocks n (ws.drop 16) (compress s (ws.take 16))

/-- SHA-256. -/
def digest (message : List UInt8) : List UInt8 :=
  let ws := words (padded message)
  let s := blocks (ws.length / 16) ws initial
  wordBytes s.a ++ wordBytes s.b ++ wordBytes s.c ++ wordBytes s.d
    ++ wordBytes s.e ++ wordBytes s.f ++ wordBytes s.g ++ wordBytes s.h

@[simp] theorem length_digest (message : List UInt8) : (digest message).length = 32 := rfl

/-- The digest of `abc`. -/
example : digest [0x61, 0x62, 0x63] =
    [0xba, 0x78, 0x16, 0xbf, 0x8f, 0x01, 0xcf, 0xea, 0x41, 0x41, 0x40, 0xde, 0x5d, 0xae, 0x22, 0x23,
      0xb0, 0x03, 0x61, 0xa3, 0x96, 0x17, 0x7a, 0x9c, 0xb4, 0x10, 0xff, 0x61, 0xf2, 0x00, 0x15, 0xad] := by
  decide +kernel

end JevGrep.Lib.Sha256
