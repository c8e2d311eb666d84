import Mathlib.Data.UInt

/-!
# `Crypto.Sha256` — `crypto/sha256.h`

Of `chunk` the bytes in front of `chunk_pos` are kept: those behind it are written before they are
read. What `w` holds at first is a parameter.
-/

namespace PigOS.Crypto

open List

/-- `h[8]` and `ah[8]` -/
structure Digest where
  (a b c d e f g h : UInt32)

def sha256Rr (v c : UInt32) : UInt32 := v >>> c ||| v <<< (32 - c)

/-- `k` -/
def sha256K : List UInt32 := [
  0x428a2f98, 0x71374491, 0xb5c0fbcf, 0xe9b5dba5, 0x3956c25b, 0x59f111f1, 0x923f82a4, 0xab1c5ed5,
  0xd807aa98, 0x12835b01, 0x243185be, 0x550c7dc3, 0x72be5d74, 0x80deb1fe, 0x9bdc06a7, 0xc19bf174,
  0xe49b69c1, 0xefbe4786, 0x0fc19dc6, 0x240ca1cc, 0x2de92c6f, 0x4a7484aa, 0x5cb0a9dc, 0x76f988da,
  0x983e5152, 0xa831c66d, 0xb00327c8, 0xbf597fc7, 0xc6e00bf3, 0xd5a79147, 0x06ca6351, 0x14292967,
  0x27b70a85, 0x2e1b2138, 0x4d2c6dfc, 0x53380d13, 0x650a7354, 0x766a0abb, 0x81c2c92e, 0x92722c85,
  0xa2bfe8a1, 0xa81a664b, 0xc24b8b70, 0xc76c51a3, 0xd192e819, 0xd6990624, 0xf40e3585, 0x106aa070,
  0x19a4c116, 0x1e376c08, 0x2748774c, 0x34b0bcb5, 0x391c0cb3, 0x4ed8aa4a, 0x5b9cca4f, 0x682e6ff3,
  0x748f82ee, 0x78a5636f, 0x84c87814, 0x8cc70208, 0x90befffa, 0xa4506ceb, 0xbef9a3f7, 0xc67178f2]

/-- `w[j]` in the first pass: four bytes, the highest first. -/
def sha256Load (p : List UInt8) (i : Nat) : UInt32 :=
  let byte := fun i => (p.getD i 0).toUInt32
  byte i <<< 24 ||| byte (i + 1) <<< 16 ||| byte (i + 2) <<< 8 ||| byte (i + 3)

/-- `w[j]` in the later passes, from the words 16, 15, 7 and 2 rounds back. -/
def sha256Mix (w16 w15 w7 w2 : UInt32) : UInt32 :=
  let s0 := sha256Rr w15 7 ^^^ sha256Rr w15 18 ^^^ w15 >>> 3
  let s1 := sha256Rr w2 17 ^^^ sha256Rr w2 19 ^^^ w2 >>> 10
  w16 + s0 + w7 + s1

/-- The rest of a round, with `k[i<<4|j]` and `w[j]`. -/
def sha256Round (ah : Digest) (k w : UInt32) : Digest :=
  let s1 := sha256Rr ah.e 6 ^^^ sha256Rr ah.e 11 ^^^ sha256Rr ah.e 25
  let ch := (ah.e &&& ah.f) ^^^ (~~~ah.e &&& ah.g)
  let t1 := ah.h + s1 + ch + k + w
  let s0 := sha256Rr ah.a 2 ^^^ sha256Rr ah.a 13 ^^^ sha256Rr ah.a 22
  let maj := (ah.a &&& ah.b) ^^^ (ah.a &&& ah.c) ^^^ (ah.b &&& ah.c)
  ⟨t1 + (s0 + maj), ah.a, ah.b, ah.c, ah.d + t1, ah.e, ah.f, ah.g⟩

/-- Round `n` of the 64, where `i` is `n / 16` and `j` is `n % 16`. -/
def sha256Step (p : List UInt8) (s : (Nat → UInt32) × Digest) (n : Nat) : (Nat → UInt32) × Digest :=
  let j := n % 16
  let x := if n < 16 then sha256Load p (4 * n)
    else sha256Mix (s.1 j) (s.1 ((j + 1) % 16)) (s.1 ((j + 9) % 16)) (s.1 ((j + 14) % 16))
  (Function.update s.1 j x, sha256Round s.2 (sha256K.getD n 0) x)

/-- `h[i]+=ah[i];` -/
def Digest.add (h ah : Digest) : Digest :=
  ⟨h.a + ah.a, h.b + ah.b, h.c + ah.c, h.d + ah.d, h.e + ah.e, h.f + ah.f, h.g + ah.g, h.h + ah.h⟩

/-- Reads the 64 bytes at `p`. -/
def sha256Consume (w : Nat → UInt32) (h : Digest) (p : List UInt8) : Digest :=
  h.add ((range 64).foldl (sha256Step p) (w, h)).2

/-- The context. `chunk` is never left full. -/
structure Sha256 where
  chunk : List UInt8
  totalLen : UInt64
  h : Digest
  room : chunk.length < 64

def Sha256.spaceLeft (s : Sha256) : Nat := 64 - s.chunk.length

def sha256H : Digest :=
  ⟨0x6a09e667, 0xbb67ae85, 0x3c6ef372, 0xa54ff53a, 0x510e527f, 0x9b05688c, 0x1f83d9ab, 0x5be0cd19⟩

def sha256Init : Sha256 := ⟨[], 0, sha256H, by decide⟩

variable (w : Nat → UInt32)

/-- `while(len>0)` in `sha256_write` -/
def sha256Loop (s : Sha256) (p : List UInt8) : Sha256 :=
  if hp : p = [] then s
  else if s.spaceLeft = 64 ∧ 64 ≤ p.length then
    sha256Loop { s with h := sha256Consume w s.h (p.take 64) } (p.drop 64)
  else
    let c := min p.length s.spaceLeft
    let chunk := s.chunk ++ p.take c
    if hc : chunk.length < 64 then sha256Loop ⟨chunk, s.totalLen, s.h, hc⟩ (p.drop c)
    else sha256Loop ⟨[], s.totalLen, sha256Consume w s.h chunk, by decide⟩ (p.drop c)
termination_by p.length
decreasing_by
  all_goals
    have := length_pos_iff.mpr hp
    have := s.room
    rw [length_drop]
    unfold Sha256.spaceLeft at *
    omega

def sha256Write (s : Sha256) (data : List UInt8) : Sha256 :=
  sha256Loop w { s with totalLen := s.totalLen + UInt64.ofNat data.length } data

/-- `pos[0..8)`: `pos[7]=(uint8_t)(len<<3);len>>=5;`, then `pos[i]=(uint8_t)len;len>>=8;`
downwards -/
def sha256Length (len : UInt64) : List UInt8 :=
  ((range 7).foldl (fun (s : UInt64 × List UInt8) _ => (s.1 >>> 8, s.1.toUInt8 :: s.2))
    (len >>> 5, [(len <<< 3).toUInt8])).2

/-- The words, each with its highest byte first. -/
def Digest.bytes (h : Digest) : List UInt8 :=
  [h.a, h.b, h.c, h.d, h.e, h.f, h.g, h.h].flatMap fun v : UInt32 =>
    [(v >>> 24).toUInt8, (v >>> 16).toUInt8, (v >>> 8).toUInt8, v.toUInt8]

def sha256Close (s : Sha256) : List UInt8 :=
  let chunk := s.chunk ++ [0x80]
  let sl := s.spaceLeft - 1
  let (chunk, sl, h) :=
    if sl < 8 then ([], 64, sha256Consume w s.h (chunk ++ replicate sl 0)) else (chunk, sl, s.h)
  (sha256Consume w h (chunk ++ replicate (sl - 8) 0 ++ sha256Length s.totalLen)).bytes

def calcSha256 (input : List UInt8) : List UInt8 := sha256Close w (sha256Write w sha256Init input)

end PigOS.Crypto
