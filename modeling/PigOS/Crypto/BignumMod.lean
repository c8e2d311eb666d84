import PigOS.Crypto.RsaCrt

/-!
# `Crypto.BignumMod` — residues, inverses and primes of `crypto/bignum.h`, and the keys of `crypto/rsa.h`

- `bn_mod` works on a memory of numbers, since its callers pass the same number twice; its local `q`
  is a value.
- The other functions call with locals that are all different. A call of `bn_add`, `bn_sub` or
  `bn_mul` is then a function of the arguments (`bnAddTo` and the like).
- None of these functions reads a word at or above `n`, so that the words that nothing has written
  are 0.
- A function that is called is a parameter where it is taken to be exact.
- A loop that need not end has a number of rounds; running out of it is `none`.
-/

namespace PigOS.Crypto

def bnMaxWords : Nat := 64

/-! ## Calls with distinct arguments -/

/-- The result of a call and its two arguments. -/
inductive Arg where
  | out | fst | snd
  deriving DecidableEq

def args (out fst snd : BN) : Mem Arg
  | .out => out
  | .fst => fst
  | .snd => snd

/-- `bn_add(&r,&a,&b)`, for a result that held `old`. -/
def bnAddTo (old a b : BN) : BN := bnAdd (args old a b) .out .fst .snd .out

/-- `bn_sub(&r,&a,&b)`. -/
def bnSubTo (old a b : BN) : BN := bnSub (args old a b) .out .fst .snd .out

/-- `bn_mul(&r,&a,&b)`. -/
def bnMulTo (old a b : BN) : BN := bnMul (args old a b) .out .fst .snd .out

/-- `bn_add(&a,&a,&b)`. -/
def bnAddOnto (a b : BN) : BN := bnAdd (args a a b) .out .out .snd .out

/-- `bn_sub(&a,&a,&b)`. -/
def bnSubFrom (a b : BN) : BN := bnSub (args a a b) .out .out .snd .out

/-- `bn_set_u64`. -/
def bnSetU64 (v : UInt64) : BN := ⟨fun i => if i = 0 then v else 0, 1⟩

def bnIsOne (a : BN) : Bool := a.n = 1 && a.w 0 = 1

/-! ## Residues -/

/-- The body of the two loops of `bn_mod`. It adds `r` to itself, not `q`. -/
def bnModRound (r m q : BN) : BN :=
  let q := bnAddTo q r r
  if 0 ≤ bnCmp q m then bnSubFrom q m else q

/-- `bn_mod(r,a,m)`: 64 rounds for each word of `a`. -/
def bnMod {Loc : Type} [DecidableEq Loc] (s : Mem Loc) (r a m : Loc) : Mem Loc :=
  if bnCmp (s a) (s m) < 0 then s.put r ((s r).copy (s a))
  else
    let s := s.put r ((s r).copy (s a))
    let q := (bnModRound (s r) (s m))^[64 * (s a).n] bnNull
    s.put r ((s r).copy q)

/-- `bn_mulmod(r,a,b,m)`: what it writes, or `none` where the product has more words than its
array. -/
def bnMulmod (mod : BN → BN → BN) (a b m : BN) : Option BN :=
  if bnMaxWords < a.n + b.n then none else some (mod (bnMulTo bnNull a b) m)

/-! ## Primes -/

/-- The loop that halves `s_d` while it is even, and counts in `s`. -/
def bnOddPart : Nat → BN → Nat → Option (BN × Nat)
  | 0, _, _ => none
  | rounds + 1, d, s => if (d.w 0).toNat % 2 = 0 then bnOddPart rounds (bnShr d) (s + 1) else some (d, s)

/-- The loop over `j`: whether `x` gets to `nm1` or to 1 in so many squarings. -/
def bnSquarings (powmod : BN → BN → BN → BN) (n nm1 : BN) : Nat → BN → Bool
  | 0, _ => false
  | k + 1, x =>
    let x := powmod x (bnSetU64 2) n
    if bnCmp x nm1 = 0 then true
    else if bnIsOne x then true
    else bnSquarings powmod n nm1 k x

/-- The loop over `r`, for the rounds that are left. -/
def bnWitnesses (powmod : BN → BN → BN → BN) (n sd : BN) (s : Nat) : Nat → Nat → Nat
  | 0, _ => 1
  | rounds + 1, r =>
    let a := bnSetU64 (UInt64.ofNat (2 + r))
    if 0 ≤ bnCmp a n then 1
    else
      let x := powmod a sd n
      let nm1 := bnSubTo bnNull n (bnSetU64 2)
      if bnIsOne x || bnCmp x nm1 = 0 then bnWitnesses powmod n sd s rounds (r + 1)
      else if bnSquarings powmod n nm1 (s - 1) x then bnWitnesses powmod n sd s rounds (r + 1)
      else 0

/-- `bn_is_prime(n,rounds)`. -/
def bnIsPrime (powmod : BN → BN → BN → BN) (n : BN) (rounds : Nat) : Option Nat :=
  let two := bnSetU64 2
  if bnCmp n two < 0 then some 0
  else if bnCmp n two = 0 then some 1
  else if (n.w 0).toNat % 2 = 0 then some 0
  else
    let d := bnSubTo bnNull n two
    (bnOddPart (64 * d.n + 1) d 0).map (fun (sd, s) => bnWitnesses powmod n sd s rounds 0)

/-- The words that `bn_gen_prime` puts in the middle. The sum is one of 32 bits. -/
def seedWord (i : Nat) : UInt64 :=
  let s := UInt64.ofNat ((0xdeadbeef + i * 0x12345678) % 2 ^ 32)
  let s := s ^^^ (s <<< 13)
  let s := s ^^^ (s >>> 17)
  s ^^^ (s <<< 5)

/-- The candidate of a round of `bn_gen_prime`, over what `*p` held. -/
def bnCandidate (bits : Nat) (p : BN) : BN :=
  let words := (bits + 63) / 64
  let top := (1 : UInt64) <<< UInt64.ofNat (bits - 1 - (words - 1) * 64)
  { w := fun i =>
      if words ≤ i then p.w i
      else if 1 ≤ i ∧ i < words - 1 then seedWord i
      else (if i = words - 1 then top else 0) ||| (if i = 0 then 1 else 0)
    n := words }

/-- `bn_gen_prime(p,bits)`, at most so many rounds of it. -/
def bnGenPrime (isPrime : BN → Nat → Bool) (bits : Nat) : Nat → BN → Option BN
  | 0, _ => none
  | rounds + 1, p =>
    let p := bnCandidate bits p
    if isPrime p 8 then some p else bnGenPrime isPrime bits rounds p

/-! ## Inverses -/

/-- What the loop of `bn_modinv` works on. -/
structure ModinvState where
  t0 : BN
  t1 : BN
  r0 : BN
  r1 : BN

/-- The quotient by a single word. Each of its words is found from two words of the dividend
alone. -/
def bnQuotient (r0 : BN) (d : UInt64) : BN where
  w := fun i =>
    if i < r0.n then UInt64.ofNat (((r0.word (i + 1)).toNat * wordBase + (r0.w i).toNat) / d.toNat) else 0
  n := r0.n

/-- A round of the loop. Behind a division by `bn_mod` the coefficient is 0. -/
def modinvStep (mod : BN → BN → BN) (s : ModinvState) : ModinvState :=
  if s.r1.n = 1 ∧ 0 < s.r1.w 0 then
    let q := bnQuotient s.r0 (s.r1.w 0)
    { t0 := s.t1
      t1 := bnSubTo bnNull s.t0 (bnMulTo bnNull q s.t1)
      r0 := s.r1
      r1 := bnSubTo bnNull s.r0 (bnMulTo bnNull q s.r1) }
  else
    { t0 := s.t1, t1 := bnNull, r0 := s.r1, r1 := mod s.r0 s.r1 }

def modinvLoop (mod : BN → BN → BN) : Nat → ModinvState → Option ModinvState
  | 0, _ => none
  | rounds + 1, s => if bnIsZero s.r1 then some s else modinvLoop mod rounds (modinvStep mod s)

/-- `bn_modinv(r,a,m)`: whether it returns 1, and what `*r` holds then. -/
def bnModinv (mod : BN → BN → BN) (rounds : Nat) (r a m : BN) : Option (Bool × BN) :=
  (modinvLoop mod rounds ⟨bnNull, bnOne, m, a⟩).map (fun s =>
    if bnCmp s.r0 bnOne ≠ 0 then (false, r)
    else
      let t0 := if bnCmp s.t0 bnNull < 0 then bnAddOnto s.t0 m else s.t0
      (true, r.copy t0))

/-! ## Keys

`rsa_gen_key` of `crypto/rsa.h` has three loops: the search of `bn_gen_prime` for a prime, the
search for a `q` that differs from `p`, and the call of `rsa_gen_key` by itself when `e` has no
inverse. -/

def rsaKeyBits : Nat := 2048

/-- `bn_is_prime(n,rounds)`, `bn_mul(r,a,b)` and `bn_modinv(r,a,m)`; `r` is what `*r` held. -/
structure GenOps where
  isPrime : BN → Nat → Bool
  mul : BN → BN → BN → BN
  modinv : BN → BN → BN → Bool × BN

/-- The loop that ends with a `q` other than `p`. -/
def rsaOtherPrime (ops : GenOps) (p : BN) : Nat → BN → Option BN
  | 0, _ => none
  | rounds + 1, q => do
      let q ← bnGenPrime ops.isPrime (rsaKeyBits / 2) rounds q
      if bnCmp p q ≠ 0 then some q else rsaOtherPrime ops p rounds q

/-- `bn_sub(&r,&d,&pm1);bn_mod(&r,&r,&pm1);`. -/
def rsaCrtExponent (old d pm1 : BN) : BN :=
  let r := bnSubTo old d pm1
  bnMod (args r d pm1) .out .out .snd .out

/-- `rsa_gen_key(key)`. -/
def rsaGenKey (ops : GenOps) : Nat → RsaKey → Option RsaKey
  | 0, _ => none
  | rounds + 1, key => do
      let p ← bnGenPrime ops.isPrime (rsaKeyBits / 2) rounds key.p
      let q ← rsaOtherPrime ops p rounds key.q
      let n := ops.mul key.n p q
      let e := key.e.copy (bnSetU64 65537)
      let pm1 := bnSubTo bnNull p (bnSetU64 1)
      let qm1 := bnSubTo bnNull q (bnSetU64 1)
      let phi := ops.mul bnNull pm1 qm1
      let inverse := ops.modinv key.d e phi
      let key := { key with p := p, q := q, n := n, e := e, d := inverse.2 }
      if !inverse.1 then rsaGenKey ops rounds key
      else
        some { key with
          dp := rsaCrtExponent key.dp key.d pm1
          dq := rsaCrtExponent key.dq key.d qm1
          qinv := (ops.modinv key.qinv q p).2 }

end PigOS.Crypto
