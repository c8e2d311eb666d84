import PigOS.Crypto.Rsa

/-!
# `Crypto.RsaCrt` — `rsa_private_crt`, with the operations it calls through pointers

`rsa_private_crt` of `crypto/rsa.h` works in place, and what the operations of `crypto/bignum.h` do
then depends on the order in which they read and write words. So they are loops on a memory of
numbers: an argument is a location, and every access to a word goes through the memory. `bn_powmod`
and `bn_mulmod`, which work on copies, are parameters.
-/

namespace PigOS.Crypto

/-- The numbers that a function works on. -/
abbrev Mem (Loc : Type) := Loc → BN

variable {Loc : Type} [DecidableEq Loc]

namespace Mem

def put (s : Mem Loc) (r : Loc) (b : BN) : Mem Loc := fun l => if l = r then b else s l

/-- `r->w[i]=x`. -/
def setWord (s : Mem Loc) (r : Loc) (i : Nat) (x : UInt64) : Mem Loc :=
  s.put r { s r with w := fun k => if k = i then x else (s r).w k }

/-- `r->n=n`. -/
def setN (s : Mem Loc) (r : Loc) (n : Nat) : Mem Loc := s.put r { s r with n := n }

end Mem

/-- `i<a->n?a->w[i]:0`. -/
def BN.word (a : BN) (i : Nat) : UInt64 := if i < a.n then a.w i else 0

/-! ## Comparison -/

def bnCmpLoop (a b : BN) : Nat → Int
  | 0 => 0
  | i + 1 => if a.word i ≠ b.word i then (if b.word i < a.word i then 1 else -1) else bnCmpLoop a b i

def bnCmp (a b : BN) : Int := bnCmpLoop a b (max a.n b.n)

/-! ## Addition -/

/-- The loop of `bn_add` after `i` rounds: the memory and the carry. -/
def bnAddLoop (r a b : Loc) (s : Mem Loc) : Nat → Mem Loc × Nat
  | 0 => (s, 0)
  | i + 1 =>
    let (s, c) := bnAddLoop r a b s i
    let sum := ((s a).word i).toNat + ((s b).word i).toNat + c
    (s.setWord r i (UInt64.ofNat sum), sum / wordBase)

def bnAdd (s : Mem Loc) (r a b : Loc) : Mem Loc :=
  let n := max (s a).n (s b).n
  let (s, c) := bnAddLoop r a b s n
  if c ≠ 0 then (s.setWord r n (UInt64.ofNat c)).setN r (n + 1) else s.setN r n

/-! ## Subtraction -/

/-- The loop of `bn_sub` after `i` rounds: the memory and the borrow. -/
def bnSubLoop (r a b : Loc) (s : Mem Loc) : Nat → Mem Loc × Nat
  | 0 => (s, 0)
  | i + 1 =>
    let (s, c) := bnSubLoop r a b s i
    let diff : Int := ((s a).w i).toNat - ((s b).word i).toNat - c
    (s.setWord r i (UInt64.ofNat (diff % wordBase).toNat), if diff < 0 then 1 else 0)

/-- `bn_sub`: the words of `b` above those of `a` are not read, and a last borrow is dropped. -/
def bnSub (s : Mem Loc) (r a b : Loc) : Mem Loc :=
  let n := (s a).n
  let s := (bnSubLoop r a b s n).1
  s.setN r (trimWords (s r).w n)

/-! ## Multiplication -/

/-- `for(int i=0;i<k;i++)r->w[i]=0`. -/
def clearWords (s : Mem Loc) (r : Loc) : Nat → Mem Loc
  | 0 => s
  | k + 1 => (clearWords s r k).setWord r k 0

/-- The inner loop of `bn_mul` after `j` rounds. -/
def bnMulRow (r a b : Loc) (i : Nat) (s : Mem Loc) : Nat → Mem Loc × Nat
  | 0 => (s, 0)
  | j + 1 =>
    let (s, c) := bnMulRow r a b i s j
    let p := ((s a).w i).toNat * ((s b).w j).toNat + ((s r).w (i + j)).toNat + c
    (s.setWord r (i + j) (UInt64.ofNat p), p / wordBase)

/-- The outer loop after `i` rounds. -/
def bnMulRows (r a b : Loc) (s : Mem Loc) : Nat → Mem Loc
  | 0 => s
  | i + 1 =>
    let s := bnMulRows r a b s i
    let (s, c) := bnMulRow r a b i s (s b).n
    if c ≠ 0 then s.setWord r (i + (s b).n) ((s r).w (i + (s b).n) + UInt64.ofNat c) else s

/-- `bn_mul`. With more than 64 words between the arguments the source writes over `r->n`, which is
not followed. -/
def bnMul (s : Mem Loc) (r a b : Loc) : Mem Loc :=
  let rn := (s a).n + (s b).n
  let s := clearWords s r rn
  let s := bnMulRows r a b s (s a).n
  s.setN r (trimWords (s r).w rn)

/-! ## The private operation -/

/-- The locals of `rsa_private_crt`, what its arguments point to, and what it reads of the key. -/
inductive CrtVar where
  | m1 | m2 | h
  | out | c
  | p | q | dp | dq | qinv
  deriving DecidableEq

/-- `bn_powmod(r,base,exp,m)` and `bn_mulmod(r,a,b,m)`; the first argument is what `*r` held. -/
structure BnArith where
  powmod : BN → BN → BN → BN → BN
  mulmod : BN → BN → BN → BN → BN

/-- The memory at the call: the locals hold anything. -/
def crtStart (junk : CrtVar → BN) (old c : BN) (key : RsaKey) : Mem CrtVar
  | .out => old
  | .c => c
  | .p => key.p
  | .q => key.q
  | .dp => key.dp
  | .dq => key.dq
  | .qinv => key.qinv
  | x => junk x

/-- `bn_set_u64(&(BN){0},0)`. -/
def bnNull : BN := ⟨fun _ => 0, 1⟩

/-- The body of `rsa_private_crt`, line by line. -/
def crtRun (ar : BnArith) (s : Mem CrtVar) : Mem CrtVar :=
  let s := s.put .m1 (ar.powmod (s .m1) (s .c) (s .dp) (s .p))
  let s := s.put .m2 (ar.powmod (s .m2) (s .c) (s .dq) (s .q))
  let s := bnSub s .h .m1 .m2
  let s := if bnCmp (s .h) bnNull < 0 then bnAdd s .h .h .p else s
  let s := s.put .h (ar.mulmod (s .h) (s .h) (s .qinv) (s .p))
  let s := bnMul s .h .h .q
  bnAdd s .out .h .m2

/-- What `rsa_private_crt` writes to `*out`. -/
def rsaPrivateCrt (ar : BnArith) (junk : CrtVar → BN) (old c : BN) (key : RsaKey) : BN :=
  crtRun ar (crtStart junk old c key) .out

end PigOS.Crypto
