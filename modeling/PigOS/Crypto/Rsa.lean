import PigOS.Crypto.Bignum

/-!
# `Crypto.Rsa` — encryption and signatures of `crypto/rsa.h`

`bn_powmod` and `rsa_private_crt` are parameters (`RsaOps`); the padding, the conversions between
bytes and words, and the checks are modelled. The `BN`s of the source are locals without an
initialiser, so that their old contents, and the bytes of a block that are never written, are
arguments.
-/

namespace PigOS.Crypto

def rsaKeyBytes : Nat := 256

structure RsaKey where
  n : BN
  e : BN
  d : BN
  p : BN
  q : BN
  dp : BN
  dq : BN
  qinv : BN

/-- `bn_powmod(r,base,exp,m)` and `rsa_private_crt(out,c,key)`, given what `*r` and `*out` held. -/
structure RsaOps where
  powmod : BN → BN → BN → BN → BN
  privateCrt : BN → BN → RsaKey → BN

/-- The loop `em[i]=wn<m.n?(uint8_t)(m.w[wn]>>bn):0`. -/
def bnToBytes (m : BN) (n : Nat) : List UInt8 :=
  (List.range rsaKeyBytes).map (fun i => if i / 8 < n then wordByte (m.w (i / 8)) (i % 8) else 0)

/-! ## Encryption -/

/-- The "random" padding: a function of the position. -/
def padByte (i : Nat) : UInt8 :=
  let s : UInt64 := 0xdeadbeef + UInt64.ofNat i * 0x12345678
  let s := s ^^^ (s <<< 13)
  let s := s ^^^ (s >>> 17)
  let s := s ^^^ (s <<< 5)
  let b := (s >>> UInt64.ofNat (i % 8 * 8)).toUInt8
  if b = 0 then 1 else b

/-- The block `em`, for a message that leaves room for it. -/
def encryptBlock (msg : List UInt8) : List UInt8 :=
  0x00 :: 0x02 :: ((List.range' 2 (rsaKeyBytes - msg.length - 3)).map padByte ++ 0x00 :: msg)

/-- The loops that write the words of `c`. The outer one counts to `(c.n+7)/8`, as if `c.n` were in
bytes. -/
def writeWords (out : List UInt8) (outLen : Nat) (c : BN) : List UInt8 :=
  out.mapIdx (fun idx b =>
    if idx / 8 < (c.n + 7) / 8 ∧ idx / 8 < outLen ∧ idx < outLen then wordByte (c.w (idx / 8)) (idx % 8) else b)

/-- `rsa_pkcs1_encrypt_pad`: `none` for -1, and else the buffer and the length it stores. -/
def rsaPkcs1EncryptPad (ops : RsaOps) (c₀ : BN) (out : List UInt8) (outLen : Nat) (msg : List UInt8) (e n : BN) :
    Option (List UInt8 × Nat) :=
  if rsaKeyBytes - 11 < msg.length then none
  else
    let m := bytesToBN (encryptBlock msg)
    let c := ops.powmod c₀ m e n
    some (writeWords out outLen c, rsaKeyBytes)

/-! ## Decryption -/

/-- The search for the separator: `while(ps<RSA_KEY_BYTES-1&&em[ps]!=0x00)ps++` from 2. -/
def separator (em : List UInt8) : Nat :=
  2 + (((em.drop 2).take (rsaKeyBytes - 3)).takeWhile (· ≠ 0)).length

/-- The end of `rsa_pkcs1_decrypt`: what it copies out of the block begins at the separator. -/
def unpad (em : List UInt8) : Option (List UInt8) :=
  if em.getD 0 0 ≠ 0x00 ∨ em.getD 1 0 ≠ 0x02 then none
  else
    let ps := separator em
    if rsaKeyBytes - 1 ≤ ps then none
    else some ((em.drop ps).take (rsaKeyBytes - 1 - ps))

/-- `rsa_pkcs1_decrypt`: the bytes it writes, or `none` for -1. Words of `m` are read up to `c.n`,
whatever `m.n` is. -/
def rsaPkcs1Decrypt (ops : RsaOps) (m₀ : BN) (ct : List UInt8) (key : RsaKey) : Option (List UInt8) :=
  if ct.length ≠ rsaKeyBytes then none
  else
    let c := bytesToBN ct
    let m := ops.privateCrt m₀ c key
    unpad (bnToBytes m c.n)

/-! ## Signatures -/

/-- The DER header of a SHA-256 digest. -/
def digestInfo : List UInt8 :=
  [0x30, 0x31, 0x30, 0x0d, 0x06, 0x09, 0x60, 0x86, 0x48, 0x01, 0x65, 0x03, 0x04, 0x02, 0x01, 0x05, 0x00, 0x04, 0x20]

/-- `RSA_KEY_BYTES-38-19`. -/
def diStart : Nat := rsaKeyBytes - 38 - 19

/-- The block that `rsa_sign` builds. 18 bytes behind the separator are never written, and 38 of 51
bytes are copied. -/
def signBlock (junk : Nat → UInt8) (hash : List UInt8) : List UInt8 :=
  0x00 :: 0x01 :: (List.replicate (diStart - 2) 0xff ++ 0x00 ::
    ((List.range' (diStart + 1) (rsaKeyBytes - 38 - (diStart + 1))).map junk ++ (digestInfo ++ hash.take 32).take 38))

def rsaSign (ops : RsaOps) (s₀ : BN) (junk : Nat → UInt8) (hash : List UInt8) (key : RsaKey) : List UInt8 :=
  let m := bytesToBN (signBlock junk hash)
  let s := ops.privateCrt s₀ m key
  bnToBytes s s.n

/-- `rsa_verify`. A block that is `0xff` to its end makes it read the byte behind the array. -/
def rsaVerify (ops : RsaOps) (m₀ : BN) (behind : UInt8) (sig hash : List UInt8) (e n : BN) : Nat :=
  let s := bytesToBN sig
  let m := ops.powmod m₀ s e n
  let em := bnToBytes m m.n
  if em.getD 0 0 ≠ 0x00 ∨ em.getD 1 0 ≠ 0x01 then 0
  else
    let i := 2 + ((em.drop 2).takeWhile (· = 0xff)).length
    if i < 11 ∨ (em ++ [behind]).getD i 0 ≠ 0x00 then 0
    else if i ≠ diStart then 0
    else if (List.range 19).any (fun j => em.getD (diStart + j) 0 ≠ digestInfo.getD j 0) then 0
    else if (List.range 32).any (fun j => em.getD (diStart + 19 + j) 0 ≠ hash.getD j 0) then 0
    else 1

end PigOS.Crypto
