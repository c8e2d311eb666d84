import Mathlib.Algebra.GroupWithZero.Nat
import PigOS.Crypto.TlsRecord

/-!
# `Crypto.Aes` — the block cipher of `crypto/aes256.h` and its CBC mode

The functions make the assignments of the source in the same order. In `aes_mix_columns` and its
inverse the loop variable is multiplied by 0 in every index, so that four times the same column is
mixed: `mixColumn` and `invMixColumn` are the loop bodies. The two CBC functions leave the chaining
value of the next call in the context.
-/

namespace PigOS.Crypto

/-- The numerals from 0 to 15 are indices of a block. -/
instance neZero_blockLen : NeZero 16 := ⟨by decide⟩

namespace Block

def byte (b : Block) (i : Fin 16) : UInt8 := b.val.getD i 0

/-- `st[i]=x`. -/
def set (b : Block) (i : Fin 16) (x : UInt8) : Block := ⟨b.val.set i x, by rw [List.length_set, b.property]⟩

def ofFn (f : Fin 16 → UInt8) : Block := ⟨List.ofFn f, List.length_ofFn⟩

end Block

namespace Aes

/-! ## Tables -/

def sbox : List UInt8 :=
  [0x63, 0x7c, 0x77, 0x7b, 0xf2, 0x6b, 0x6f, 0xc5, 0x30, 0x01, 0x67, 0x2b, 0xfe, 0xd7, 0xab, 0x76,
   0xca, 0x82, 0xc9, 0x7d, 0xfa, 0x59, 0x47, 0xf0, 0xad, 0xd4, 0xa2, 0xaf, 0x9c, 0xa4, 0x72, 0xc0,
   0xb7, 0xfd, 0x93, 0x26, 0x36, 0x3f, 0xf7, 0xcc, 0x34, 0xa5, 0xe5, 0xf1, 0x71, 0xd8, 0x31, 0x15,
   0x04, 0xc7, 0x23, 0xc3, 0x18, 0x96, 0x05, 0x9a, 0x07, 0x12, 0x80, 0xe2, 0xeb, 0x27, 0xb2, 0x75,
   0x09, 0x83, 0x2c, 0x1a, 0x1b, 0x6e, 0x5a, 0xa0, 0x52, 0x3b, 0xd6, 0xb3, 0x29, 0xe3, 0x2f, 0x84,
   0x53, 0xd1, 0x00, 0xed, 0x20, 0xfc, 0xb1, 0x5b, 0x6a, 0xcb, 0xbe, 0x39, 0x4a, 0x4c, 0x58, 0xcf,
   0xd0, 0xef, 0xaa, 0xfb, 0x43, 0x4d, 0x33, 0x85, 0x45, 0xf9, 0x02, 0x7f, 0x50, 0x3c, 0x9f, 0xa8,
   0x51, 0xa3, 0x40, 0x8f, 0x92, 0x9d, 0x38, 0xf5, 0xbc, 0xb6, 0xda, 0x21, 0x10, 0xff, 0xf3, 0xd2,
   0xcd, 0x0c, 0x13, 0xec, 0x5f, 0x97, 0x44, 0x17, 0xc4, 0xa7, 0x7e, 0x3d, 0x64, 0x5d, 0x19, 0x73,
   0x60, 0x81, 0x4f, 0xdc, 0x22, 0x2a, 0x90, 0x88, 0x46, 0xee, 0xb8, 0x14, 0xde, 0x5e, 0x0b, 0xdb,
   0xe0, 0x32, 0x3a, 0x0a, 0x49, 0x06, 0x24, 0x5c, 0xc2, 0xd3, 0xac, 0x62, 0x91, 0x95, 0xe4, 0x79,
   0xe7, 0xc8, 0x37, 0x6d, 0x8d, 0xd5, 0x4e, 0xa9, 0x6c, 0x56, 0xf4, 0xea, 0x65, 0x7a, 0xae, 0x08,
   0xba, 0x78, 0x25, 0x2e, 0x1c, 0xa6, 0xb4, 0xc6, 0xe8, 0xdd, 0x74, 0x1f, 0x4b, 0xbd, 0x8b, 0x8a,
   0x70, 0x3e, 0xb5, 0x66, 0x48, 0x03, 0xf6, 0x0e, 0x61, 0x35, 0x57, 0xb9, 0x86, 0xc1, 0x1d, 0x9e,
   0xe1, 0xf8, 0x98, 0x11, 0x69, 0xd9, 0x8e, 0x94, 0x9b, 0x1e, 0x87, 0xe9, 0xce, 0x55, 0x28, 0xdf,
   0x8c, 0xa1, 0x89, 0x0d, 0xbf, 0xe6, 0x42, 0x68, 0x41, 0x99, 0x2d, 0x0f, 0xb0, 0x54, 0xbb, 0x16]

def rsbox : List UInt8 :=
  [0x52, 0x09, 0x6a, 0xd5, 0x30, 0x36, 0xa5, 0x38, 0xbf, 0x40, 0xa3, 0x9e, 0x81, 0xf3, 0xd7, 0xfb,
   0x7c, 0xe3, 0x39, 0x82, 0x9b, 0x2f, 0xff, 0x87, 0x34, 0x8e, 0x43, 0x44, 0xc4, 0xde, 0xe9, 0xcb,
   0x54, 0x7b, 0x94, 0x32, 0xa6, 0xc2, 0x23, 0x3d, 0xee, 0x4c, 0x95, 0x0b, 0x42, 0xfa, 0xc3, 0x4e,
   0x08, 0x2e, 0xa1, 0x66, 0x28, 0xd9, 0x24, 0xb2, 0x76, 0x5b, 0xa2, 0x49, 0x6d, 0x8b, 0xd1, 0x25,
   0x72, 0xf8, 0xf6, 0x64, 0x86, 0x68, 0x98, 0x16, 0xd4, 0xa4, 0x5c, 0xcc, 0x5d, 0x65, 0xb6, 0x92,
   0x6c, 0x70, 0x48, 0x50, 0xfd, 0xed, 0xb9, 0xda, 0x5e, 0x15, 0x46, 0x57, 0xa7, 0x8d, 0x9d, 0x84,
   0x90, 0xd8, 0xab, 0x00, 0x8c, 0xbc, 0xd3, 0x0a, 0xf7, 0xe4, 0x58, 0x05, 0xb8, 0xb3, 0x45, 0x06,
   0xd0, 0x2c, 0x1e, 0x8f, 0xca, 0x3f, 0x0f, 0x02, 0xc1, 0xaf, 0xbd, 0x03, 0x01, 0x13, 0x8a, 0x6b,
   0x3a, 0x91, 0x11, 0x41, 0x4f, 0x67, 0xdc, 0xea, 0x97, 0xf2, 0xcf, 0xce, 0xf0, 0xb4, 0xe6, 0x73,
   0x96, 0xac, 0x74, 0x22, 0xe7, 0xad, 0x35, 0x85, 0xe2, 0xf9, 0x37, 0xe8, 0x1c, 0x75, 0xdf, 0x6e,
   0x47, 0xf1, 0x1a, 0x71, 0x1d, 0x29, 0xc5, 0x89, 0x6f, 0xb7, 0x62, 0x0e, 0xaa, 0x18, 0xbe, 0x1b,
   0xfc, 0x56, 0x3e, 0x4b, 0xc6, 0xd2, 0x79, 0x20, 0x9a, 0xdb, 0xc0, 0xfe, 0x78, 0xcd, 0x5a, 0xf4,
   0x1f, 0xdd, 0xa8, 0x33, 0x88, 0x07, 0xc7, 0x31, 0xb1, 0x12, 0x10, 0x59, 0x27, 0x80, 0xec, 0x5f,
   0x60, 0x51, 0x7f, 0xa9, 0x19, 0xb5, 0x4a, 0x0d, 0x2d, 0xe5, 0x7a, 0x9f, 0x93, 0xc9, 0x9c, 0xef,
   0xa0, 0xe0, 0x3b, 0x4d, 0xae, 0x2a, 0xf5, 0xb0, 0xc8, 0xeb, 0xbb, 0x3c, 0x83, 0x53, 0x99, 0x61,
   0x17, 0x2b, 0x04, 0x7e, 0xba, 0x77, 0xd6, 0x26, 0xe1, 0x69, 0x14, 0x63, 0x55, 0x21, 0x0c, 0x7d]

def rcon : List UInt8 := [0x8d, 0x01, 0x02, 0x04, 0x08, 0x10, 0x20, 0x40, 0x80, 0x1b, 0x36]

/-- `sbox[x]`. -/
def sub (x : UInt8) : UInt8 := sbox.getD x.toNat 0

/-- `rsbox[x]`. -/
def invSub (x : UInt8) : UInt8 := rsbox.getD x.toNat 0

/-! ## Keys -/

abbrev Key := { key : List UInt8 // key.length = 32 }

/-- The word that round `i` of the expansion mixes in, made from the four bytes before. -/
def keyWord (i : Nat) (ta : List UInt8) : List UInt8 :=
  if i % 8 = 0 then
    -- rotated by one byte
    match (ta.rotateLeft 1).map sub with
    | t :: ts => (t ^^^ rcon.getD (i / 8) 0) :: ts
    | [] => []
  else if i % 8 = 4 then ta.map sub
  else ta

/-- Round `i`: four bytes are added to the round keys. -/
def keyStep (rk : List UInt8) (i : Nat) : List UInt8 :=
  rk ++ List.zipWith (· ^^^ ·) ((rk.drop ((i - 8) * 4)).take 4) (keyWord i ((rk.drop ((i - 1) * 4)).take 4))

/-- The 240 bytes of the round keys. -/
def aesKeyExpansion (key : Key) : List UInt8 := (List.range' 8 52).foldl keyStep key.val

/-! ## Encryption -/

def roundKey (rk : List UInt8) (round : Nat) (i : Fin 16) : UInt8 := rk.getD (round * 16 + i) 0

def aesAddRoundKey (round : Nat) (st : Block) (rk : List UInt8) : Block :=
  .ofFn (fun i => st.byte i ^^^ roundKey rk round i)

def aesSubBytes (st : Block) : Block := .ofFn (fun i => sub (st.byte i))

def aesShiftRows (st : Block) : Block :=
  let t := st.byte 1
  let st := st.set 1 (st.byte 5)
  let st := st.set 5 (st.byte 9)
  let st := st.set 9 (st.byte 13)
  let st := st.set 13 t
  let t := st.byte 2
  let st := st.set 2 (st.byte 10)
  let st := st.set 10 t
  let t := st.byte 6
  let st := st.set 6 (st.byte 14)
  let st := st.set 14 t
  let t := st.byte 3
  let st := st.set 3 (st.byte 15)
  let st := st.set 15 (st.byte 11)
  let st := st.set 11 (st.byte 7)
  st.set 7 t

def aesXt (x : UInt8) : UInt8 := (x <<< 1) ^^^ ((x >>> 7) &&& 1) * 0x1b

def mixColumn (st : Block) : Block :=
  let t := st.byte 0
  let tmp := st.byte 0 ^^^ st.byte 1 ^^^ st.byte 2 ^^^ st.byte 3
  let st := st.set 0 (st.byte 0 ^^^ (aesXt (st.byte 0 ^^^ st.byte 1) ^^^ tmp))
  let st := st.set 1 (st.byte 1 ^^^ (aesXt (st.byte 1 ^^^ st.byte 2) ^^^ tmp))
  let st := st.set 2 (st.byte 2 ^^^ (aesXt (st.byte 2 ^^^ st.byte 3) ^^^ tmp))
  st.set 3 (st.byte 3 ^^^ (aesXt (st.byte 3 ^^^ t) ^^^ tmp))

def aesMixColumns (st : Block) : Block := mixColumn (mixColumn (mixColumn (mixColumn st)))

/-- The state after `r` rounds with mixing. -/
def aesRounds (rk : List UInt8) (st : Block) : Nat → Block
  | 0 => aesAddRoundKey 0 st rk
  | r + 1 => aesAddRoundKey (r + 1) (aesMixColumns (aesShiftRows (aesSubBytes (aesRounds rk st r)))) rk

def aesCipher (rk : List UInt8) (st : Block) : Block :=
  aesAddRoundKey 14 (aesShiftRows (aesSubBytes (aesRounds rk st 13))) rk

/-! ## Decryption -/

def aesInvSubBytes (st : Block) : Block := .ofFn (fun i => invSub (st.byte i))

def aesInvShiftRows (st : Block) : Block :=
  let t := st.byte 13
  let st := st.set 13 (st.byte 9)
  let st := st.set 9 (st.byte 5)
  let st := st.set 5 (st.byte 1)
  let st := st.set 1 t
  let t := st.byte 2
  let st := st.set 2 (st.byte 10)
  let st := st.set 10 t
  let t := st.byte 6
  let st := st.set 6 (st.byte 14)
  let st := st.set 14 t
  let t := st.byte 3
  let st := st.set 3 (st.byte 7)
  let st := st.set 7 (st.byte 11)
  let st := st.set 11 (st.byte 15)
  st.set 15 t

/-- `z<<1^z>>7`. -/
def rot1 (z : UInt8) : UInt8 := (z <<< 1) ^^^ (z >>> 7)

/-- `z<<1^z>>7^z<<2^z>>6`. -/
def rot12 (z : UInt8) : UInt8 := (z <<< 1) ^^^ (z >>> 7) ^^^ (z <<< 2) ^^^ (z >>> 6)

def invMixColumn (st : Block) : Block :=
  let a := st.byte 0
  let b := st.byte 1
  let c := st.byte 2
  let d := st.byte 3
  let st := st.set 0 (rot1 a ^^^ rot12 b ^^^ rot1 c ^^^ d)
  let st := st.set 1 (a ^^^ rot1 b ^^^ rot12 c ^^^ rot1 d)
  let st := st.set 2 (rot1 a ^^^ b ^^^ rot1 c ^^^ rot12 d)
  st.set 3 (rot12 a ^^^ rot1 b ^^^ c ^^^ rot1 d)

def aesInvMixColumns (st : Block) : Block := invMixColumn (invMixColumn (invMixColumn (invMixColumn st)))

/-- The loop from round `r` down to round 0. -/
def aesInvRounds (rk : List UInt8) : Nat → Block → Block
  | 0, st => aesAddRoundKey 0 (aesInvSubBytes (aesInvShiftRows st)) rk
  | r + 1, st =>
    aesInvRounds rk r (aesInvMixColumns (aesAddRoundKey (r + 1) (aesInvSubBytes (aesInvShiftRows st)) rk))

def aesInvCipher (rk : List UInt8) (st : Block) : Block := aesInvRounds rk 13 (aesAddRoundKey 14 st rk)

/-! ## Contexts and CBC -/

/-- `AES_CTX`. -/
structure AesCtx where
  roundKeys : List UInt8
  iv : Block

def aesInitCtxIv (key : Key) (iv : Block) : AesCtx := ⟨aesKeyExpansion key, iv⟩

/-- The loop of `aes_cbc_encrypt`: the blocks afterwards, and the block that `iv` points to. -/
def aesCbcEncryptLoop (rk : List UInt8) : Block → List Block → List Block × Block
  | iv, [] => ([], iv)
  | iv, b :: bs =>
    let c := aesCipher rk (aesXorIv b iv)
    let (cs, last) := aesCbcEncryptLoop rk c bs
    (c :: cs, last)

/-- `aes_cbc_encrypt` on a buffer of whole blocks: the context and the buffer afterwards. -/
def aesCbcEncrypt (ctx : AesCtx) (buf : List UInt8) : AesCtx × List UInt8 :=
  let (cs, last) := aesCbcEncryptLoop ctx.roundKeys ctx.iv (toBlocks (buf.length / 16) buf)
  ({ ctx with iv := last }, ofBlocks cs)

/-- The loop of `aes_cbc_decrypt`; `siv` is the block before it is overwritten. -/
def aesCbcDecryptLoop (rk : List UInt8) : Block → List Block → List Block × Block
  | iv, [] => ([], iv)
  | iv, siv :: cs =>
    let p := aesXorIv (aesInvCipher rk siv) iv
    let (ps, last) := aesCbcDecryptLoop rk siv cs
    (p :: ps, last)

/-- `aes_cbc_decrypt` on a buffer of whole blocks. -/
def aesCbcDecrypt (ctx : AesCtx) (buf : List UInt8) : AesCtx × List UInt8 :=
  let (ps, last) := aesCbcDecryptLoop ctx.roundKeys ctx.iv (toBlocks (buf.length / 16) buf)
  ({ ctx with iv := last }, ofBlocks ps)

end Aes
end PigOS.Crypto
