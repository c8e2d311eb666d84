import PigOS.Lib.ModArith

/-!
# `Crypto.Bignum` — the big integers of `crypto/bignum.h`

A `BN` is an array of 64-bit words, least significant first, and the number `n` of words that count.
What lies above them is whatever was there before. The loops that convert between byte strings and
words take the bytes of one word most significant first, and the words least significant first.
-/

namespace PigOS.Crypto

open ModArith List

/-- The base of the words. -/
def wordBase : Nat := 2 ^ 64

structure BN where
  /-- the array; only the indices below 64 exist -/
  w : Nat → UInt64
  n : Nat

def BN.words (a : BN) : List Nat := (range a.n).map (fun i => (a.w i).toNat)

/-- The number that a `BN` stands for. -/
def BN.val (a : BN) : Nat := Nat.ofDigits wordBase a.words

/-- The number of words of a number in normal form: at least one, and no leading zero. -/
def wordCount (v : Nat) : Nat := Nat.log wordBase v + 1

/-- Store a number in normal form over the old contents. -/
def BN.store (old : BN) (v : Nat) : BN where
  w := fun i => if i < wordCount v then UInt64.ofNat (v / wordBase ^ i % wordBase) else old.w i
  n := wordCount v

/-! ## Exponentiation -/

def bnOne : BN := ⟨fun i => if i = 0 then 1 else 0, 1⟩

def bnIsZero (a : BN) : Bool := a.n = 1 && a.w 0 = 0

/-- `while(n>1&&w[n-1]==0)n--`. -/
def trimWords (w : Nat → UInt64) : Nat → Nat
  | n + 2 => if w (n + 1) = 0 then trimWords w (n + 1) else n + 2
  | n => n

/-- The exponent of at least one word shifted right by one bit. -/
def bnShr (e : BN) : BN :=
  let w := fun i =>
    if i + 1 < e.n then (e.w i >>> 1) ||| (e.w (i + 1) <<< 63)
    else if i + 1 = e.n then e.w i >>> 1
    else e.w i
  ⟨w, trimWords w e.n⟩

/-- The loop of `bn_powmod`. `bn_mulmod` is a parameter; it gives `none` where it leaves an
array. -/
def bnPowmodLoop (mulmod : BN → BN → BN → Option BN) (m : BN) : Nat → BN → BN → BN → Option BN
  | 0, _, _, _ => none
  | rounds + 1, res, b, e =>
    if bnIsZero e then some res
    -- `e.w[e.n-1]>>=1` writes `e.w[-1]`
    else if e.n = 0 then none
    else
      match if (e.w 0).toNat % 2 = 1 then mulmod res b m else some res, mulmod b b m with
      | some res, some b => bnPowmodLoop mulmod m rounds res b (bnShr e)
      | _, _ => none

/-- `bn_copy`. -/
def BN.copy (old a : BN) : BN := ⟨fun i => if i < a.n then a.w i else old.w i, a.n⟩

/-- `bn_powmod(r,base,exp,m)`; the first `BN` is what `*r` held. A round shifts one bit out of
`exp`. -/
def bnPowmod (mulmod : BN → BN → BN → Option BN) (r base exp m : BN) : Option BN :=
  (bnPowmodLoop mulmod m (64 * exp.n + 1) bnOne base exp).map r.copy

lemma bnPowmod_no_words (mulmod : BN → BN → BN → Option BN) (r base m : BN) {e : BN} (he : e.n = 0) :
    bnPowmod mulmod r base e m = none := by
  have hzero : bnIsZero e = false := by
    unfold bnIsZero
    rw [he]
    rfl
  rw [bnPowmod, bnPowmodLoop, hzero, if_neg Bool.false_ne_true, if_pos he]
  rfl

/-! ## Bytes and words -/

/-- The eight bytes that go into word `i`, in their order. -/
def wordBytes (b : List UInt8) (i : Nat) : List Nat := (range 8).map (fun j => (b.getD (i * 8 + j) 0).toNat)

/-- `w[i]|=(uint64_t)b[i*8+j]<<(56-j*8)` for `j` from 0 to 7: most significant byte first. -/
def packWord (b : List UInt8) (i : Nat) : UInt64 := UInt64.ofNat (Nat.ofDigits 256 (wordBytes b i).reverse)

/-- `(uint8_t)(x>>(56-j*8))`. -/
def wordByte (x : UInt64) (j : Nat) : UInt8 := UInt8.ofNat (x.toNat / 2 ^ (56 - j * 8))

/-- The conversion loop for 256 bytes: 32 words. -/
def bytesToBN (b : List UInt8) : BN where
  w := fun i => if i < 32 then packWord b i else 0
  n := 32

/-! ## Values and digits -/

lemma wordBase_pos : 0 < wordBase := by decide

lemma BN.words_lt (a : BN) : ∀ d ∈ a.words, d < wordBase := by
  intro d hd
  obtain ⟨i, -, rfl⟩ := mem_map.mp hd
  exact (a.w i).toNat_lt

lemma BN.val_digit (a : BN) (i : Nat) : a.val / wordBase ^ i % wordBase = if i < a.n then (a.w i).toNat else 0 := by
  rw [BN.val, digit_ofDigits wordBase_pos a.words_lt, getD_eq_getElem?_getD, BN.words, getElem?_map]
  split
  · rename_i hi
    rw [getElem?_range hi]
    rfl
  · rename_i hi
    rw [getElem?_eq_none (by rw [length_range]; exact Nat.le_of_not_lt hi)]
    rfl

lemma BN.val_lt (a : BN) : a.val < wordBase ^ a.n := by
  have h := Nat.ofDigits_lt_base_pow_length (b := wordBase) (by decide) a.words_lt
  rwa [BN.words, length_map, length_range] at h

lemma BN.val_eq_of_words {a : BN} {k v : Nat} (hn : a.n = k) (hv : v < wordBase ^ k)
    (h : ∀ i < k, (a.w i).toNat = v / wordBase ^ i % wordBase) : a.val = v := by
  rw [BN.val, BN.words, hn, map_congr_left (fun i hi => h i (mem_range.mp hi))]
  exact ofDigits_digits_range wordBase_pos hv

lemma BN.val_store (old : BN) (v : Nat) : (old.store v).val = v := by
  refine BN.val_eq_of_words rfl (Nat.lt_pow_succ_log_self (by decide) v) (fun i hi => ?_)
  show (if i < wordCount v then UInt64.ofNat (v / wordBase ^ i % wordBase) else old.w i).toNat = _
  rw [if_pos (show i < wordCount v from hi), UInt64.toNat_ofNat']
  exact Nat.mod_mod _ _

lemma wordBytes_lt (b : List UInt8) (i : Nat) : ∀ d ∈ (wordBytes b i).reverse, d < 256 := by
  intro d hd
  obtain ⟨j, -, rfl⟩ := mem_map.mp (mem_reverse.mp hd)
  exact (b.getD (i * 8 + j) 0).toNat_lt

lemma packWord_toNat (b : List UInt8) (i : Nat) : (packWord b i).toNat = Nat.ofDigits 256 (wordBytes b i).reverse := by
  have hlen : (wordBytes b i).length = 8 := rfl
  have hlt := Nat.ofDigits_lt_base_pow_length (by decide) (wordBytes_lt b i)
  rw [length_reverse, hlen, show 256 ^ 8 = 2 ^ 64 by norm_num] at hlt
  rw [packWord, UInt64.toNat_ofNat']
  exact Nat.mod_eq_of_lt hlt

lemma shift_eq {j : Nat} (hj : j < 8) : 2 ^ (56 - j * 8) = 256 ^ (7 - j) := by
  have hexp : 56 - j * 8 = 8 * (7 - j) := by omega
  rw [hexp, Nat.pow_mul]

lemma wordByte_packWord (b : List UInt8) (i : Nat) {j : Nat} (hj : j < 8) :
    wordByte (packWord b i) j = b.getD (i * 8 + j) 0 := by
  have hdigit := digit_ofDigits (by decide) (wordBytes_lt b i) (7 - j)
  have hget : (wordBytes b i).reverse.getD (7 - j) 0 = (b.getD (i * 8 + j) 0).toNat := by
    have hlen : (wordBytes b i).length = 8 := rfl
    have hindex : (wordBytes b i).length - 1 - (7 - j) = j := by omega
    rw [getD_eq_getElem?_getD, getElem?_reverse (by omega), hindex, wordBytes, getElem?_map,
      getElem?_range hj]
    rfl
  apply UInt8.toNat_inj.mp
  rw [wordByte, packWord_toNat, UInt8.toNat_ofNat', shift_eq hj]
  exact hdigit.trans hget

lemma packWord_of_bytes {b : List UInt8} {i : Nat} {x : UInt64} (h : ∀ j < 8, b.getD (i * 8 + j) 0 = wordByte x j) :
    packWord b i = x := by
  have hbytes : (wordBytes b i).reverse = (range 8).map (fun k => x.toNat / 256 ^ k % 256) := by
    have hrev : (wordBytes b i).reverse = (range 8).map (fun k => (b.getD (i * 8 + (7 - k)) 0).toNat) := rfl
    rw [hrev]
    refine map_congr_left (fun k hk => ?_)
    have hk8 : k < 8 := mem_range.mp hk
    have hsub : 7 - (7 - k) = k := by omega
    rw [h _ (by omega), wordByte, shift_eq (by omega), hsub, UInt8.toNat_ofNat']
  have hx : x.toNat < 256 ^ 8 := by
    rw [show 256 ^ 8 = 2 ^ 64 by norm_num]
    exact x.toNat_lt
  apply UInt64.toNat_inj.mp
  rw [packWord_toNat, hbytes]
  exact ofDigits_digits_range (by decide) hx

lemma packWord_congr {b b' : List UInt8} {i : Nat} (h : ∀ j < 8, b.getD (i * 8 + j) 0 = b'.getD (i * 8 + j) 0) :
    packWord b i = packWord b' i :=
  packWord_of_bytes (fun j hj => (h j hj).trans (wordByte_packWord b' i hj).symm)

end PigOS.Crypto
