import PigOS.Crypto.TlsConnect
import PigOS.Lib.Reversal

/-!
# `Crypto.Correctness.ByteOrder` — which number do the conversion loops make of a byte string?

PKCS#1 reads a byte string with its first byte on top. The loops put the first byte on top of a
word, but the first word at the bottom of the number, and bytes that do not fill a word into the
upper part of it. For a multiple of 8 bytes the readings agree on palindromes of groups, and for any
other length only on zeros (`Reversal.eq_of_back`).
-/

namespace PigOS.Crypto

open ModArith List

variable {b : List UInt8}

/-- The number that a byte string denotes: `b[0] * 256^(len-1) + … + b[len-1]`. -/
def bigEndian : List UInt8 → Nat
  | [] => 0
  | x :: b => x.toNat * 256 ^ b.length + bigEndian b

lemma bigEndian_eq (b : List UInt8) : bigEndian b = Nat.ofDigits 256 (b.map UInt8.toNat).reverse := by
  induction b with
  | nil => rfl
  | cons x b ih =>
    rw [bigEndian, ih, map_cons, reverse_cons, Nat.ofDigits_append, length_reverse, length_map,
      Nat.ofDigits_singleton, mul_comm, add_comm]

lemma bytes_lt (b : List UInt8) : ∀ d ∈ (b.map UInt8.toNat).reverse, d < 256 := by
  intro d hd
  obtain ⟨x, -, rfl⟩ := mem_map.mp (mem_reverse.mp hd)
  exact x.toNat_lt

lemma bigEndian_lt (b : List UInt8) : bigEndian b < 256 ^ b.length := by
  have h := Nat.ofDigits_lt_base_pow_length (by decide) (bytes_lt b)
  rwa [length_reverse, length_map, ← bigEndian_eq] at h

lemma bigEndian_digit (b : List UInt8) (k : Nat) :
    bigEndian b / 256 ^ k % 256 = (if k < b.length then b.getD (b.length - 1 - k) 0 else 0).toNat := by
  rw [bigEndian_eq, digit_ofDigits (by decide) (bytes_lt b), getD_eq_getElem?_getD]
  split
  · next hk =>
    have hlen : b.length - 1 - k < b.length := by omega
    rw [getElem?_reverse (by rwa [length_map]), length_map, getElem?_map, getElem?_eq_getElem hlen,
      getD_eq_getElem _ _ hlen]
    rfl
  · next hk =>
    rw [getElem?_eq_none (by rw [length_reverse, length_map]; omega)]
    rfl

lemma BN.val_byte (a : BN) {i j : Nat} (hi : i < a.n) (hj : j < 8) :
    a.val / 256 ^ (8 * i + j) % 256 = (wordByte (a.w i) (7 - j)).toNat := by
  have hbase : wordBase = 256 ^ j * 256 ^ (8 - j) := by
    rw [← pow_add, Nat.add_sub_cancel' (Nat.le_of_lt hj)]
    rfl
  have hword : (a.w i).toNat / 256 ^ j % 256 = a.val / wordBase ^ i / 256 ^ j % 256 := by
    have hdigit := a.val_digit i
    rw [if_pos hi] at hdigit
    rw [← hdigit, hbase, Nat.mod_mul_right_div_self, ← hbase, Nat.mod_mod_of_dvd _ (dvd_pow_self 256 (by omega))]
  rw [wordByte, UInt8.toNat_ofNat', shift_eq (by omega), Nat.sub_sub_self (by omega)]
  refine Eq.trans ?_ hword.symm
  rw [pow_add, pow_mul, Nat.div_div_eq_div_mul]
  rfl

/-- The byte of the words in place `k`, from the bottom, is byte `7 - k % 8` of its group. -/
def Agrees (b : List UInt8) : Prop :=
  ∀ k < 8 * ((b.length + 7) / 8),
    b.getD (k / 8 * 8 + (7 - k % 8)) 0 = if k < b.length then b.getD (b.length - 1 - k) 0 else 0

/-- **The two readings, byte by byte.** -/
theorem val_eq_bigEndian_iff {a : BN} (hn : a.n = (b.length + 7) / 8)
    (hw : ∀ i < a.n, a.w i = packWord b i) : a.val = bigEndian b ↔ Agrees b := by
  have hlt : a.val < 256 ^ (8 * a.n) := by
    rw [pow_mul]
    exact a.val_lt
  have hlt' : bigEndian b < 256 ^ (8 * a.n) :=
    Nat.lt_of_lt_of_le (bigEndian_lt b) (Nat.pow_le_pow_right (by decide) (by omega))
  rw [eq_iff_digits (by decide) hlt hlt', Agrees, hn]
  refine forall₂_congr (fun k hk => ?_)
  have hbyte := a.val_byte (show k / 8 < a.n by omega) (Nat.mod_lt k (by decide : 0 < 8))
  rw [Nat.div_add_mod, hw _ (by omega), wordByte_packWord b _ (by omega)] at hbyte
  rw [hbyte, bigEndian_digit, UInt8.toNat_inj]

/-! ## When the readings agree -/

/-- The string is all zeros, or consists of groups of 8 that read the same from the last to the
first. -/
def ReadsSame (b : List UInt8) : Prop :=
  (∀ x ∈ b, x = 0) ∨ 8 ∣ b.length ∧ ∀ i < b.length, b.getD i 0 = b.getD (b.length - 8 - i / 8 * 8 + i % 8) 0

lemma getD_zero (h : ∀ x ∈ b, x = 0) (i : Nat) : b.getD i 0 = 0 := by
  by_cases hi : i < b.length
  · rw [getD_eq_getElem _ _ hi]
    exact h _ (getElem_mem hi)
  · exact getD_eq_default _ _ (Nat.le_of_not_lt hi)

lemma agrees_of_zero (h : ∀ x ∈ b, x = 0) : Agrees b := by
  intro k _
  rw [getD_zero h, getD_zero h, ite_self]

lemma agrees_iff_of_dvd (hdvd : 8 ∣ b.length) :
    Agrees b ↔ ∀ i < b.length, b.getD i 0 = b.getD (b.length - 8 - i / 8 * 8 + i % 8) 0 := by
  have hlen : 8 * ((b.length + 7) / 8) = b.length := by omega
  rw [Agrees, hlen]
  -- from the bottom of a group, or from its top
  constructor
  · intro h i hi
    have hk := h (i / 8 * 8 + (7 - i % 8)) (by omega)
    rw [if_pos (by omega)] at hk
    convert hk using 2 <;> omega
  · intro h k hk
    have hi := h (k / 8 * 8 + (7 - k % 8)) (by omega)
    rw [if_pos hk]
    convert hi using 2
    omega

/-- The byte in place `j` of group `i`; there are zeros around the string. -/
def byteAt (b : List UInt8) (x : Int × Fin 8) : UInt8 := if 0 ≤ x.1 then b.getD (8 * x.1.toNat + x.2) 0 else 0

lemma toNat_sub (j s : Fin 8) : (j - s).val = if s ≤ j then j.val - s.val else j.val + 8 - s.val := by
  revert j s
  decide

lemma byteAt_back (h : Agrees b) {s : Fin 8} (hs : b.length + s = 8 * ((b.length + 7) / 8))
    {x : Int × Fin 8} (hx : 0 ≤ x.1 ∧ x.1 < ((b.length + 7) / 8 : Nat)) :
    byteAt b x = byteAt b (Reversal.back ((b.length + 7) / 8 : Nat) s x) := by
  obtain ⟨i, j⟩ := x
  obtain ⟨i, rfl⟩ := Int.eq_ofNat_of_zero_le hx.1
  have hk := h (8 * i + (7 - j)) (by omega)
  have hleft : byteAt b ((i : Int), j) = b.getD ((8 * i + (7 - j)) / 8 * 8 + (7 - (8 * i + (7 - j)) % 8)) 0 := by
    rw [byteAt, if_pos hx.1, Int.toNat_natCast]
    congr 1
    dsimp only
    omega
  rw [hleft, hk, byteAt, Reversal.back, Reversal.borrow, toNat_sub]
  dsimp only
  by_cases hle : s ≤ j
  · rw [if_pos hle, if_pos hle, if_pos (by omega), if_pos (by omega)]
    congr 1
    omega
  · rw [if_neg hle, if_neg hle]
    by_cases hlast : i + 1 = (b.length + 7) / 8
    · rw [if_neg (by omega), if_neg (by omega)]
    · rw [if_pos (by omega), if_pos (by omega)]
      congr 1
      omega

lemma zero_of_agrees (h : Agrees b) (hdvd : ¬8 ∣ b.length) : ∀ x ∈ b, x = 0 := by
  have hlt : 8 * ((b.length + 7) / 8) - b.length < 8 := by omega
  obtain ⟨s, hs⟩ : ∃ s : Fin 8, s.val = 8 * ((b.length + 7) / 8) - b.length := ⟨⟨_, hlt⟩, rfl⟩
  have hne : s ≠ 0 := by
    intro hzero
    rw [hzero] at hs
    have : (0 : Fin 8).val = 0 := rfl
    omega
  have hout : ∀ x : Int × Fin 8, ¬(0 ≤ x.1 ∧ x.1 < ((b.length + 7) / 8 : Nat)) → byteAt b x = 0 := by
    intro x hx
    rw [byteAt]
    split
    · exact getD_eq_default _ _ (by omega)
    · rfl
  intro x hx
  obtain ⟨k, hk, rfl⟩ := getElem_of_mem hx
  have hzero := Reversal.eq_of_back hne hout (fun x hx => byteAt_back h (by omega) hx)
    ((k / 8 : Nat), ⟨k % 8, Nat.mod_lt _ (by decide)⟩)
  rw [byteAt, if_pos (Int.natCast_nonneg _), Int.toNat_natCast] at hzero
  rwa [Nat.div_add_mod, getD_eq_getElem _ _ hk] at hzero

lemma agrees_iff (b : List UInt8) : Agrees b ↔ ReadsSame b := by
  constructor
  · intro h
    by_cases hdvd : 8 ∣ b.length
    · exact .inr ⟨hdvd, (agrees_iff_of_dvd hdvd).mp h⟩
    · exact .inl (zero_of_agrees h hdvd)
  · rintro (hzero | ⟨hdvd, h⟩)
    · exact agrees_of_zero hzero
    · exact (agrees_iff_of_dvd hdvd).mpr h

/-- **The conversion loops** of `tls_connect`, for the first bytes of an array, and of `rsa.h`, for
the 256 bytes of a block. -/
theorem bytes_bigEndian_iff (b : List UInt8) :
    (∀ rest, (bytesToWords (b ++ rest) b.length).val = bigEndian b ↔ ReadsSame b) ∧
      (b.length = 256 → ((bytesToBN b).val = bigEndian b ↔ ReadsSame b)) := by
  constructor
  · intro rest
    rw [← agrees_iff]
    refine val_eq_bigEndian_iff rfl (fun i _ => ?_)
    show packWord ((b ++ rest).take b.length) i = packWord b i
    rw [take_left]
  · intro hlen
    rw [← agrees_iff]
    exact val_eq_bigEndian_iff (by rw [hlen]; rfl) (fun i hi => if_pos hi)

/-- A block of equal bytes. -/
theorem bytes_bigEndian_ones : (bytesToBN (replicate 256 1)).val = bigEndian (replicate 256 1) := by
  refine ((bytes_bigEndian_iff (replicate 256 1)).2 (length_replicate ..)).mpr (.inr ⟨?_, fun i hi => ?_⟩)
  · rw [length_replicate]
    decide
  · rw [length_replicate] at hi ⊢
    rw [getD_replicate _ hi, getD_replicate _ (by omega)]

/-- The exponent 65537: the words hold `0x0100010000000000`. -/
theorem bytesToWords_exponent : (bytesToWords [1, 0, 1] 3).val = 2 ^ 56 + 2 ^ 40 ∧ bigEndian [1, 0, 1] = 65537 :=
  ⟨rfl, rfl⟩

end PigOS.Crypto
