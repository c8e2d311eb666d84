import Mathlib.Data.List.GetD
import PigOS.Crypto.Aes
import PigOS.Crypto.Correctness.TlsRoundTrip
import PigOS.Lib.ModArith

/-!
# `Crypto.Correctness.Aes` — does AES-CBC decryption invert encryption?

The matrix of `aes_mix_columns` has order four, so that encryption does not mix at all
(`aesMixColumns_eq`). The fourth power of the one of `aes_inv_mix_columns` swaps the nibbles of the
four bytes (`byte_aesInvMixColumns`).

So sixteen bytes go through the rounds one by one, each along its own lane, and on the way back a
lane meets a nibble swap wherever `aes_shift_rows` had brought it into the first column. The cipher
is inverted exactly when in each lane the swaps cancel (`aesInvCipher_aesCipher`).
-/

namespace PigOS.Crypto

open List
open UInt8 (xor_assoc xor_zero)

/-! ## Bytes of a block -/

namespace Block

lemma byte_eq_getElem (b : Block) {i : Nat} (hi : i < b.val.length) : b.val[i] = b.byte ⟨i, b.property ▸ hi⟩ :=
  (getD_eq_getElem _ 0 hi).symm

lemma ext_byte {a b : Block} (h : ∀ i, a.byte i = b.byte i) : a = b := by
  apply Subtype.ext
  refine ext_getElem (a.property.trans b.property.symm) (fun i ha hb => ?_)
  rw [byte_eq_getElem a ha, byte_eq_getElem b hb, h]

@[simp] lemma byte_ofFn (f : Fin 16 → UInt8) (i : Fin 16) : (ofFn f).byte i = f i := by
  have hi : i.val < (List.ofFn f).length := length_ofFn.symm ▸ i.isLt
  show (List.ofFn f).getD i 0 = f i
  rw [getD_eq_getElem _ _ hi, List.getElem_ofFn]

lemma byte_set (b : Block) (i j : Fin 16) (x : UInt8) : (b.set i x).byte j = if i = j then x else b.byte j := by
  have hj : j.val < (b.val.set i x).length := (b.set i x).property.symm ▸ j.isLt
  show (b.val.set i x).getD j 0 = _
  rw [getD_eq_getElem _ _ hj, getElem_set]
  simp only [Fin.ext_iff]
  split
  · rfl
  · exact byte_eq_getElem b _

end Block

namespace Aes

/-! ## Shifting rows -/

/-- Where `aes_shift_rows` takes a byte from. -/
def shiftFrom (i : Fin 16) : Fin 16 := i + 4 * (i % 4)

/-- Where it takes a byte to. -/
def shiftTo (i : Fin 16) : Fin 16 := i + 12 * (i % 4)

lemma shiftFrom_shiftTo (i : Fin 16) : shiftFrom (shiftTo i) = i := by
  revert i
  decide

lemma byte_aesShiftRows (st : Block) (i : Fin 16) : (aesShiftRows st).byte i = st.byte (shiftFrom i) := by
  unfold aesShiftRows
  simp only [Block.byte_set]
  fin_cases i <;> rfl

lemma byte_aesInvShiftRows (st : Block) (i : Fin 16) : (aesInvShiftRows st).byte i = st.byte (shiftTo i) := by
  unfold aesInvShiftRows
  simp only [Block.byte_set]
  fin_cases i <;> rfl

/-! ## Linear maps of bytes -/

lemma forall_byte {P : UInt8 → Prop} (h : ∀ i : Fin 256, P (UInt8.ofFin i)) (x : UInt8) : P x :=
  UInt8.ofFin_toFin x ▸ h x.toFin

lemma xor_cancel_left (a b : UInt8) : a ^^^ (a ^^^ b) = b := by
  rw [← xor_assoc, UInt8.xor_self, UInt8.zero_xor]

lemma xor_left_comm (a b c : UInt8) : a ^^^ (b ^^^ c) = b ^^^ (a ^^^ c) := by
  rw [← xor_assoc, UInt8.xor_comm a b, xor_assoc]

lemma rot1_xor (a b : UInt8) : rot1 (a ^^^ b) = rot1 a ^^^ rot1 b := by
  unfold rot1
  rw [UInt8.shiftLeft_xor, UInt8.shiftRight_xor]
  simp only [xor_assoc, xor_left_comm]

lemma aesXt_xor (a b : UInt8) : aesXt (a ^^^ b) = aesXt a ^^^ aesXt b := by
  have hbit : ∀ x : UInt8, x >>> 7 = 0 ∨ x >>> 7 = 1 := forall_byte (by decide +kernel)
  have hcarry : ∀ u v : UInt8, u = 0 ∨ u = 1 → v = 0 ∨ v = 1 →
      ((u ^^^ v) &&& 1) * 0x1b = (u &&& 1) * 0x1b ^^^ (v &&& 1) * 0x1b := by
    rintro u v (rfl | rfl) (rfl | rfl) <;> rfl
  unfold aesXt
  rw [UInt8.shiftLeft_xor, UInt8.shiftRight_xor, hcarry _ _ (hbit a) (hbit b)]
  simp only [xor_assoc, xor_left_comm]

lemma rot12_eq (z : UInt8) : rot12 z = rot1 z ^^^ rot1 (rot1 z) := by
  revert z
  exact forall_byte (by decide +kernel)

/-- The two halves of a byte swapped. -/
def swapNibbles (z : UInt8) : UInt8 := (z <<< 4) ||| (z >>> 4)

lemma rot1_four (z : UInt8) : rot1 (rot1 (rot1 (rot1 z))) = swapNibbles z := by
  revert z
  exact forall_byte (by decide +kernel)

lemma swapNibbles_swapNibbles (z : UInt8) : swapNibbles (swapNibbles z) = z := by
  revert z
  exact forall_byte (by decide +kernel)

/-! ## Mixing columns -/

/-- The next byte in the first column, from the last one back to the first. -/
def next (i : Fin 16) : Fin 16 := if i = 3 then 0 else i + 1

variable {i : Fin 16}

lemma next_lt (hi : i < 4) : next i < 4 := by
  revert i
  decide

lemma next_four (hi : i < 4) : next (next (next (next i))) = i := by
  revert i
  decide

def colSum (st : Block) : UInt8 := st.byte 0 ^^^ st.byte 1 ^^^ st.byte 2 ^^^ st.byte 3

/-- A mixed byte from the sum of the column, the byte and the next one. -/
def mixByte (s a b : UInt8) : UInt8 := a ^^^ (aesXt (a ^^^ b) ^^^ s)

lemma byte_mixColumn (st : Block) (i : Fin 16) :
    (mixColumn st).byte i = if i < 4 then mixByte (colSum st) (st.byte i) (st.byte (next i)) else st.byte i := by
  unfold mixColumn
  simp only [Block.byte_set, Fin.reduceEq, if_false]
  fin_cases i <;> simp [mixByte, colSum, next]

lemma colSum_mixColumn (st : Block) : colSum (mixColumn st) = colSum st := by
  unfold colSum
  rw [byte_mixColumn, byte_mixColumn, byte_mixColumn, byte_mixColumn]
  show mixByte _ (st.byte 0) (st.byte 1) ^^^ mixByte _ (st.byte 1) (st.byte 2) ^^^ mixByte _ (st.byte 2) (st.byte 3)
    ^^^ mixByte _ (st.byte 3) (st.byte 0) = _
  unfold mixByte
  simp only [aesXt_xor, xor_assoc, UInt8.xor_comm, xor_left_comm, xor_cancel_left, UInt8.xor_self, UInt8.zero_xor]

lemma mixByte_twice (s a b c : UInt8) : mixByte s (mixByte s a b) (mixByte s b c) = a ^^^ aesXt (aesXt (a ^^^ c)) := by
  unfold mixByte
  simp only [aesXt_xor, xor_assoc, UInt8.xor_comm, xor_left_comm, xor_cancel_left]

lemma byte_mixColumn_twice (st : Block) (hi : i < 4) :
    (mixColumn (mixColumn st)).byte i = st.byte i ^^^ aesXt (aesXt (st.byte i ^^^ st.byte (next (next i)))) := by
  rw [byte_mixColumn, if_pos hi, colSum_mixColumn, byte_mixColumn, if_pos hi, byte_mixColumn, if_pos (next_lt hi),
    mixByte_twice]

lemma mix_cancel (a c : UInt8) : (a ^^^ aesXt (aesXt (a ^^^ c))) ^^^
      aesXt (aesXt ((a ^^^ aesXt (aesXt (a ^^^ c))) ^^^ (c ^^^ aesXt (aesXt (c ^^^ a))))) = a := by
  rw [UInt8.xor_comm c a]
  generalize hw : aesXt (aesXt (a ^^^ c)) = w
  have hsum : (a ^^^ w) ^^^ (c ^^^ w) = a ^^^ c := by
    rw [UInt8.xor_comm c w, xor_assoc, xor_cancel_left]
  rw [hsum, hw, xor_assoc, UInt8.xor_self, xor_zero]

/-- **Encryption does not mix.** -/
theorem aesMixColumns_eq (st : Block) : aesMixColumns st = st := by
  refine Block.ext_byte (fun i => ?_)
  unfold aesMixColumns
  by_cases hi : i < 4
  · have hnn := next_lt (next_lt hi)
    rw [byte_mixColumn_twice _ hi, byte_mixColumn_twice _ hi, byte_mixColumn_twice _ hnn, next_four hi]
    exact mix_cancel _ _
  · simp only [byte_mixColumn, if_neg hi]

/-! ## The inverse of the mixing -/

/-- A byte of the other matrix, from the column read from this byte on. -/
def invByte (a b c d : UInt8) : UInt8 := rot1 a ^^^ rot12 b ^^^ rot1 c ^^^ d

lemma xor_rotate (a b c d : UInt8) : a ^^^ b ^^^ c ^^^ d = b ^^^ c ^^^ d ^^^ a := by
  rw [UInt8.xor_assoc a b, UInt8.xor_assoc a, UInt8.xor_comm a]

lemma byte_invMixColumn (st : Block) (i : Fin 16) : (invMixColumn st).byte i =
      if i < 4 then invByte (st.byte i) (st.byte (next i)) (st.byte (next (next i))) (st.byte (next (next (next i))))
      else st.byte i := by
  unfold invMixColumn
  simp only [Block.byte_set]
  fin_cases i <;> simp [invByte, next]
  · exact xor_rotate _ _ _ _
  · exact (xor_rotate _ _ _ _).trans (xor_rotate _ _ _ _)
  · exact (xor_rotate _ _ _ _).symm

lemma invByte_twice (a b c d : UInt8) : invByte (invByte a b c d) (invByte b c d a)
    (invByte c d a b) (invByte d a b c) =
      c ^^^ rot1 (rot1 c) ^^^ rot1 (rot1 (rot1 (rot1 c))) := by
  unfold invByte
  simp only [rot12_eq, rot1_xor, xor_assoc, UInt8.xor_comm, xor_left_comm, xor_cancel_left]

lemma byte_invMixColumn_twice (st : Block) (hi : i < 4) : (invMixColumn (invMixColumn st)).byte i =
      st.byte (next (next i)) ^^^ rot1 (rot1 (st.byte (next (next i)))) ^^^
        rot1 (rot1 (rot1 (rot1 (st.byte (next (next i)))))) := by
  have h1 := next_lt hi
  have h2 := next_lt h1
  have h3 := next_lt h2
  rw [byte_invMixColumn, if_pos hi, byte_invMixColumn, if_pos hi, byte_invMixColumn, if_pos h1, byte_invMixColumn,
    if_pos h2, byte_invMixColumn, if_pos h3, next_four hi]
  exact invByte_twice _ _ _ _

/-- **Decryption swaps the nibbles of the first column.** -/
theorem byte_aesInvMixColumns (st : Block) (i : Fin 16) :
    (aesInvMixColumns st).byte i = if i < 4 then swapNibbles (st.byte i) else st.byte i := by
  unfold aesInvMixColumns
  by_cases hi : i < 4
  · have hnn := next_lt (next_lt hi)
    have hrot : ∀ z, rot1 (rot1 (rot1 (rot1 (swapNibbles z)))) = z :=
      fun z => (rot1_four _).trans (swapNibbles_swapNibbles z)
    rw [if_pos hi, byte_invMixColumn_twice _ hi, byte_invMixColumn_twice _ hnn, next_four hi]
    simp only [rot1_xor, rot1_four, hrot, xor_assoc, UInt8.xor_comm, xor_left_comm, xor_cancel_left]
    rw [UInt8.xor_self, xor_zero]
  · rw [if_neg hi]
    simp only [byte_invMixColumn, if_neg hi]

/-! ## Substitution -/

/-- A table as one number, whose digits are the entries: an entry is found by arithmetic. -/
def tableNum (t : List UInt8) : Nat := Nat.ofDigits 256 (t.map UInt8.toNat)

/-- The entry at `x`. -/
def entry (num : Nat) (x : UInt8) : UInt8 := UInt8.ofNat (num / 256 ^ x.toNat % 256)

lemma getD_eq_entry (t : List UInt8) (x : UInt8) : t.getD x.toNat 0 = entry (tableNum t) x := by
  have hlt : ∀ d ∈ t.map UInt8.toNat, d < 256 := by
    intro d hd
    obtain ⟨b, -, rfl⟩ := mem_map.mp hd
    exact b.toNat_lt
  have hget : (t.map UInt8.toNat).getD x.toNat 0 = (t.getD x.toNat 0).toNat := getD_map t 0 UInt8.toNat
  rw [entry, tableNum, ModArith.digit_ofDigits (by decide) hlt, hget, UInt8.ofNat_toNat]

lemma sub_eq : sub = entry (tableNum sbox) := funext (getD_eq_entry sbox)

lemma invSub_eq : invSub = entry (tableNum rsbox) := funext (getD_eq_entry rsbox)

lemma invSub_sub (x : UInt8) : invSub (sub x) = x := by
  rw [invSub_eq, sub_eq]
  revert x
  exact forall_byte (by decide +kernel)

/-! ## Lanes -/

/-- Where the byte that begins at `j` is after `r` rounds. -/
def lanePos (j : Fin 16) : Nat → Fin 16
  | 0 => j
  | r + 1 => shiftTo (lanePos j r)

/-- What a byte meets in its first `n` rounds: bytes of the round keys, and whether it is then in
the first column. -/
def lane (rk : List UInt8) (j : Fin 16) (n : Nat) : List (UInt8 × Bool) :=
  (range n).map (fun r => (roundKey rk r (lanePos j r), decide (lanePos j (r + 1) < 4)))

/-- A byte on its way through the rounds of encryption. -/
def up (ks : List (UInt8 × Bool)) (x : UInt8) : UInt8 := ks.foldl (fun v k => sub (v ^^^ k.1)) x

/-- The same rounds backwards, with a nibble swap at each visit to the first column. -/
def down (ks : List (UInt8 × Bool)) (y : UInt8) : UInt8 :=
  ks.foldr (fun k v => invSub (if k.2 then swapNibbles v else v) ^^^ k.1) y

/-- The swaps that a byte meets cancel: what went up comes back. -/
def SwapsCancel (rk : List UInt8) (j : Fin 16) (x : UInt8) : Prop := down (lane rk j 13) (up (lane rk j 13) x) = x

lemma lane_succ (rk : List UInt8) (j : Fin 16) (n : Nat) :
    lane rk j (n + 1) = lane rk j n ++ [(roundKey rk n (lanePos j n), decide (lanePos j (n + 1) < 4))] := by
  rw [lane, range_succ, map_append]
  rfl

lemma byte_aesRounds (rk : List UInt8) (st : Block) (j : Fin 16) (r : Nat) :
    (aesRounds rk st r).byte (lanePos j r) = up (lane rk j r) (st.byte j) ^^^ roundKey rk r (lanePos j r) := by
  induction r with
  | zero => exact Block.byte_ofFn _ _
  | succ r ih =>
    rw [aesRounds, aesMixColumns_eq, aesAddRoundKey, Block.byte_ofFn, byte_aesShiftRows, aesSubBytes, Block.byte_ofFn]
    rw [lanePos, shiftFrom_shiftTo, ih, lane_succ, up, up, foldl_append]
    rfl

lemma byte_aesInvRounds (rk : List UInt8) (j : Fin 16) (r : Nat) (st : Block) : (aesInvRounds rk r st).byte j =
      down (lane rk j r) (invSub (st.byte (lanePos j (r + 1))) ^^^ roundKey rk r (lanePos j r)) := by
  induction r generalizing st with
  | zero =>
    rw [aesInvRounds, aesAddRoundKey, Block.byte_ofFn, aesInvSubBytes, Block.byte_ofFn, byte_aesInvShiftRows]
    rfl
  | succ r ih =>
    rw [aesInvRounds, ih, byte_aesInvMixColumns, aesAddRoundKey, Block.byte_ofFn, aesInvSubBytes, Block.byte_ofFn,
      byte_aesInvShiftRows, lane_succ, down, down, foldr_append]
    show _ = List.foldr _ (invSub (if decide (lanePos j (r + 1) < 4) = true then _ else _) ^^^ _) _
    simp only [decide_eq_true_eq]
    rfl

/-- **What decryption makes of an encrypted block.** -/
theorem byte_aesInvCipher_aesCipher (rk : List UInt8) (st : Block) (j : Fin 16) :
    (aesInvCipher rk (aesCipher rk st)).byte j = down (lane rk j 13) (up (lane rk j 13) (st.byte j)) := by
  rw [aesInvCipher, byte_aesInvRounds, aesCipher, aesAddRoundKey, Block.byte_ofFn, aesAddRoundKey, Block.byte_ofFn,
    byte_aesShiftRows, aesSubBytes, Block.byte_ofFn]
  rw [lanePos, shiftFrom_shiftTo, xor_assoc, UInt8.xor_self, xor_zero, invSub_sub, byte_aesRounds,
    xor_assoc, UInt8.xor_self, xor_zero]

/-- The lanes that stay out of the first column. -/
def freeLanes : List (Fin 16) := [4, 6, 8, 12, 14]

lemma down_up {ks : List (UInt8 × Bool)} (h : ∀ k ∈ ks, k.2 = false) (x : UInt8) : down ks (up ks x) = x := by
  induction ks generalizing x with
  | nil => rfl
  | cons k ks ih =>
    have hk : k.2 = false := h k mem_cons_self
    show invSub (if k.2 then _ else down ks (up ks (sub (x ^^^ k.1)))) ^^^ k.1 = x
    rw [hk, if_neg Bool.false_ne_true, ih (fun k' hk' => h k' (mem_cons_of_mem k hk')), invSub_sub,
      xor_assoc, UInt8.xor_self, xor_zero]

lemma swapsCancel_free (rk : List UInt8) {j : Fin 16} (hj : j ∈ freeLanes) (x : UInt8) : SwapsCancel rk j x := by
  have hout : ∀ j ∈ freeLanes, ∀ r < 13, decide (lanePos j (r + 1) < 4) = false := by decide
  refine down_up (fun k hk => ?_) x
  obtain ⟨r, hr, rfl⟩ := mem_map.mp hk
  exact hout j hj r (mem_range.mp hr)

lemma aesInvCipher_aesCipher (rk : List UInt8) (st : Block) :
    aesInvCipher rk (aesCipher rk st) = st ↔ ∀ j, j ∉ freeLanes → SwapsCancel rk j (st.byte j) := by
  constructor
  · intro h j _
    rw [SwapsCancel, ← byte_aesInvCipher_aesCipher, h]
  · intro h
    refine Block.ext_byte (fun j => (byte_aesInvCipher_aesCipher rk st j).trans ?_)
    by_cases hj : j ∈ freeLanes
    · exact swapsCancel_free rk hj _
    · exact h j hj

/-! ## CBC -/

-- The loops are the two directions of the mode, and leave the last ciphertext block behind.

lemma aesCbcEncryptLoop_eq (rk : List UInt8) (iv : Block) (bs : List Block) : aesCbcEncryptLoop rk iv bs =
      (Cbc.encrypt aesXorIv (aesCipher rk) iv bs, (Cbc.encrypt aesXorIv (aesCipher rk) iv bs).getLastD iv) := by
  induction bs generalizing iv with
  | nil => rfl
  | cons b bs ih =>
    rw [aesCbcEncryptLoop, ih, Cbc.encrypt, getLastD_cons]

lemma aesCbcDecryptLoop_eq (rk : List UInt8) (iv : Block) (cs : List Block) :
    aesCbcDecryptLoop rk iv cs = (Cbc.decrypt aesXorIv (aesInvCipher rk) iv cs, cs.getLastD iv) := by
  induction cs generalizing iv with
  | nil => rfl
  | cons c cs ih =>
    rw [aesCbcDecryptLoop, ih, Cbc.decrypt, getLastD_cons]

/-- The blocks that go into the cipher: each is mixed with the ciphertext before it. -/
def cipherInputs (ctx : AesCtx) (buf : List UInt8) : List Block :=
  Cbc.inputs aesXorIv (aesCipher ctx.roundKeys) ctx.iv (toBlocks (buf.length / 16) buf)

/-- Encryption, and decryption with a context that was equal to the first. -/
lemma aesCbcDecrypt_aesCbcEncrypt (ctx : AesCtx) (buf : List UInt8) : aesCbcDecrypt ctx (aesCbcEncrypt ctx buf).2 =
      ((aesCbcEncrypt ctx buf).1, ofBlocks (Cbc.decrypt aesXorIv (aesInvCipher ctx.roundKeys) ctx.iv
          (Cbc.encrypt aesXorIv (aesCipher ctx.roundKeys) ctx.iv (toBlocks (buf.length / 16) buf)))) := by
  rw [aesCbcEncrypt, aesCbcEncryptLoop_eq]
  generalize Cbc.encrypt aesXorIv (aesCipher ctx.roundKeys) ctx.iv (toBlocks (buf.length / 16) buf) = cs
  rw [aesCbcDecrypt, length_ofBlocks, Nat.mul_div_cancel_left _ (by decide), toBlocks_ofBlocks, aesCbcDecryptLoop_eq]

/-- **The chaining values agree**, whatever the buffer came to. -/
theorem cbc_iv_eq (ctx : AesCtx) (buf : List UInt8) :
    (aesCbcDecrypt ctx (aesCbcEncrypt ctx buf).2).1.iv = (aesCbcEncrypt ctx buf).1.iv := by
  rw [aesCbcDecrypt_aesCbcEncrypt]

lemma cbc_buffer_iff (ctx : AesCtx) {buf : List UInt8} (h : 16 ∣ buf.length) :
    (aesCbcDecrypt ctx (aesCbcEncrypt ctx buf).2).2 = buf ↔
      ∀ x ∈ cipherInputs ctx buf, ∀ j, j ∉ freeLanes → SwapsCancel ctx.roundKeys j (x.byte j) := by
  obtain ⟨hjoin, hcount⟩ := ofBlocks_toBlocks (buf.length / 16) (Nat.mul_div_cancel' h).symm
  have hblocks := @Cbc.decrypt_encrypt_eq_iff _ aesXorIv (aesCipher ctx.roundKeys) (aesInvCipher ctx.roundKeys)
    aesXorIv_aesXorIv ctx.iv (toBlocks (buf.length / 16) buf)
  simp only [aesInvCipher_aesCipher] at hblocks
  rw [aesCbcDecrypt_aesCbcEncrypt, cipherInputs, ← hblocks]
  constructor
  · intro hbuf
    refine ofBlocks_inj (by rw [Cbc.length_decrypt, Cbc.length_encrypt]) ?_
    rw [hjoin]
    exact hbuf
  · intro hsame
    rw [hsame, hjoin]

/-- **CBC decryption inverts encryption exactly when the nibble swaps cancel** in each lane of each
block that goes into the cipher. -/
theorem cbc_restores_iff (key : Key) (iv : Block) {buf : List UInt8} (h : 16 ∣ buf.length) :
    (aesCbcDecrypt (aesInitCtxIv key iv) (aesCbcEncrypt (aesInitCtxIv key iv) buf).2).2 = buf ∧
        (aesCbcDecrypt (aesInitCtxIv key iv) (aesCbcEncrypt (aesInitCtxIv key iv) buf).2).1.iv =
          (aesCbcEncrypt (aesInitCtxIv key iv) buf).1.iv ↔
      ∀ x ∈ cipherInputs (aesInitCtxIv key iv) buf, ∀ j, j ∉ freeLanes →
        SwapsCancel (aesKeyExpansion key) j (x.byte j) := by
  rw [cbc_buffer_iff _ h]
  exact and_iff_left (cbc_iv_eq _ _)

/-! ## Two keys -/

instance (rk : List UInt8) (j : Fin 16) (x : UInt8) : Decidable (SwapsCancel rk j x) :=
  inferInstanceAs (Decidable (_ = _))

/-- A key with one byte that is not zero, and a block on which all swaps cancel. -/
def calmKey : Key := ⟨0x77 :: replicate 31 0, rfl⟩

def calmBlock : Block := ⟨[0x8d, 0x93, 0x3c, 0x7c, 0, 0xdf, 0, 0x57, 0, 0x46, 0x05, 0x25, 0, 0xc3, 0, 0x0b], rfl⟩

/-- Two blocks, which both come to the cipher as `calmBlock`. -/
def calmText : List UInt8 :=
  ofBlocks [calmBlock, aesXorIv calmBlock (aesCipher (aesKeyExpansion calmKey) calmBlock)]

theorem cbc_restores_calm :
    (aesCbcDecrypt (aesInitCtxIv calmKey zeroBlock) (aesCbcEncrypt (aesInitCtxIv calmKey zeroBlock) calmText).2).2
      = calmText := by
  have hcalm : ∀ j, j ∉ freeLanes → SwapsCancel (aesKeyExpansion calmKey) j (calmBlock.byte j) := by
    simp only [SwapsCancel, up, down, sub_eq, invSub_eq]
    decide +kernel
  have hlen : calmText.length = 16 * 2 := length_ofBlocks _
  have hzero : aesXorIv calmBlock zeroBlock = calmBlock := by decide
  refine ((cbc_restores_iff calmKey zeroBlock ⟨2, hlen⟩).mpr ?_).1
  intro x hx
  obtain rfl : x = calmBlock := by
    have hblocks : toBlocks 2 calmText = _ := toBlocks_ofBlocks [calmBlock, _]
    rw [cipherInputs, hlen, Nat.mul_div_cancel_left _ (by decide), hblocks] at hx
    rcases mem_cons.mp hx with hx | hx
    · exact hx.trans hzero
    · rw [mem_singleton.mp hx]
      change aesXorIv (aesXorIv _ _) (aesCipher _ (aesXorIv calmBlock zeroBlock)) = _
      rw [hzero]
      exact aesXorIv_aesXorIv _ _
  exact hcalm

def zeroKey : Key := ⟨0 :: replicate 31 0, rfl⟩

/-- One block of zeros, under a key and an initial value of zeros, does not come back. -/
theorem cbc_loses_zeros :
    (aesCbcDecrypt (aesInitCtxIv zeroKey zeroBlock) (aesCbcEncrypt (aesInitCtxIv zeroKey zeroBlock) zeroBlock.val).2).2
      ≠ zeroBlock.val := by
  have hfirst : ¬ SwapsCancel (aesKeyExpansion zeroKey) 0 ((aesXorIv zeroBlock zeroBlock).byte 0) := by
    simp only [SwapsCancel, up, down, sub_eq, invSub_eq]
    decide +kernel
  intro hback
  exact hfirst ((cbc_buffer_iff _ (by decide)).mp hback _ (mem_singleton.mpr rfl) 0 (by decide))

end Aes
end PigOS.Crypto
