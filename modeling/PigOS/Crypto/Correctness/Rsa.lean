import Mathlib.NumberTheory.Bertrand
import PigOS.Crypto.Rsa

/-!
# `Crypto.Correctness.Rsa` — do decryption and verification invert encryption and signing?

* **Encryption.** What `rsa_pkcs1_decrypt` returns begins with the zero byte of the separator and
  lacks the last byte of the message: only messages of zeros survive.
* **Signatures.** `rsa_verify` wants the byte at index 199 to be both the separator and the first
  byte of the digest information; it never accepts (`rsaVerify_eq_zero`).
-/

namespace PigOS.Crypto

open ModArith List

variable {msg out : List UInt8} {key : RsaKey} {m₀ : BN}

/-! ## The assumptions -/

/-- The equations of an RSA key with a 2048-bit modulus. -/
structure RsaKey.Valid (key : RsaKey) : Prop where
  prime_p : key.p.val.Prime
  prime_q : key.q.val.Prime
  ne : key.p.val ≠ key.q.val
  n_eq : key.n.val = key.p.val * key.q.val
  n_ge : 2 ^ 2047 ≤ key.n.val
  n_lt : key.n.val < 2 ^ 2048
  ed_p : key.e.val * key.d.val ≡ 1 [MOD key.p.val - 1]
  ed_q : key.e.val * key.d.val ≡ 1 [MOD key.q.val - 1]
  dp_eq : key.dp.val = key.d.val % (key.p.val - 1)
  dq_eq : key.dq.val = key.d.val % (key.q.val - 1)
  qinv_eq : key.q.val * key.qinv.val ≡ 1 [MOD key.p.val]

/-- Both operations are exact, in normal form and without touching other words. -/
structure RsaOps.Exact (ops : RsaOps) : Prop where
  powmod_eq : ∀ r b e m : BN, 0 < m.val → ∃ c : BN, ops.powmod r b e m = c ∧
    c.val = b.val ^ e.val % m.val ∧ c.n = wordCount c.val
  crt_eq : ∀ (out c : BN) (key : RsaKey), key.Valid → ∃ m : BN, ops.privateCrt out c key = m ∧
    m.val = c.val ^ key.d.val % key.n.val ∧ ∀ i, m.n ≤ i → m.w i = out.w i

/-- Exact operations exist. -/
def exactOps : RsaOps where
  powmod := fun r b e m => r.store (b.val ^ e.val % m.val)
  privateCrt := fun out c key => out.store (c.val ^ key.d.val % key.n.val)

lemma exactOps_exact : exactOps.Exact where
  powmod_eq := by
    intro r b e m _
    refine ⟨_, rfl, BN.val_store _ _, ?_⟩
    show wordCount (b.val ^ e.val % m.val) = wordCount (r.store (b.val ^ e.val % m.val)).val
    rw [BN.val_store]
  crt_eq := by
    intro out c key _
    refine ⟨_, rfl, BN.val_store _ _, ?_⟩
    intro i hi
    exact if_neg (Nat.not_lt_of_le hi)

/-- The private operation undoes the public one, on values below the modulus. -/
lemma RsaKey.Valid.private_public (hkey : key.Valid) {v : Nat} (hv : v < key.n.val) :
    (v ^ key.e.val % key.n.val) ^ key.d.val % key.n.val = v := by
  have hpow := pow_modEq_self_mul hkey.prime_p hkey.prime_q hkey.ne hkey.ed_p hkey.ed_q v
  rw [← hkey.n_eq] at hpow
  rw [← Nat.pow_mod, ← Nat.pow_mul]
  exact Nat.mod_eq_of_modEq hpow hv

/-! ## Blocks and bytes -/

lemma length_encryptBlock (h : msg.length ≤ 245) : (encryptBlock msg).length = rsaKeyBytes := by
  have h256 : rsaKeyBytes = 256 := rfl
  simp only [encryptBlock, length_cons, length_append, length_map, length_range']
  omega

lemma padByte_ne_zero (i : Nat) : padByte i ≠ 0 := by
  unfold padByte
  simp only
  split
  · decide
  · rename_i hne
    exact hne

lemma bnToBytes_of_words {m : BN} {b : List UInt8} (hb : b.length = rsaKeyBytes)
    (h : ∀ i < 32, m.w i = packWord b i) : bnToBytes m 32 = b := by
  have h256 : rsaKeyBytes = 256 := rfl
  apply ext_getElem
  · rw [bnToBytes, length_map, length_range, hb]
  · intro i h₁ h₂
    have hword : i / 8 < 32 := by omega
    have hindex : i / 8 * 8 + i % 8 = i := by omega
    simp only [bnToBytes, getElem_map, getElem_range, if_pos hword]
    rw [h _ hword, wordByte_packWord b _ (Nat.mod_lt _ (by decide)), hindex, getD_eq_getElem _ _ h₂]

/-- What the end of decryption makes of a block: the message, moved back by one byte. -/
lemma unpad_encryptBlock (hpos : 1 ≤ msg.length) (hlen : msg.length ≤ 245) :
    unpad (encryptBlock msg) = some (0x00 :: msg.dropLast) := by
  have h256 : rsaKeyBytes = 256 := rfl
  -- the padding has no zero, so that the separator is the first one
  have hpad : ∀ b ∈ (List.range' 2 (rsaKeyBytes - msg.length - 3)).map padByte, b ≠ 0 := by
    intro b hb
    obtain ⟨i, -, rfl⟩ := mem_map.mp hb
    exact padByte_ne_zero i
  have hpadlen : ((List.range' 2 (rsaKeyBytes - msg.length - 3)).map padByte).length = 253 - msg.length := by
    rw [length_map, length_range']
    omega
  generalize hps : (List.range' 2 (rsaKeyBytes - msg.length - 3)).map padByte = ps at hpad hpadlen
  have hem : encryptBlock msg = 0x00 :: 0x02 :: (ps ++ 0x00 :: msg) := by rw [encryptBlock, hps]
  have hsep : separator (encryptBlock msg) = 255 - msg.length := by
    obtain ⟨k, hk⟩ : ∃ k, msg.length = k + 1 := Nat.exists_eq_add_of_le' hpos
    have htake : (ps ++ 0x00 :: msg).take (rsaKeyBytes - 3) = ps ++ 0x00 :: msg.take k := by
      have hcut : rsaKeyBytes - 3 - ps.length = k + 1 := by omega
      rw [take_append, take_of_length_le (by omega), hcut, take_succ_cons]
    rw [hem, separator]
    show 2 + (((ps ++ 0x00 :: msg).take (rsaKeyBytes - 3)).takeWhile (· ≠ 0)).length = _
    rw [htake, takeWhile_append_of_pos (fun b hb => decide_eq_true (hpad b hb)),
      takeWhile_cons_of_neg (by decide), append_nil, hpadlen]
    omega
  have hdrop : (encryptBlock msg).drop (255 - msg.length) = 0x00 :: msg := by
    have hcut : 255 - msg.length = ps.length + 2 := by omega
    rw [hem, hcut, drop_succ_cons, drop_succ_cons, drop_left]
  have hlast : rsaKeyBytes - 1 - (255 - msg.length) = msg.length - 1 + 1 := by omega
  have hhead : ¬ ((encryptBlock msg).getD 0 0 ≠ 0x00 ∨ (encryptBlock msg).getD 1 0 ≠ 0x02) := by
    rw [hem]
    simp
  rw [unpad, if_neg hhead]
  simp only [hsep]
  rw [if_neg (by omega), hdrop, hlast, take_succ_cons, dropLast_eq_take]

lemma getElem?_length_takeWhile {α : Type} {p : α → Bool} {l : List α} (h : (l.takeWhile p).length < l.length) :
    ∃ x, l[(l.takeWhile p).length]? = some x ∧ p x = false := by
  induction l with
  | nil => exact absurd h (by simp)
  | cons a l ih =>
    by_cases ha : p a = true
    · rw [takeWhile_cons_of_pos ha] at h ⊢
      exact ih (Nat.lt_of_succ_lt_succ h)
    · rw [takeWhile_cons_of_neg ha]
      exact ⟨a, rfl, Bool.eq_false_iff.mpr ha⟩

/-- Whatever the block is, the first byte that decryption returns is a zero. -/
lemma unpad_head {em : List UInt8} (hem : em.length = rsaKeyBytes) (h : unpad em = some msg) : msg.head? = some 0 := by
  have h256 : rsaKeyBytes = 256 := rfl
  unfold unpad at h
  split at h
  · cases h
  simp only at h
  split at h
  · cases h
  rename_i hps
  cases h
  -- the search stopped at a zero, since it did not reach its bound
  have hlen : ((em.drop 2).take (rsaKeyBytes - 3)).length = 253 := by
    rw [length_take, length_drop]
    omega
  have hscan : (((em.drop 2).take (rsaKeyBytes - 3)).takeWhile (· ≠ 0)).length = separator em - 2 := by
    unfold separator
    omega
  obtain ⟨x, hx, hstop⟩ := getElem?_length_takeWhile (p := (· ≠ 0)) (l := (em.drop 2).take (rsaKeyBytes - 3))
    (by rw [hscan, hlen]; omega)
  have hxzero : x = 0 := by simpa using hstop
  rw [hscan, getElem?_take_of_lt (by omega), getElem?_drop, hxzero] at hx
  have hindex : 2 + (separator em - 2) = separator em := by
    unfold separator
    omega
  rw [hindex] at hx
  rw [head?_take, if_neg (by omega), head?_drop, hx]

/-! ## The round trip -/

/-- Encryption succeeds, and decryption of what it leaves in the buffer returns the message. -/
def RoundTrip (ops : RsaOps) (key : RsaKey) (c₀ m₀ : BN) (out msg : List UInt8) : Prop :=
  ∃ ct, rsaPkcs1EncryptPad ops c₀ out rsaKeyBytes msg key.e key.n = some (ct, rsaKeyBytes) ∧
    rsaPkcs1Decrypt ops m₀ ct key = some msg

/-- The number that the block of a message is taken for. -/
def blockVal (msg : List UInt8) : Nat := (bytesToBN (encryptBlock msg)).val

/-- The words of `v` that encryption does not write, from one eighth of its length on, are in the
buffer already. -/
def BufferHolds (out : List UInt8) (v : Nat) : Prop :=
  ∀ i < 32, (wordCount v + 7) / 8 ≤ i → (packWord out i).toNat = v / wordBase ^ i % wordBase

lemma pow_wordBase_32 : wordBase ^ 32 = 2 ^ 2048 := by
  rw [wordBase, show 2048 = 64 * 32 by decide, Nat.pow_mul]

lemma pow_wordBase_le {k c : Nat} (h : 64 * k ≤ c) : wordBase ^ k ≤ 2 ^ c := by
  rw [wordBase, ← Nat.pow_mul]
  exact Nat.pow_le_pow_right (by decide) h

lemma bytesToBN_word (b : List UInt8) {i : Nat} (hi : i < 32) : (bytesToBN b).w i = packWord b i := if_pos hi

/-- The words of the buffer after encryption, for a ciphertext `c`. -/
lemma packWord_writeWords (hout : out.length = rsaKeyBytes) (c : BN) {i : Nat} (hi : i < 32) :
    packWord (writeWords out rsaKeyBytes c) i = if i < (c.n + 7) / 8 then c.w i else packWord out i := by
  have h256 : rsaKeyBytes = 256 := rfl
  have hbyte : ∀ j < 8, (writeWords out rsaKeyBytes c).getD (i * 8 + j) 0 =
      if i < (c.n + 7) / 8 then wordByte (c.w i) j else out.getD (i * 8 + j) 0 := by
    intro j hj
    have hidx : i * 8 + j < out.length := by omega
    have hdiv : (i * 8 + j) / 8 = i := by omega
    have hmod : (i * 8 + j) % 8 = j := by omega
    rw [getD_eq_getElem?_getD, getD_eq_getElem?_getD, writeWords, getElem?_mapIdx,
      getElem?_eq_getElem hidx]
    simp only [Option.map_some, Option.getD_some, hdiv, hmod]
    by_cases hword : i < (c.n + 7) / 8
    · rw [if_pos hword, if_pos ⟨hword, by omega, by omega⟩]
    · rw [if_neg hword, if_neg (fun h => hword h.1)]
  split
  · rename_i hword
    refine packWord_of_bytes (fun j hj => ?_)
    rw [hbyte j hj, if_pos hword]
  · rename_i hword
    refine packWord_congr (fun j hj => ?_)
    rw [hbyte j hj, if_neg hword]

lemma length_writeWords (out : List UInt8) (outLen : Nat) (c : BN) : (writeWords out outLen c).length = out.length :=
  length_mapIdx

section RoundTrips

variable {ops : RsaOps} (hops : ops.Exact) {key : RsaKey} (hkey : key.Valid)

/-- A ciphertext whose missing words the buffer holds is read back as it was. -/
lemma val_bytesToBN_writeWords {c : BN} (hn : c.n = wordCount c.val) (hc : c.val < 2 ^ 2048)
    (hout : out.length = rsaKeyBytes) (hbuf : BufferHolds out c.val) :
    (bytesToBN (writeWords out rsaKeyBytes c)).val = c.val := by
  have hfits : c.val < wordBase ^ 32 := by
    rw [pow_wordBase_32]
    exact hc
  refine BN.val_eq_of_words rfl hfits (fun i hi => ?_)
  rw [bytesToBN_word _ hi, packWord_writeWords hout c hi]
  split
  · rename_i hword
    have hin : i < c.n := by omega
    rw [c.val_digit, if_pos hin]
  · rename_i hword
    exact hbuf i hi (by rw [← hn]; exact Nat.le_of_not_lt hword)

include hops hkey

/-- Decryption recovers a block below the modulus, if the buffer holds what encryption does not
write and the memory of `m` was zero. -/
lemma decrypt_block (hlen : msg.length ≤ 245) (hval : blockVal msg < key.n.val)
    (hout : out.length = rsaKeyBytes) (hbuf : BufferHolds out (blockVal msg ^ key.e.val % key.n.val))
    (c₀ : BN) (hzero : ∀ i < 32, m₀.w i = 0) :
    ∃ ct, rsaPkcs1EncryptPad ops c₀ out rsaKeyBytes msg key.e key.n = some (ct, rsaKeyBytes) ∧
      rsaPkcs1Decrypt ops m₀ ct key = unpad (encryptBlock msg) := by
  have h256 : rsaKeyBytes = 256 := rfl
  have hnpos : 0 < key.n.val := Nat.zero_lt_of_lt hval
  obtain ⟨c, hc, hcval, hcn⟩ := hops.powmod_eq c₀ (bytesToBN (encryptBlock msg)) key.e key.n hnpos
  have hclt : c.val < 2 ^ 2048 := by
    rw [hcval]
    exact Nat.lt_trans (Nat.mod_lt _ hnpos) hkey.n_lt
  refine ⟨writeWords out rsaKeyBytes c, ?_, ?_⟩
  · rw [rsaPkcs1EncryptPad, if_neg (by omega)]
    simp only [hc]
  · have hct : (bytesToBN (writeWords out rsaKeyBytes c)).val = c.val :=
      val_bytesToBN_writeWords hcn hclt hout (hcval ▸ hbuf)
    obtain ⟨m, hm, hmval, hframe⟩ := hops.crt_eq m₀ (bytesToBN (writeWords out rsaKeyBytes c)) key hkey
    have hmblock : m.val = blockVal msg := by
      rw [hmval, hct, hcval]
      exact hkey.private_public hval
    -- the words that count are those of the block, the others are zero in both
    have hwords : ∀ i < 32, m.w i = packWord (encryptBlock msg) i := by
      intro i hi
      have hdigit := (bytesToBN (encryptBlock msg)).val_digit i
      rw [if_pos (show i < (bytesToBN (encryptBlock msg)).n from hi), bytesToBN_word _ hi,
        show (bytesToBN (encryptBlock msg)).val = m.val from hmblock.symm, m.val_digit] at hdigit
      apply UInt64.toNat_inj.mp
      rw [← hdigit]
      split
      · rfl
      · rename_i hin
        rw [hframe i (Nat.le_of_not_lt hin), hzero i hi]
        rfl
    rw [rsaPkcs1Decrypt, if_neg (by rw [length_writeWords, hout]; exact not_not_intro rfl)]
    simp only [hm]
    rw [show (bytesToBN (writeWords out rsaKeyBytes c)).n = 32 from rfl,
      bnToBytes_of_words (length_encryptBlock hlen) hwords]

end RoundTrips

lemma length_bnToBytes (m : BN) (n : Nat) : (bnToBytes m n).length = rsaKeyBytes := by
  rw [bnToBytes, length_map, length_range]

/-- A message that equals itself moved back by one byte, with a zero before it. -/
lemma cons_dropLast_eq_iff (hne : msg ≠ []) : 0x00 :: msg.dropLast = msg ↔ ∀ b ∈ msg, b = 0 := by
  constructor
  · intro h
    induction msg with
    | nil => exact absurd rfl hne
    | cons a l ih =>
      obtain ⟨ha, hl⟩ := cons.inj h
      subst ha
      rw [forall_mem_cons]
      refine ⟨rfl, ?_⟩
      cases l with
      | nil => exact fun b hb => absurd hb not_mem_nil
      | cons b l => exact ih (cons_ne_nil b l) hl
  · intro h
    obtain ⟨k, hk⟩ : ∃ k, msg.length = k + 1 := Nat.exists_eq_add_of_le' (length_pos_iff.mpr hne)
    rw [eq_replicate_of_mem h, hk, dropLast_replicate, Nat.add_sub_cancel, replicate_succ]

/-- Only a message that begins with a zero byte can come back, whatever the arithmetic does. -/
lemma RoundTrip.head {ops : RsaOps} {c₀ : BN}
    (h : RoundTrip ops key c₀ m₀ out msg) : msg.head? = some 0 := by
  obtain ⟨ct, -, hdec⟩ := h
  unfold rsaPkcs1Decrypt at hdec
  split at hdec
  · cases hdec
  · exact unpad_head (length_bnToBytes _ _) hdec

/-- **When decryption inverts encryption.** Only a message that begins with a zero byte can come
back. For a block below the modulus, a buffer that holds the words that are not written, and zero
memory, it does exactly when all its bytes are zero. -/
theorem pkcs1_roundtrip {ops : RsaOps} (hops : ops.Exact) {key : RsaKey} (hkey : key.Valid) (c₀ m₀ : BN)
    {out msg : List UInt8} (hout : out.length = rsaKeyBytes) (hpos : 1 ≤ msg.length) (hlen : msg.length ≤ 245) :
    (RoundTrip ops key c₀ m₀ out msg → msg.head? = some 0) ∧
    (blockVal msg < key.n.val → BufferHolds out (blockVal msg ^ key.e.val % key.n.val) → (∀ i < 32, m₀.w i = 0) →
      (RoundTrip ops key c₀ m₀ out msg ↔ ∀ b ∈ msg, b = 0)) := by
  constructor
  · exact RoundTrip.head
  · intro hval hbuf hzero
    obtain ⟨ct, henc, hdec⟩ := decrypt_block hops hkey hlen hval hout hbuf c₀ hzero
    rw [unpad_encryptBlock hpos hlen] at hdec
    rw [← cons_dropLast_eq_iff (length_pos_iff.mp hpos)]
    constructor
    · rintro ⟨ct', henc', hdec'⟩
      rw [henc] at henc'
      cases henc'
      rw [hdec] at hdec'
      exact Option.some.inj hdec'
    · intro h
      exact ⟨ct, henc, by rw [hdec, h]⟩

/-! ## A key -/

/-- Memory that was zero. -/
def zeroBN : BN := ⟨fun _ => 0, 0⟩

/-- The key of the primes 3 and `q`, with `q` itself for both exponents. -/
def keyOf (q : Nat) : RsaKey where
  n := zeroBN.store (3 * q)
  e := zeroBN.store q
  d := zeroBN.store q
  p := zeroBN.store 3
  q := zeroBN.store q
  dp := zeroBN.store (q % (3 - 1))
  dq := zeroBN.store (q % (q - 1))
  qinv := zeroBN.store q

lemma valid_keyOf {q : Nat} (hq : q.Prime) (hodd : q % 2 = 1) (hne : q ≠ 3) (hge : 2 ^ 2047 ≤ 3 * q)
    (hlt : 3 * q < 2 ^ 2048) : (keyOf q).Valid := by
  have hself : q ≡ 1 [MOD q - 1] := ((Nat.modEq_iff_dvd' hq.one_le).mpr (dvd_refl _)).symm
  have hthree : q % 3 = 1 ∨ q % 3 = 2 := by
    have hdvd : ¬ 3 ∣ q := fun h => hne ((Nat.prime_dvd_prime_iff_eq Nat.prime_three hq).mp h).symm
    omega
  constructor
  case prime_p => exact (BN.val_store _ _).symm ▸ Nat.prime_three
  case prime_q => exact (BN.val_store _ _).symm ▸ hq
  all_goals simp only [keyOf, BN.val_store]
  case ne => exact hne.symm
  case n_ge => exact hge
  case n_lt => exact hlt
  case ed_p => exact Nat.ModEq.mul (show q ≡ 1 [MOD 2] from hodd) (show q ≡ 1 [MOD 2] from hodd)
  case ed_q => exact hself.mul hself
  case qinv_eq =>
    show q * q % 3 = 1 % 3
    rw [Nat.mul_mod]
    rcases hthree with h | h
    · rw [h]
    · rw [h]

/-- By Bertrand's postulate there is a prime whose triple has a given number of bits. -/
lemma exists_prime_triple {b c : Nat} (hb : 4 ≤ b) (hc : c = b + 1) :
    ∃ q : Nat, q.Prime ∧ q % 2 = 1 ∧ q ≠ 3 ∧ 2 ^ b ≤ 3 * q ∧ 3 * q < 2 ^ c := by
  subst hc
  have hbig : 2 ^ 4 ≤ 2 ^ b := Nat.pow_le_pow_right (by decide) hb
  have hnodvd : ¬ 3 ∣ 2 ^ (b + 1) := fun h => absurd (Nat.prime_three.dvd_of_dvd_pow h) (by decide)
  obtain ⟨q, hq, hlo, hhi⟩ := Nat.exists_prime_lt_and_le_two_mul (2 ^ b / 3) (by omega)
  have hodd : q % 2 = 1 := hq.eq_two_or_odd.resolve_left (by omega)
  have hle : 3 * q ≤ 2 ^ (b + 1) := by
    rw [Nat.pow_succ]
    omega
  refine ⟨q, hq, hodd, by omega, by omega, Nat.lt_of_le_of_ne hle (fun heq => hnodvd ?_)⟩
  exact ⟨q, heq.symm⟩

lemma exists_valid_key : ∃ key : RsaKey, key.Valid := by
  obtain ⟨q, hq, hodd, hne, hge, hlt⟩ := exists_prime_triple (show 4 ≤ 2047 by decide) (show 2048 = 2047 + 1 by decide)
  exact ⟨keyOf q, valid_keyOf hq hodd hne hge hlt⟩

/-! ## Messages that come back, and messages that do not -/

lemma bufferHolds_store (v : Nat) : BufferHolds (bnToBytes (zeroBN.store v) 32) v := by
  intro i hi _
  have hword : packWord (bnToBytes (zeroBN.store v) 32) i = (zeroBN.store v).w i := by
    refine packWord_of_bytes (fun j hj => ?_)
    have h256 : rsaKeyBytes = 256 := rfl
    have hdiv : (i * 8 + j) / 8 = i := by omega
    have hmod : (i * 8 + j) % 8 = j := by omega
    rw [bnToBytes, getD_eq_getElem?_getD, getElem?_map, getElem?_range (by omega)]
    simp only [Option.map_some, Option.getD_some, hdiv, hmod, if_pos hi]
  have hdigit := (zeroBN.store v).val_digit i
  rw [BN.val_store] at hdigit
  rw [hword, hdigit]
  split
  · rfl
  · rename_i hin
    exact congrArg UInt64.toNat (if_neg hin)

/-- The number of a block whose last eight bytes are zero is below every modulus of 2048 bits. -/
lemma blockVal_lt (hkey : key.Valid)
    (hlast : ∀ j < 8, (encryptBlock msg).getD (31 * 8 + j) 0 = 0) : blockVal msg < key.n.val := by
  have hword : packWord (encryptBlock msg) 31 = 0 := by
    refine packWord_of_bytes (fun j hj => ?_)
    rw [hlast j hj, wordByte, UInt64.toNat_zero, Nat.zero_div]
    rfl
  have hdigit : blockVal msg / wordBase ^ 31 % wordBase = 0 := by
    have h := (bytesToBN (encryptBlock msg)).val_digit 31
    rw [if_pos (show 31 < (bytesToBN (encryptBlock msg)).n from Nat.lt_succ_self 31),
      bytesToBN_word _ (by decide), hword] at h
    exact h
  have hlt : blockVal msg / wordBase ^ 31 < wordBase := by
    refine Nat.div_lt_of_lt_mul ?_
    rw [← Nat.pow_succ]
    exact (bytesToBN (encryptBlock msg)).val_lt
  rw [Nat.mod_eq_of_lt hlt, Nat.div_eq_zero_iff] at hdigit
  have hsmall : blockVal msg < wordBase ^ 31 := hdigit.resolve_left (Nat.ne_of_gt (Nat.pow_pos wordBase_pos))
  exact Nat.lt_of_lt_of_le hsmall (Nat.le_trans (pow_wordBase_le (by decide)) hkey.n_ge)

/-- Eight zero bytes come back, with the ciphertext left in the buffer from an earlier call. -/
theorem pkcs1_roundtrip_zeros :
    ∃ key : RsaKey, key.Valid ∧ ∃ out, RoundTrip exactOps key zeroBN zeroBN out (replicate 8 0) := by
  obtain ⟨key, hkey⟩ := exists_valid_key
  have hval : blockVal (replicate 8 0) < key.n.val := blockVal_lt hkey (by decide +kernel)
  refine ⟨key, hkey, bnToBytes (zeroBN.store (blockVal (replicate 8 0) ^ key.e.val % key.n.val)) 32, ?_⟩
  refine ((pkcs1_roundtrip exactOps_exact hkey zeroBN zeroBN (length_bnToBytes _ _) (by decide) (by decide)).2
    hval (bufferHolds_store _) (fun _ _ => rfl)).mpr ?_
  exact fun b hb => eq_of_mem_replicate hb

/-- The message of one byte 1 never comes back. -/
theorem pkcs1_loses_one_byte : ∃ key : RsaKey, key.Valid ∧ exactOps.Exact ∧
      ∀ (ops : RsaOps) (c₀ m₀ : BN) (out : List UInt8), ¬ RoundTrip ops key c₀ m₀ out [1] := by
  obtain ⟨key, hkey⟩ := exists_valid_key
  refine ⟨key, hkey, exactOps_exact, fun ops c₀ m₀ out h => ?_⟩
  exact absurd h.head (by decide)

/-! ## Signatures -/

/-- **`rsa_verify` never accepts**: what it takes for the separator is not the first byte of the
digest information. -/
theorem rsaVerify_eq_zero (ops : RsaOps) (m₀ : BN) (behind : UInt8) (sig hash : List UInt8) (e n : BN) :
    rsaVerify ops m₀ behind sig hash e n = 0 := by
  unfold rsaVerify
  simp only
  generalize hem : bnToBytes (ops.powmod m₀ (bytesToBN sig) e n) (ops.powmod m₀ (bytesToBN sig) e n).n = em
  have hlen : em.length = 256 := by
    rw [← hem]
    exact length_bnToBytes _ _
  split
  · rfl
  split
  · rfl
  rename_i hsep
  split
  · rfl
  rename_i hstart
  rw [not_or, not_not] at hsep
  rw [not_not] at hstart
  have hzero : em.getD (diStart + 0) 0 = 0 := by
    have h := hsep.2
    rw [hstart, getD_eq_getElem?_getD, getElem?_append_left (by rw [hlen]; decide)] at h
    rw [getD_eq_getElem?_getD]
    exact h
  have hany : (range 19).any (fun j => em.getD (diStart + j) 0 ≠ digestInfo.getD j 0) = true := by
    refine any_eq_true.mpr ⟨0, by decide, decide_eq_true ?_⟩
    rw [hzero]
    decide
  rw [if_pos hany]

/-- **When a signature verifies.** `rsa_verify` never returns 1 for the signature of the hash: of
the two halves of the law, to accept it for this hash and to reject it for every other one, only the
second holds. -/
theorem sign_verify_iff (ops : RsaOps) (key : RsaKey) (s₀ m₀ : BN) (junk : Nat → UInt8) (behind : UInt8)
    (hash : List UInt8) : ((rsaVerify ops m₀ behind (rsaSign ops s₀ junk hash key) hash key.e key.n = 1 ∧
      ∀ hash', hash' ≠ hash → rsaVerify ops m₀ behind (rsaSign ops s₀ junk hash key) hash' key.e key.n = 0) ↔ False) ∧
    ∀ hash', rsaVerify ops m₀ behind (rsaSign ops s₀ junk hash key) hash' key.e key.n = 0 := by
  refine ⟨⟨fun h => ?_, False.elim⟩, fun hash' => rsaVerify_eq_zero _ _ _ _ _ _ _⟩
  rw [rsaVerify_eq_zero] at h
  exact absurd h.1 (by decide)

/-- With a valid key and exact arithmetic the signature of a hash of zeros is rejected. -/
theorem sign_verify_rejects_zeros : ∃ key : RsaKey, key.Valid ∧ exactOps.Exact ∧
      rsaVerify exactOps zeroBN 0 (rsaSign exactOps zeroBN (fun _ => 0) (replicate 32 0) key)
        (replicate 32 0) key.e key.n = 0 := by
  obtain ⟨key, hkey⟩ := exists_valid_key
  exact ⟨key, hkey, exactOps_exact, rsaVerify_eq_zero _ _ _ _ _ _ _⟩

end PigOS.Crypto
