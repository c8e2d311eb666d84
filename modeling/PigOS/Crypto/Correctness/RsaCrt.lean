import PigOS.Crypto.Correctness.Rsa
import PigOS.Crypto.Correctness.Words

/-!
# `Crypto.Correctness.RsaCrt` — is the private operation by CRT the plain one?

`bn_mul(&h,&h,&key->q)` clears the words of its result before it reads those of its argument, and
the two are the same number: whatever `h` was, it is 0 afterwards (`bnMul_self_val`). So
`rsa_private_crt` returns the residue modulo `q` alone (`rsaPrivateCrt_val`).
-/

namespace PigOS.Crypto

open ModArith

/-! ## Comparison with 0 -/

/-- **Nothing is below 0.** The numbers have no sign. -/
theorem bnCmp_null (a : BN) : 0 ≤ bnCmp a bnNull := by
  rw [bnCmp_nonneg_iff, show bnNull.val = 0 from rfl]
  exact Nat.zero_le _

/-! ## Multiplication in place -/

section
variable {Loc : Type} [DecidableEq Loc] {s : Mem Loc} {r : Loc} {m : Nat}

lemma Zeroed.setWord (h : Zeroed (s r) m) (i : Nat) : Zeroed (s.setWord r i 0 r) m := by
  intro k hk
  rw [s.setWord_w]
  split
  · rfl
  · exact h k hk

lemma clearWords_n (s : Mem Loc) (r : Loc) (m : Nat) : (clearWords s r m r).n = (s r).n := by
  induction m with
  | zero => rfl
  | succ m ih => exact (Mem.setWord_n _ _ _ _).trans ih

/-- A row of zeros stays one: every product is 0, and nothing is carried. -/
lemma bnMulRow_zeroed (b : Loc) {i : Nat} (h : Zeroed (s r) m) {j : Nat} (hi : i < m)
    (hj : i + j ≤ m) : Zeroed ((bnMulRow r r b i s j).1 r) m ∧ (bnMulRow r r b i s j).2 = 0 := by
  induction j with
  | zero => exact ⟨h, rfl⟩
  | succ j ih =>
    obtain ⟨hzero, hcarry⟩ := ih (by omega)
    rw [bnMulRow]
    generalize bnMulRow r r b i s j = t at hzero hcarry ⊢
    dsimp only at hzero hcarry ⊢
    rw [hcarry, hzero i hi, hzero (i + j) (by omega), UInt64.toNat_zero, Nat.zero_mul]
    exact ⟨hzero.setWord _, rfl⟩

lemma bnMulRows_zeroed {b : Loc} (hb : b ≠ r) (h : Zeroed (s r) m) {i : Nat}
    (hi : i + (s b).n ≤ m) : Zeroed (bnMulRows r r b s i r) m := by
  induction i with
  | zero => exact h
  | succ i ih =>
    have hsame : bnMulRows r r b s i b = s b := bnMulRows_of_ne r r b s i hb
    obtain ⟨hzero, hcarry⟩ := bnMulRow_zeroed b (ih (by omega)) (i := i) (j := (s b).n) (by omega) (by omega)
    rw [bnMulRows, hsame]
    generalize bnMulRow r r b i (bnMulRows r r b s i) (s b).n = t at hzero hcarry ⊢
    dsimp only at hzero hcarry ⊢
    rw [if_neg (not_not.mpr hcarry)]
    exact hzero

/-- **A product in place is 0.** -/
theorem bnMul_self_val {r b : Loc} (hb : b ≠ r) (s : Mem Loc) : (bnMul s r r b r).val = 0 := by
  have hzero : Zeroed (bnMulRows r r b (clearWords s r ((s r).n + (s b).n)) (s r).n r) ((s r).n + (s b).n) := by
    refine bnMulRows_zeroed hb (clearWords_zeroed s r _) ?_
    rw [clearWords_of_ne s _ hb]
  rw [bnMul, val_setN, clearWords_n]
  exact wordsVal_zero (fun k hk => hzero k (Nat.lt_of_lt_of_le hk (trimWords_le _ _)))

end

/-! ## The private operation -/

/-- **`rsa_private_crt` returns the residue modulo `q`.** -/
theorem rsaPrivateCrt_val (ar : BnArith) (junk : CrtVar → BN) (old c : BN) (key : RsaKey) :
    (rsaPrivateCrt ar junk old c key).val = (ar.powmod (junk .m2) c key.dq key.q).val := by
  rw [rsaPrivateCrt, crtRun, if_neg (Int.not_lt.mpr (bnCmp_null _)), bnAdd_val,
    bnMul_self_val (by decide), bnMul_of_ne _ _ _ _ (by decide), Mem.put_of_ne _ _ (by decide),
    bnSub_of_ne _ _ _ _ (by decide), Mem.put_self, Nat.zero_add]
  rfl

/-- The equations of a key for the Chinese remainder theorem. -/
structure RsaKey.Crt (key : RsaKey) : Prop where
  prime_p : key.p.val.Prime
  prime_q : key.q.val.Prime
  ne : key.p.val ≠ key.q.val
  p_words : key.p.n ≤ 16
  q_words : key.q.n ≤ 16
  n_eq : key.n.val = key.p.val * key.q.val
  dp_eq : key.dp.val = key.d.val % (key.p.val - 1)
  dq_eq : key.dq.val = key.d.val % (key.q.val - 1)
  qinv_eq : key.q.val * key.qinv.val ≡ 1 [MOD key.p.val]

structure BnArith.Exact (ar : BnArith) : Prop where
  powmod_eq : ∀ r b e m : BN, 0 < m.val → (ar.powmod r b e m).val = b.val ^ e.val % m.val
  mulmod_eq : ∀ r a b m : BN, 0 < m.val → (ar.mulmod r a b m).val = a.val * b.val % m.val

/-- **The two private operations agree when the result is below `q`**, unless `q` divides the base
and the positive exponent is reduced to 0. -/
theorem rsaPrivateCrt_iff {ar : BnArith} (har : ar.Exact) {key : RsaKey} (hkey : key.Crt)
    (junk : CrtVar → BN) (old c : BN) :
    (rsaPrivateCrt ar junk old c key).val = c.val ^ key.d.val % key.n.val ↔
      c.val ^ key.d.val % key.n.val < key.q.val ∧
        ¬ (key.q.val ∣ c.val ∧ key.d.val ≠ 0 ∧ key.q.val - 1 ∣ key.d.val) := by
  have hres : c.val ^ key.d.val % key.n.val % key.q.val = c.val ^ key.d.val % key.q.val := by
    rw [hkey.n_eq, Nat.mod_mul_left_mod]
  rw [rsaPrivateCrt_val, har.powmod_eq _ _ _ _ hkey.prime_q.pos, hkey.dq_eq,
    ← pow_mod_pred_eq_iff hkey.prime_q c.val key.d.val]
  constructor
  · intro h
    have hlt : c.val ^ key.d.val % key.n.val < key.q.val := h ▸ Nat.mod_lt _ hkey.prime_q.pos
    exact ⟨hlt, by rw [h, ← hres, Nat.mod_eq_of_lt hlt]⟩
  · rintro ⟨hlt, hexp⟩
    rw [hexp, ← hres, Nat.mod_eq_of_lt hlt]

/-! ## A small key -/

/-- Exact arithmetic. -/
def exactArith : BnArith where
  powmod := fun r b e m => r.store (b.val ^ e.val % m.val)
  mulmod := fun r a b m => r.store (a.val * b.val % m.val)

lemma exactArith_exact : exactArith.Exact where
  powmod_eq := fun _ _ _ _ _ => BN.val_store _ _
  mulmod_eq := fun _ _ _ _ _ => BN.val_store _ _

/-- The primes 5 and 3, with both exponents 3. -/
def smallKey : RsaKey where
  n := zeroBN.store 15
  e := zeroBN.store 3
  d := zeroBN.store 3
  p := zeroBN.store 5
  q := zeroBN.store 3
  dp := zeroBN.store 3
  dq := zeroBN.store 1
  qinv := zeroBN.store 2

lemma smallKey_crt : smallKey.Crt := by
  have hwords : ∀ v < wordBase, (zeroBN.store v).n ≤ 16 := by
    intro v hv
    show Nat.log wordBase v + 1 ≤ 16
    rw [Nat.log_of_lt hv]
    decide
  constructor
  case p_words => exact hwords 5 (by decide)
  case q_words => exact hwords 3 (by decide)
  all_goals simp only [smallKey, BN.val_store]
  case prime_p => exact Nat.prime_five
  case prime_q => exact Nat.prime_three
  case ne => decide
  case qinv_eq => rfl

/-- The cube of 8 is 2 modulo 15, which is below both primes: the two agree. -/
theorem rsaPrivateCrt_small_eight : smallKey.Crt ∧ exactArith.Exact ∧
      (rsaPrivateCrt exactArith (fun _ => zeroBN) zeroBN (zeroBN.store 8) smallKey).val
        = (zeroBN.store 8).val ^ smallKey.d.val % smallKey.n.val := by
  refine ⟨smallKey_crt, exactArith_exact, (rsaPrivateCrt_iff exactArith_exact smallKey_crt _ _ _).mpr ?_⟩
  simp only [smallKey, BN.val_store]
  decide

/-- The base 4 is below the modulus and its cube is 4 again, but the result is 1. -/
theorem rsaPrivateCrt_small_four : smallKey.Crt ∧ exactArith.Exact ∧ (zeroBN.store 4).val < smallKey.n.val
      ∧ (zeroBN.store 4).val ^ smallKey.d.val % smallKey.n.val = 4
      ∧ (rsaPrivateCrt exactArith (fun _ => zeroBN) zeroBN (zeroBN.store 4) smallKey).val = 1 := by
  refine ⟨smallKey_crt, exactArith_exact, ?_, ?_, ?_⟩
  · simp only [smallKey, BN.val_store]
    decide
  · simp only [smallKey, BN.val_store]
    rfl
  · rw [rsaPrivateCrt_val, exactArith_exact.powmod_eq _ _ _ _ smallKey_crt.prime_q.pos]
    simp only [smallKey, BN.val_store]
    rfl

end PigOS.Crypto
