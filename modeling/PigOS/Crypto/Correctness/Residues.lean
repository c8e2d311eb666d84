import PigOS.Crypto.Correctness.Words

/-!
# `Crypto.Correctness.Residues` — are `bn_mod` and `bn_powmod` exact?

`bn_mod` doubles the number that is to be reduced, not the remainder found so far: a number that is
not below the modulus gets larger (`bnMod_val`). `bn_powmod` is exact where `bn_mod` is: each round
of square and multiply keeps `res * b ^ e` modulo `m` (`bnPowmodLoop_val`).
-/

namespace PigOS.Crypto

open ModArith

/-! ## `bn_mod` -/

lemma bnModRound_val (r m q : BN) :
    (bnModRound r m q).val = if m.val ≤ 2 * r.val then 2 * r.val - m.val else 2 * r.val := by
  have hdouble : (bnAddTo q r r).val = 2 * r.val := by
    rw [bnAddTo_val]
    omega
  rw [bnModRound, ← hdouble]
  by_cases hle : m.val ≤ (bnAddTo q r r).val
  · rw [if_pos (bnCmp_nonneg_iff.mpr hle), if_pos hle, bnSubFrom_of_le hle]
  · rw [if_neg (fun h => hle (bnCmp_nonneg_iff.mp h)), if_neg hle]

section
variable {Loc : Type} [DecidableEq Loc]

/-- **What `bn_mod` computes.** The last case is that of a result in place of the modulus. -/
theorem bnMod_val (s : Mem Loc) (r a m : Loc) (hm : 0 < (s m).val) : (bnMod s r a m r).val =
      if (s a).val < (s m).val then (s a).val else if m = r then (s a).val else 2 * (s a).val - (s m).val := by
  unfold bnMod
  by_cases hlt : (s a).val < (s m).val
  · rw [if_pos (bnCmp_neg_iff.mpr hlt), if_pos hlt, Mem.put_self, BN.val_copy]
  · rw [if_neg (fun h => hlt (bnCmp_neg_iff.mp h)), if_neg hlt]
    -- there is a word, and so there is a last round; the rounds before it do not matter
    have hwords : 1 ≤ (s a).n := one_le_n_of_val (by omega)
    have hcount : ((s.put r ((s r).copy (s a))) a).n = (s a).n := by
      by_cases ha : a = r
      · rw [ha, Mem.put_self]
        rfl
      · rw [Mem.put_of_ne _ _ ha]
    obtain ⟨k, hk⟩ := Nat.exists_eq_add_of_le' (show 1 ≤ 64 * (s a).n by omega)
    rw [Mem.put_self, BN.val_copy, hcount, hk, Function.iterate_succ_apply', bnModRound_val, Mem.put_self, BN.val_copy]
    by_cases hmr : m = r
    · rw [if_pos hmr, hmr, Mem.put_self, BN.val_copy, if_pos (by omega)]
      omega
    · rw [if_neg hmr, Mem.put_of_ne _ _ hmr, if_pos (by omega)]

/-- **`bn_mod` is exact for the numbers below the modulus and for no others.** -/
theorem bnMod_exact_iff (s : Mem Loc) (r a m : Loc) (hm : 0 < (s m).val) :
    (bnMod s r a m r).val = (s a).val % (s m).val ↔ (s a).val < (s m).val := by
  rw [bnMod_val s r a m hm]
  have hmod := Nat.mod_lt (s a).val hm
  constructor
  · intro h
    by_contra hlt
    rw [if_neg hlt] at h
    split at h <;> omega
  · intro hlt
    rw [if_pos hlt, Nat.mod_eq_of_lt hlt]

end

/-- 7 is reduced modulo 10. -/
theorem bnMod_exact_seven : (bnMod (args bnNull (bnSetU64 7) (bnSetU64 10)) .out .fst .snd .out).val = 7 % 10 := by
  have hseven : (args bnNull (bnSetU64 7) (bnSetU64 10) .fst).val = 7 := bnSetU64_val 7
  have hten : (args bnNull (bnSetU64 7) (bnSetU64 10) .snd).val = 10 := bnSetU64_val 10
  have hiff := bnMod_exact_iff (args bnNull (bnSetU64 7) (bnSetU64 10)) .out .fst .snd (by rw [hten]; decide)
  rw [hseven, hten] at hiff
  exact hiff.mpr (by decide)

/-- 3 modulo 2 comes out as 4. -/
theorem bnMod_three_two : (bnMod (args bnNull (bnSetU64 3) (bnSetU64 2)) .out .fst .snd .out).val = 4 ∧ 3 % 2 = 1 := by
  have hthree : (args bnNull (bnSetU64 3) (bnSetU64 2) .fst).val = 3 := bnSetU64_val 3
  have htwo : (args bnNull (bnSetU64 3) (bnSetU64 2) .snd).val = 2 := bnSetU64_val 2
  refine ⟨?_, rfl⟩
  rw [bnMod_val _ _ _ _ (by rw [htwo]; decide), hthree, htwo]
  rfl

/-! ## `bn_powmod` -/

/-- `bn_mod` leaves the residue, in normal form. -/
structure ModExact (mod : BN → BN → BN) : Prop where
  val : ∀ a m : BN, 0 < m.val → (mod a m).val = a.val % m.val
  normal : ∀ a m : BN, 0 < m.val → (mod a m).Normal

/-- There is such a function. -/
def exactMod (a m : BN) : BN := bnNull.store (a.val % m.val)

lemma normal_store (old : BN) (v : Nat) : (old.store v).Normal := by
  rw [BN.Normal, BN.val_store]
  rfl

lemma exactMod_exact : ModExact exactMod where
  val := fun _ _ _ => BN.val_store _ _
  normal := fun _ _ _ => normal_store _ _

section
variable {mod : BN → BN → BN} (hmod : ModExact mod) {m : BN} (hm : 2 ≤ m.val) (hmn : m.n ≤ 32)
include hmod hm hmn

/-- A product of numbers of 32 words fits, and its residue has 32 words again. -/
lemma bnMulmod_spec {a b : BN} (ha : a.n ≤ 32) (hb : b.n ≤ 32) :
    ∃ c, bnMulmod mod a b m = some c ∧ c.val = a.val * b.val % m.val ∧ c.n ≤ 32 := by
  have hpos : 0 < m.val := by omega
  refine ⟨mod (bnMulTo bnNull a b) m, ?_, ?_, ?_⟩
  · exact if_neg (by unfold bnMaxWords; omega)
  · rw [hmod.val _ _ hpos, bnMulTo_val]
  · refine (hmod.normal _ _ hpos).n_le (by decide) ?_
    rw [hmod.val _ _ hpos]
    calc (bnMulTo bnNull a b).val % m.val < m.val := Nat.mod_lt _ hpos
      _ < wordBase ^ m.n := m.val_lt
      _ ≤ wordBase ^ 32 := Nat.pow_le_pow_right wordBase_pos hmn

/-- The rounds on an exponent of `k` bits. One that is 0 but has leading zeros takes a round. -/
lemma bnPowmodLoop_val {k : Nat} {res b e : BN} (he : 1 ≤ e.n) (hek : e.val < 2 ^ k) (hnorm : e.Normal ∨ 1 ≤ k)
    (hres : res.val < m.val) (hresn : res.n ≤ 32) (hbn : b.n ≤ 32) :
    ∃ c, bnPowmodLoop (bnMulmod mod) m (k + 1) res b e = some c ∧ c.val = res.val * b.val ^ e.val % m.val := by
  induction k generalizing res b e with
  | zero =>
    have hzero : e.val = 0 := Nat.lt_one_iff.mp hek
    have hnorm := hnorm.resolve_right (by decide)
    refine ⟨res, ?_, ?_⟩
    · rw [bnPowmodLoop, if_pos ((bnIsZero_iff hnorm).mpr hzero)]
    · rw [hzero, pow_zero, mul_one, Nat.mod_eq_of_lt hres]
  | succ k ih =>
    by_cases hzero : bnIsZero e = true
    · refine ⟨res, ?_, ?_⟩
      · rw [bnPowmodLoop, if_pos hzero]
      · rw [val_of_bnIsZero hzero, pow_zero, mul_one, Nat.mod_eq_of_lt hres]
    · obtain ⟨b', hb', hbval, hbn'⟩ := bnMulmod_spec hmod hm hmn hbn hbn
      obtain ⟨res', hres', hresval, hlt', hresn'⟩ : ∃ res',
          (if (e.w 0).toNat % 2 = 1 then bnMulmod mod res b m else some res) = some res' ∧
            res'.val = (if e.val % 2 = 1 then res.val * b.val % m.val else res.val) ∧
            res'.val < m.val ∧ res'.n ≤ 32 := by
        rw [BN.val_mod_two he]
        split
        · obtain ⟨c, hc, hcval, hcn⟩ := bnMulmod_spec hmod hm hmn hresn hbn
          exact ⟨c, hc, hcval, hcval ▸ Nat.mod_lt _ (by omega), hcn⟩
        · exact ⟨res, rfl, rfl, hres, hresn⟩
      have hhalf : (bnShr e).val < 2 ^ k := by
        rw [bnShr_val he]
        rw [pow_succ] at hek
        omega
      obtain ⟨c, hc, hcval⟩ := ih (bnShr_normal he).pos hhalf (.inl (bnShr_normal he)) hlt' hresn' hbn'
      refine ⟨c, ?_, ?_⟩
      · rw [bnPowmodLoop, if_neg hzero, if_neg (by omega), hres', hb']
        exact hc
      · rw [hcval, hresval, hbval, bnShr_val he, mul_pow_half_mod]

end

/-- **`bn_powmod` ends and is exact**, if `bn_mod` is. The exponent may have leading zeros. -/
theorem bnPowmod_exact {mod : BN → BN → BN} (hmod : ModExact mod) (r : BN) {base exp m : BN} (hm : 2 ≤ m.val)
    (hmn : m.n ≤ 32) (hbase : base.n ≤ 32) (hexp : 1 ≤ exp.n) :
    ∃ c, bnPowmod (bnMulmod mod) r base exp m = some c ∧ c.val = base.val ^ exp.val % m.val := by
  have hbits : exp.val < 2 ^ (64 * exp.n) := by
    rw [pow_mul]
    exact exp.val_lt
  have hone : bnOne.val < m.val := by
    rw [bnOne_val]
    omega
  obtain ⟨c, hc, hcval⟩ := bnPowmodLoop_val hmod hm hmn hexp hbits (.inr (by omega)) hone (by decide) hbase
  refine ⟨r.copy c, ?_, ?_⟩
  · rw [bnPowmod, hc]
    rfl
  · rw [BN.val_copy, hcval, bnOne_val, one_mul]

/-- The cube of 2 modulo 5, with an exponent of two words. -/
theorem bnPowmod_exact_cube :
    ∃ c, bnPowmod (bnMulmod exactMod) bnNull (bnSetU64 2) ⟨(bnSetU64 3).w, 2⟩ (bnSetU64 5) = some c ∧ c.val = 3 := by
  have hm : 2 ≤ (bnSetU64 5).val := by
    rw [bnSetU64_val]
    decide
  have hbase : (bnSetU64 2).n ≤ 32 := by decide
  have hexp : 1 ≤ (⟨(bnSetU64 3).w, 2⟩ : BN).n := by decide
  obtain ⟨c, hc, hcval⟩ := bnPowmod_exact exactMod_exact bnNull hm (by decide) hbase hexp
  rw [show (⟨(bnSetU64 3).w, 2⟩ : BN).val = 3 from rfl, bnSetU64_val, bnSetU64_val] at hcval
  exact ⟨c, hc, hcval⟩

end PigOS.Crypto
