import PigOS.Crypto.Correctness.Residues

/-!
# `Crypto.Correctness.Primes` — which primes does `bn_is_prime` know?

The test of Miller and Rabin writes `n - 1` as `2^s * d` and expects of a prime that `a^d` is 1 or
that one of its squarings is `n - 1`. `bn_is_prime` takes `n - 2` in both places. That is odd, so
that what is tested is whether `a^(n-2)`, the inverse of `a`, is 1 or `-2`. The first base is 2, and
so every odd prime but 5 is rejected in the first round; 5 is rejected in the second.
-/

namespace PigOS.Crypto

open ModArith

/-- `bn_powmod` is exact where `bnPowmod_exact` says so. -/
def PowmodExact (powmod : BN → BN → BN → BN) : Prop :=
  ∀ base exp m : BN, 2 ≤ m.val → m.n ≤ 32 → base.n ≤ 32 → 1 ≤ exp.n →
    (powmod base exp m).val = base.val ^ exp.val % m.val

/-- There is such a function. -/
def exactPowmod (base exp m : BN) : BN := bnNull.store (base.val ^ exp.val % m.val)

lemma exactPowmod_exact : PowmodExact exactPowmod := fun _ _ _ _ _ _ _ => BN.val_store _ _

/-! ## Small numbers and even numbers -/

section
variable (powmod : BN → BN → BN → BN) (rounds : Nat) {n : BN}

lemma two_val : (bnSetU64 2).val = 2 := bnSetU64_val 2

lemma bnIsPrime_of_lt (h : n.val < 2) : bnIsPrime powmod n rounds = some 0 := by
  rw [← two_val] at h
  exact if_pos (bnCmp_neg_iff.mpr h)

lemma bnIsPrime_two (h : n.val = 2) : bnIsPrime powmod n rounds = some 1 := by
  rw [← two_val] at h
  exact (if_neg (fun hneg => Nat.ne_of_lt (bnCmp_neg_iff.mp hneg) h)).trans (if_pos (bnCmp_zero_iff.mpr h))

lemma bnIsPrime_of_gt (h : 2 < n.val) : bnIsPrime powmod n rounds =
      if n.val % 2 = 0 then some 0 else some (bnWitnesses powmod n (bnSubTo bnNull n (bnSetU64 2)) 0 rounds 0) := by
  have hn : 1 ≤ n.n := one_le_n_of_val (by omega)
  have hlow : (n.w 0).toNat % 2 = n.val % 2 := (BN.val_mod_two hn).symm
  have hgt : (bnSetU64 2).val < n.val := two_val.symm ▸ h
  rw [bnIsPrime, if_neg (fun hneg => Nat.lt_asymm hgt (bnCmp_neg_iff.mp hneg)),
    if_neg (fun hzero => Nat.ne_of_gt hgt (bnCmp_zero_iff.mp hzero)), hlow]
  by_cases heven : n.val % 2 = 0
  · rw [if_pos heven, if_pos heven]
  · -- the difference is odd: there is nothing to halve
    have hodd : ¬((bnSubTo bnNull n (bnSetU64 2)).w 0).toNat % 2 = 0 := by
      rw [← BN.val_mod_two (bnSubTo_normal _ _ hn).pos, bnSubTo_of_le _ (Nat.le_of_lt hgt), two_val]
      omega
    rw [if_neg heven, if_neg heven]
    dsimp only
    rw [bnOddPart, if_neg hodd, Option.map_some]

end

/-! ## Odd primes -/

section
variable {powmod : BN → BN → BN → BN} (hpow : PowmodExact powmod) {n : BN} (hp : n.val.Prime) (htwo : 2 < n.val)
  (hwords : n.n ≤ 32)
include hpow hp htwo hwords

/-- **A round on an odd prime.** -/
theorem bnWitnesses_prime {r : Nat} (hr : 2 + r < wordBase) (hlt : 2 + r < n.val) (rounds : Nat) :
    bnWitnesses powmod n (bnSubTo bnNull n (bnSetU64 2)) 0 (rounds + 1) r =
      if n.val ∣ 2 * (2 + r) + 1 then bnWitnesses powmod n (bnSubTo bnNull n (bnSetU64 2)) 0 rounds (r + 1) else 0 := by
  have hn : 1 ≤ n.n := one_le_n_of_val (by omega)
  have ha : (bnSetU64 (UInt64.ofNat (2 + r))).val = 2 + r := by
    rw [bnSetU64_val, UInt64.toNat_ofNat']
    exact Nat.mod_eq_of_lt hr
  have hd : (bnSubTo bnNull n (bnSetU64 2)).val = n.val - 2 := by
    rw [bnSubTo_of_le _ (by rw [two_val]; omega), two_val]
  have hndvd : ¬n.val ∣ 2 + r := Nat.not_dvd_of_pos_of_lt (by omega) hlt
  have hx : (powmod (bnSetU64 (UInt64.ofNat (2 + r))) (bnSubTo bnNull n (bnSetU64 2)) n).val =
      (2 + r) ^ (n.val - 2) % n.val := by
    rw [hpow _ _ _ (by omega) hwords (show 1 ≤ 32 by decide) (bnSubTo_normal _ _ hn).pos, ha, hd]
  rw [bnWitnesses, if_neg (by rw [bnCmp_nonneg_iff, ha]; omega)]
  dsimp only
  generalize powmod (bnSetU64 (UInt64.ofNat (2 + r))) (bnSubTo bnNull n (bnSetU64 2)) n = x at hx ⊢
  -- the inverse of a number above 1 is not 1
  have hone : bnIsOne x = false := by
    refine Bool.eq_false_iff.mpr (fun hone => ?_)
    rw [bnIsOne, Bool.and_eq_true, decide_eq_true_iff, decide_eq_true_iff] at hone
    have hinv := mul_pow_sub_two hp hndvd
    rw [← hx, val_of_one_word hone.1, hone.2, UInt64.toNat_one, mul_one, Nat.ModEq, Nat.mod_eq_of_lt hlt,
      Nat.mod_eq_of_lt hp.one_lt] at hinv
    omega
  have hcmp : bnCmp x (bnSubTo bnNull n (bnSetU64 2)) = 0 ↔ n.val ∣ 2 * (2 + r) + 1 := by
    rw [bnCmp_zero_iff, hx, hd]
    exact pow_sub_two_eq_iff hp hndvd
  by_cases hdvd : n.val ∣ 2 * (2 + r) + 1
  · rw [if_pos hdvd, hone, Bool.false_or, if_pos (decide_eq_true (hcmp.mpr hdvd))]
  · rw [if_neg hdvd, hone, Bool.false_or, if_neg (fun h => hdvd (hcmp.mp (of_decide_eq_true h)))]
    rfl

lemma bnWitnesses_prime_iff (rounds : Nat) :
    bnWitnesses powmod n (bnSubTo bnNull n (bnSetU64 2)) 0 rounds 0 = 1 ↔ rounds = 0 ∨ n.val = 5 ∧ rounds = 1 := by
  cases rounds with
  | zero => exact iff_of_true rfl (.inl rfl)
  | succ rounds =>
    rw [bnWitnesses_prime hpow hp htwo hwords (by decide) htwo]
    by_cases hfive : n.val = 5
    · rw [if_pos (by rw [hfive])]
      cases rounds with
      | zero => exact iff_of_true rfl (.inr ⟨hfive, rfl⟩)
      | succ rounds =>
        rw [bnWitnesses_prime hpow hp htwo hwords (by decide) (by omega), if_neg (by rw [hfive]; decide)]
        omega
    · have hndvd : ¬n.val ∣ 2 * (2 + 0) + 1 :=
        fun hdvd => hfive ((Nat.prime_dvd_prime_iff_eq hp (by decide)).mp hdvd)
      rw [if_neg hndvd]
      omega

end

/-! ## The test -/

/-- The answers that `bn_is_prime` should give for `n`. -/
def PrimalityRight (powmod : BN → BN → BN → BN) (n : BN) (rounds : Nat) : Prop :=
  (n.val.Prime → bnIsPrime powmod n rounds = some 1) ∧
  (2 < n.val → n.val % 2 = 0 → bnIsPrime powmod n rounds = some 0) ∧
  (n.val < 2 → bnIsPrime powmod n rounds = some 0)

/-- **Where `bn_is_prime` is right.** -/
theorem bnIsPrime_right_iff {powmod : BN → BN → BN → BN} (hpow : PowmodExact powmod) {n : BN} (hwords : n.n ≤ 32)
    (rounds : Nat) : PrimalityRight powmod n rounds ↔ ¬n.val.Prime ∨ n.val = 2 ∨ rounds = 0 ∨
      n.val = 5 ∧ rounds = 1 := by
  have hrest : PrimalityRight powmod n rounds ↔ (n.val.Prime → bnIsPrime powmod n rounds = some 1) := by
    refine ⟨And.left, fun hprime => ⟨hprime, fun hgt heven => ?_, bnIsPrime_of_lt powmod rounds⟩⟩
    rw [bnIsPrime_of_gt powmod rounds hgt, if_pos heven]
  rw [hrest]
  by_cases hp : n.val.Prime
  · rcases Nat.eq_or_lt_of_le hp.two_le with htwo | htwo
    · exact iff_of_true (fun _ => bnIsPrime_two powmod rounds htwo.symm) (.inr (.inl htwo.symm))
    · have hodd : ¬n.val % 2 = 0 := by
        have := hp.eq_two_or_odd
        omega
      rw [bnIsPrime_of_gt powmod rounds htwo, if_neg hodd, Option.some_inj,
        bnWitnesses_prime_iff hpow hp htwo hwords]
      constructor
      · exact fun h => .inr (.inr (h hp))
      · rintro (hnot | heq | h) -
        · exact absurd hp hnot
        · omega
        · exact h
  · exact iff_of_true (fun h => absurd h hp) (.inl hp)

/-- 5 passes one round. -/
theorem bnIsPrime_right_five : PrimalityRight exactPowmod (bnSetU64 5) 1 :=
  (bnIsPrime_right_iff exactPowmod_exact (by decide) 1).mpr (.inr (.inr (.inr ⟨bnSetU64_val 5, rfl⟩)))

/-- 3 is rejected in the first round. -/
theorem bnIsPrime_three : (bnSetU64 3).val.Prime ∧ bnIsPrime exactPowmod (bnSetU64 3) 1 = some 0 := by
  have hthree : (bnSetU64 3).val = 3 := bnSetU64_val 3
  have hp : (bnSetU64 3).val.Prime := hthree ▸ Nat.prime_three
  have hgt : 2 < (bnSetU64 3).val := by
    rw [hthree]
    decide
  refine ⟨hp, ?_⟩
  rw [bnIsPrime_of_gt _ _ hgt, if_neg (by rw [hthree]; decide),
    bnWitnesses_prime exactPowmod_exact hp hgt (by decide) (by decide) hgt, if_neg (by rw [hthree]; decide)]

end PigOS.Crypto
