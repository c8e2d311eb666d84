import PigOS.Crypto.Correctness.Words
import PigOS.Crypto.BignumMod

/-!
# `Crypto.Correctness.RsaGen` — does `rsa_gen_key` end?

A round of `bn_gen_prime` fills the words that count with constants (`bnCandidate_val`), so that it
tries the same number over and over. With sums of 32 bits that wrap around it is divisible by 47
(`bnGenPrime_none`). If it were a prime, `q` would be `p` in every round of the second loop
(`rsaOtherPrime_none`).
-/

namespace PigOS.Crypto

/-! ## The candidate -/

lemma bnCandidate_val (bits : Nat) (p p' : BN) : (bnCandidate bits p).val = (bnCandidate bits p').val := by
  refine wordsVal_congr (fun i hi => ?_)
  have hcount : ¬(bits + 63) / 64 ≤ i := Nat.not_le.mpr hi
  show (if (bits + 63) / 64 ≤ i then p.w i else _) = if (bits + 63) / 64 ≤ i then p'.w i else _
  rw [if_neg hcount, if_neg hcount]

lemma bnGenPrime_val {isPrime : BN → Nat → Bool} {bits rounds : Nat} {p q : BN}
    (h : bnGenPrime isPrime bits rounds p = some q) : isPrime q 8 = true ∧ q.val = (bnCandidate bits bnNull).val := by
  induction rounds generalizing p with
  | zero => exact nomatch h
  | succ rounds ih =>
    rw [bnGenPrime] at h
    split at h
    · next hprime =>
      obtain rfl := Option.some.inj h
      exact ⟨hprime, bnCandidate_val bits p bnNull⟩
    · exact ih h

/-! ## The loops -/

/-- The operations are exact. -/
structure GenOps.Exact (ops : GenOps) : Prop where
  isPrime : ∀ n rounds, ops.isPrime n rounds = true ↔ n.val.Prime
  mul : ∀ r a b, (ops.mul r a b).val = a.val * b.val
  modinv : ∀ r a m, 0 < a.val → a.val < m.val →
    (a.val.Coprime m.val → (ops.modinv r a m).1 = true ∧ a.val * (ops.modinv r a m).2.val ≡ 1 [MOD m.val]) ∧
    (¬a.val.Coprime m.val → ops.modinv r a m = (false, r))

lemma candidate_dvd : 47 ∣ (bnCandidate (rsaKeyBits / 2) bnNull).val := by
  decide +kernel

/-- With an exact test, the search for `p` does not end. -/
lemma bnGenPrime_none {ops : GenOps} (hops : ops.Exact) (rounds : Nat) (p : BN) :
    bnGenPrime ops.isPrime (rsaKeyBits / 2) rounds p = none := by
  rw [Option.eq_none_iff_forall_ne_some]
  intro q hq
  obtain ⟨hprime, hval⟩ := bnGenPrime_val hq
  rw [hops.isPrime, hval] at hprime
  have heq := (Nat.prime_dvd_prime_iff_eq (by decide) hprime).mp candidate_dvd
  exact absurd heq (by decide +kernel)

/-- With a test that lets the candidate pass, the search for `q` does not end. -/
lemma rsaOtherPrime_none (ops : GenOps) {p : BN} (hp : p.val = (bnCandidate (rsaKeyBits / 2) bnNull).val)
    (rounds : Nat) (q : BN) : rsaOtherPrime ops p rounds q = none := by
  induction rounds generalizing q with
  | zero => rfl
  | succ rounds ih =>
    rw [rsaOtherPrime]
    cases hgen : bnGenPrime ops.isPrime (rsaKeyBits / 2) rounds q with
    | none => rfl
    | some q' =>
      have hsame : bnCmp p q' = 0 := bnCmp_zero_iff.mpr (hp.trans (bnGenPrime_val hgen).2.symm)
      rw [Option.bind_eq_bind, Option.bind_some, if_neg (not_not.mpr hsame)]
      exact ih q'

lemma rsaGenKey_none (ops : GenOps) (rounds : Nat) (key : RsaKey) : rsaGenKey ops rounds key = none := by
  cases rounds with
  | zero => rfl
  | succ rounds =>
    rw [rsaGenKey]
    cases hgen : bnGenPrime ops.isPrime (rsaKeyBits / 2) rounds key.p with
    | none => rfl
    | some p =>
      rw [Option.bind_eq_bind, Option.bind_some, rsaOtherPrime_none ops (bnGenPrime_val hgen).2]
      rfl

/-! ## The key -/

/-- Two primes, their product, and exponents that undo each other. -/
structure RsaKey.Usable (key : RsaKey) : Prop where
  prime_p : key.p.val.Prime
  prime_q : key.q.val.Prime
  ne : key.p.val ≠ key.q.val
  n_eq : key.n.val = key.p.val * key.q.val
  ed : key.e.val * key.d.val ≡ 1 [MOD (key.p.val - 1) * (key.q.val - 1)]

/-- **`rsa_gen_key` never ends with a usable key**, whatever `*key` held and the operations do. -/
theorem rsaGenKey_never (ops : GenOps) (key : RsaKey) :
    ¬∃ rounds key', rsaGenKey ops rounds key = some key' ∧ key'.Usable := by
  rintro ⟨rounds, key', hgen, -⟩
  rw [rsaGenKey_none] at hgen
  exact nomatch hgen

/-- The operations as they are on the values. -/
def exactGenOps : GenOps where
  isPrime := fun n _ => decide n.val.Prime
  mul := fun r a b => r.store (a.val * b.val)
  modinv := fun r a m =>
    if a.val.Coprime m.val then (true, r.store (Nat.gcdA a.val m.val % m.val).toNat) else (false, r)

lemma mul_gcdA_modEq {a m : Nat} (h : a.Coprime m) (hm : 0 < m) : a * (Nat.gcdA a m % m).toNat ≡ 1 [MOD m] := by
  have hnonneg : 0 ≤ Nat.gcdA a m % (m : Int) := Int.emod_nonneg _ (by omega)
  have hbezout := Int.gcd_a_modEq a m
  rw [h] at hbezout
  rw [← Int.natCast_modEq_iff, Nat.cast_mul, Int.toNat_of_nonneg hnonneg]
  exact ((Int.mod_modEq _ _).mul_left _).trans hbezout

lemma exactGenOps_exact : exactGenOps.Exact where
  isPrime := fun n _ => decide_eq_true_iff
  mul := fun _ _ _ => BN.val_store _ _
  modinv := by
    intro r a m ha ham
    constructor
    · intro hco
      have hinv : exactGenOps.modinv r a m = (true, r.store (Nat.gcdA a.val m.val % m.val).toNat) := if_pos hco
      rw [hinv, BN.val_store]
      exact ⟨rfl, mul_gcdA_modEq hco (by omega)⟩
    · exact fun hco => if_neg hco

/-- Even with exact operations, from a key that is all zeros. -/
theorem rsaGenKey_exact_never : exactGenOps.Exact ∧
      ∀ rounds, rsaGenKey exactGenOps rounds ⟨bnNull, bnNull, bnNull, bnNull, bnNull, bnNull, bnNull, bnNull⟩ = none :=
  ⟨exactGenOps_exact, fun rounds => rsaGenKey_none exactGenOps rounds _⟩

end PigOS.Crypto
