import Mathlib.FieldTheory.Finite.Basic
import Mathlib.Data.Nat.ChineseRemainder

/-!
# `Lib.ModArith` — digits and modular powers

Digits are read back from a number, and numbers compared digit by digit. Raising to a power that is
1 modulo `p - 1` and `q - 1` changes nothing modulo `p * q` (`pow_modEq_self_mul`): this is why the
two RSA operations undo each other.
-/

namespace ModArith

open List

variable {b k p q a : Nat}

/-! ## Digits -/

lemma digit_ofDigits (hb : 0 < b) {l : List Nat} (hl : ∀ d ∈ l, d < b) (i : Nat) :
    Nat.ofDigits b l / b ^ i % b = l.getD i 0 := by
  rw [Nat.ofDigits_div_pow_eq_ofDigits_drop i hb l hl]
  cases hdrop : l.drop i with
  | nil =>
    have hlen : l.length ≤ i := drop_eq_nil_iff.mp hdrop
    rw [getD_eq_getElem?_getD, getElem?_eq_none hlen]
    exact Nat.zero_mod b
  | cons d rest =>
    have hget : l[i]? = some d := by
      rw [← head?_drop, hdrop]
      rfl
    have hd : d < b := hl d (mem_of_getElem? hget)
    rw [Nat.ofDigits_cons, Nat.add_mul_mod_self_left, Nat.mod_eq_of_lt hd, getD_eq_getElem?_getD, hget]
    rfl

lemma ofDigits_digits_range (hb : 0 < b) {v : Nat} (hv : v < b ^ k) :
    Nat.ofDigits b ((range k).map (fun i => v / b ^ i % b)) = v := by
  induction k generalizing v with
  | zero =>
    rw [Nat.pow_zero, Nat.lt_one_iff] at hv
    rw [hv]
    rfl
  | succ k ih =>
    have hdiv : v / b < b ^ k := by
      rw [Nat.div_lt_iff_lt_mul hb, ← Nat.pow_succ]
      exact hv
    have hshift : (range k).map (fun i => v / b ^ (i + 1) % b) =
        (range k).map (fun i => v / b / b ^ i % b) := by
      refine map_congr_left (fun i _ => ?_)
      rw [Nat.div_div_eq_div_mul, ← Nat.pow_succ']
    rw [range_succ_eq_map, map_cons, List.map_map]
    show Nat.ofDigits b (v / b ^ 0 % b :: (range k).map (fun i => v / b ^ (i + 1) % b)) = v
    rw [hshift, Nat.ofDigits_cons, ih hdiv, Nat.pow_zero, Nat.div_one]
    exact Nat.mod_add_div v b

lemma eq_iff_digits (hb : 0 < b) {v v' : Nat} (hv : v < b ^ k) (hv' : v' < b ^ k) :
    v = v' ↔ ∀ i < k, v / b ^ i % b = v' / b ^ i % b := by
  refine ⟨fun h i _ => by rw [h], fun h => ?_⟩
  rw [← ofDigits_digits_range hb hv, ← ofDigits_digits_range hb hv']
  exact congrArg _ (map_congr_left (fun i hi => h i (mem_range.mp hi)))

/-! ## Powers -/

/-- Fermat's little theorem, for any base and any positive exponent that is 1 modulo `p - 1`. -/
lemma pow_modEq_self (hp : p.Prime) (hpos : 0 < k) (hk : k ≡ 1 [MOD p - 1]) (m : Nat) : m ^ k ≡ m [MOD p] := by
  have := Fact.mk hp
  obtain ⟨j, rfl⟩ : ∃ j, k = 1 + (p - 1) * j := by
    obtain ⟨j, hj⟩ := (Nat.modEq_iff_dvd' hpos).mp hk.symm
    exact ⟨j, by omega⟩
  rw [← ZMod.natCast_eq_natCast_iff, Nat.cast_pow, pow_add, pow_one, pow_mul]
  by_cases hm : (m : ZMod p) = 0
  · rw [hm, zero_mul]
  · rw [ZMod.pow_card_sub_one_eq_one hm, one_pow, mul_one]

/-- **Why RSA works.** -/
theorem pow_modEq_self_mul (hp : p.Prime) (hq : q.Prime) (hne : p ≠ q)
    (hkp : k ≡ 1 [MOD p - 1]) (hkq : k ≡ 1 [MOD q - 1]) (m : Nat) : m ^ k ≡ m [MOD p * q] := by
  have hpos : 0 < k := by
    -- an exponent 0 would make both primes equal to 2
    rcases Nat.eq_zero_or_pos k with rfl | hpos
    · have hp1 : p - 1 = 1 := Nat.dvd_one.mp ((Nat.modEq_iff_dvd' (Nat.zero_le 1)).mp hkp)
      have hq1 : q - 1 = 1 := Nat.dvd_one.mp ((Nat.modEq_iff_dvd' (Nat.zero_le 1)).mp hkq)
      omega
    · exact hpos
  exact (Nat.modEq_and_modEq_iff_modEq_mul ((Nat.coprime_primes hp hq).mpr hne)).mp
    ⟨pow_modEq_self hp hpos hkp m, pow_modEq_self hq hpos hkq m⟩

/-- Fermat's little theorem, for a base that the prime does not divide. -/
lemma pow_pred_modEq_one {c : Nat} (hq : q.Prime) (hc : ¬q ∣ c) : c ^ (q - 1) ≡ 1 [MOD q] := by
  rw [← Nat.totient_prime hq]
  exact Nat.ModEq.pow_totient ((Nat.Prime.coprime_iff_not_dvd hq).mpr hc).symm

/-- Reducing the exponent modulo `q - 1` matters only when `q` divides the base and a positive
exponent becomes 0. -/
lemma pow_mod_pred_eq_iff (hq : q.Prime) (c d : Nat) :
    c ^ (d % (q - 1)) % q = c ^ d % q ↔ ¬ (q ∣ c ∧ d ≠ 0 ∧ q - 1 ∣ d) := by
  by_cases hc : q ∣ c
  · have hzero : ∀ k, k ≠ 0 → c ^ k % q = 0 := fun k hk => Nat.mod_eq_zero_of_dvd (dvd_pow hc hk)
    have hone : c ^ 0 % q = 1 := Nat.mod_eq_of_lt hq.one_lt
    by_cases hd : d = 0
    · subst hd
      rw [Nat.zero_mod]
      exact iff_of_true rfl (fun h => h.2.1 rfl)
    · by_cases hdvd : q - 1 ∣ d
      · rw [Nat.mod_eq_zero_of_dvd hdvd, hone, hzero d hd]
        exact iff_of_false Nat.one_ne_zero (fun h => h ⟨hc, hd, hdvd⟩)
      · rw [hzero d hd, hzero _ (fun h => hdvd (Nat.dvd_of_mod_eq_zero h))]
        exact iff_of_true rfl (fun h => hdvd h.2.2)
  · refine iff_of_true ?_ (fun h => hc h.1)
    have hpow : c ^ ((q - 1) * (d / (q - 1))) ≡ 1 [MOD q] := by
      have := (pow_pred_modEq_one hq hc).pow (d / (q - 1))
      rwa [← pow_mul, one_pow] at this
    have hsplit : c ^ d = c ^ (d % (q - 1)) * c ^ ((q - 1) * (d / (q - 1))) := by
      rw [← pow_add, Nat.mod_add_div]
    have hdrop := hpow.symm.mul_left (c ^ (d % (q - 1)))
    rw [mul_one, ← hsplit] at hdrop
    exact hdrop

lemma mul_pow_sub_two (hp : p.Prime) (ha : ¬p ∣ a) : a * (a ^ (p - 2) % p) ≡ 1 [MOD p] := by
  have hpow : a * a ^ (p - 2) = a ^ (p - 1) := by
    have := hp.two_le
    rw [← pow_succ', show p - 2 + 1 = p - 1 by omega]
  have hfermat := pow_pred_modEq_one hp ha
  rw [← hpow] at hfermat
  exact ((Nat.mod_modEq (a ^ (p - 2)) p).mul_left a).trans hfermat

lemma pow_sub_two_eq_iff (hp : p.Prime) (ha : ¬p ∣ a) : a ^ (p - 2) % p = p - 2 ↔ p ∣ 2 * a + 1 := by
  have hinv := mul_pow_sub_two hp ha
  have htwo := hp.two_le
  have hsum : a * (p - 2) + 2 * a = a * p := by
    rw [mul_comm 2 a, ← mul_add, Nat.sub_add_cancel htwo]
  constructor
  · intro hx
    rw [hx] at hinv
    have hzero : 2 * a + 1 ≡ a * p [MOD p] := by
      rw [← hsum, add_comm (a * (p - 2))]
      exact hinv.symm.add_left (2 * a)
    exact (Nat.modEq_zero_iff_dvd.mp (hzero.trans (Nat.modEq_zero_iff_dvd.mpr (dvd_mul_left p a))))
  · intro hdvd
    have hone : a * (p - 2) ≡ 1 [MOD p] := by
      refine Nat.ModEq.add_left_cancel (Nat.ModEq.refl (2 * a)) ?_
      rw [add_comm, hsum]
      exact (Nat.modEq_zero_iff_dvd.mpr (dvd_mul_left p a)).trans (Nat.modEq_zero_iff_dvd.mpr hdvd).symm
    have hcancel := Nat.ModEq.cancel_left_of_coprime ((Nat.Prime.coprime_iff_not_dvd hp).mpr ha) (hinv.trans hone.symm)
    rwa [Nat.ModEq, Nat.mod_mod, Nat.mod_eq_of_lt (show p - 2 < p by omega)] at hcancel

lemma mul_pow_half_mod (r b e m : Nat) :
    (if e % 2 = 1 then r * b % m else r) * (b * b % m) ^ (e / 2) % m = r * b ^ e % m := by
  have hsquare : (b * b % m) ^ (e / 2) ≡ b ^ (2 * (e / 2)) [MOD m] := by
    rw [pow_mul, pow_two]
    exact (Nat.mod_modEq (b * b) m).pow _
  have hsplit := Nat.mod_add_div e 2
  split
  · next hodd =>
    have hpow : r * b * b ^ (2 * (e / 2)) = r * b ^ e := by
      rw [mul_assoc, ← pow_succ', Nat.add_comm, ← hodd, hsplit]
    rw [← hpow]
    exact (Nat.mod_modEq (r * b) m).mul hsquare
  · next heven =>
    have hpow : 2 * (e / 2) = e := by omega
    rw [hpow] at hsquare
    exact hsquare.mul_left r

end ModArith
