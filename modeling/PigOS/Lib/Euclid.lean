import Mathlib.Algebra.Order.Ring.Int
import Mathlib.Data.Int.ModEq
import Mathlib.Tactic.Ring

/-!
# `Lib.Euclid` — the extended Euclidean algorithm, and how large its coefficients get

The coefficients alternate in sign, and the invariant `Inv` bounds them through
`r0 * |t1| + r1 * |t0| = m`. So the last one is the inverse of `a` if that is in the lower half of
the residues, and the inverse less `m` if not (`Inv.inverse`). `wrapped_iff` is for a coefficient
that is kept modulo `B`, as in a machine word.
-/

namespace Euclid

structure State where
  r0 : Nat
  r1 : Nat
  t0 : Int
  t1 : Int

def start (a m : Nat) : State := ⟨m, a, 0, 1⟩

def step (s : State) : State where
  r0 := s.r1
  r1 := s.r0 % s.r1
  t0 := s.t1
  t1 := s.t0 - (s.r0 / s.r1 : Nat) * s.t1

structure Inv (a m : Nat) (s : State) : Prop where
  lt : s.r1 < s.r0
  gcd : Nat.gcd s.r0 s.r1 = Nat.gcd m a
  coeff₀ : s.t0 * a ≡ s.r0 [ZMOD m]
  coeff₁ : s.t1 * a ≡ s.r1 [ZMOD m]
  sign : 0 < s.t1 ∧ s.t0 ≤ 0 ∨ s.t1 < 0 ∧ 0 < s.t0
  size : s.r0 * s.t1.natAbs + s.r1 * s.t0.natAbs = m
  /-- the last quotient is at least 2 -/
  last : s.r1 = 0 → 0 < s.t0 ∧ 2 * s.t0.natAbs ≤ s.t1.natAbs ∨ s.t0 < 0 ∧ 2 * s.t0.natAbs < s.t1.natAbs

variable {a m : Nat} {s : State}

lemma inv_start (ha : 0 < a) (h : a < m) : Inv a m (start a m) where
  lt := h
  gcd := rfl
  coeff₀ := by
    show (0 : Int) * a ≡ (m : Nat) [ZMOD m]
    rw [zero_mul]
    exact (Int.modEq_zero_iff_dvd.mpr (dvd_refl _)).symm
  coeff₁ := by
    show (1 : Int) * a ≡ a [ZMOD m]
    rw [one_mul]
  sign := .inl ⟨Int.one_pos, Int.le_refl 0⟩
  size := by
    show m * 1 + a * 0 = m
    rw [mul_one, mul_zero, add_zero]
  last := fun hzero => absurd hzero (Nat.ne_of_gt ha)

lemma natAbs_step (q : Nat) {t₀ t₁ : Int} (h : 0 < t₁ ∧ t₀ ≤ 0 ∨ t₁ < 0 ∧ 0 < t₀) :
    (t₀ - q * t₁).natAbs = t₀.natAbs + q * t₁.natAbs := by
  have hmul : (q * t₁).natAbs = q * t₁.natAbs := by rw [Int.natAbs_mul, Int.natAbs_natCast]
  rcases h with ⟨hpos, hle⟩ | ⟨hneg, hlt⟩
  · have hprod : 0 ≤ (q : Int) * t₁ := mul_nonneg (Int.natCast_nonneg q) (Int.le_of_lt hpos)
    omega
  · have hprod : (q : Int) * t₁ ≤ 0 := mul_nonpos_of_nonneg_of_nonpos (Int.natCast_nonneg q) (Int.le_of_lt hneg)
    omega

/-- **A step keeps the invariant.** -/
theorem Inv.step (h : Inv a m s) (hr : s.r1 ≠ 0) : Inv a m (step s) := by
  have hpos : 0 < s.r1 := Nat.pos_of_ne_zero hr
  have hq : 1 ≤ s.r0 / s.r1 := (Nat.one_le_div_iff hpos).mpr (Nat.le_of_lt h.lt)
  have hdiv := Nat.mod_add_div s.r0 s.r1
  have habs := natAbs_step (s.r0 / s.r1) h.sign
  refine ⟨Nat.mod_lt _ hpos, ?_, h.coeff₁, ?_, ?_, ?_, ?_⟩
  · rw [← h.gcd, Nat.gcd_comm s.r0, Nat.gcd_rec s.r1 s.r0, Nat.gcd_comm]
    rfl
  · have hsub := h.coeff₀.sub (h.coeff₁.mul_left (s.r0 / s.r1 : Nat))
    have hrem : (s.r0 : Int) - (s.r0 / s.r1 : Nat) * s.r1 = (s.r0 % s.r1 : Nat) := by
      have hcast : ((s.r0 % s.r1 : Nat) : Int) + s.r1 * (s.r0 / s.r1 : Nat) = s.r0 := by exact_mod_cast hdiv
      rw [← hcast]
      ring
    rw [hrem] at hsub
    show (s.t0 - (s.r0 / s.r1 : Nat) * s.t1) * a ≡ (s.r0 % s.r1 : Nat) [ZMOD m]
    rw [sub_mul, mul_assoc]
    exact hsub
  · -- the new coefficient has the sign of the older one
    show 0 < s.t0 - (s.r0 / s.r1 : Nat) * s.t1 ∧ s.t1 ≤ 0 ∨ s.t0 - (s.r0 / s.r1 : Nat) * s.t1 < 0 ∧ 0 < s.t1
    rcases h.sign with ⟨hpos₁, hle⟩ | ⟨hneg, hlt⟩
    · have hprod : 0 < ((s.r0 / s.r1 : Nat) : Int) * s.t1 := mul_pos (by omega) hpos₁
      exact .inr ⟨by omega, hpos₁⟩
    · have hprod : ((s.r0 / s.r1 : Nat) : Int) * s.t1 < 0 := mul_neg_of_pos_of_neg (by omega) hneg
      exact .inl ⟨by omega, Int.le_of_lt hneg⟩
  · calc s.r1 * (s.t0 - (s.r0 / s.r1 : Nat) * s.t1).natAbs + s.r0 % s.r1 * s.t1.natAbs
        = (s.r0 % s.r1 + s.r1 * (s.r0 / s.r1)) * s.t1.natAbs + s.r1 * s.t0.natAbs := by
          rw [habs]
          ring
      _ = m := by rw [hdiv, h.size]
  · intro hzero
    have hzero : s.r0 % s.r1 = 0 := hzero
    have hq : 2 ≤ s.r0 / s.r1 := by
      by_contra hone
      have hone : s.r0 / s.r1 = 1 := by omega
      rw [hzero, hone] at hdiv
      have := h.lt
      omega
    have htwice : 2 * s.t1.natAbs ≤ s.r0 / s.r1 * s.t1.natAbs := Nat.mul_le_mul_right _ hq
    show 0 < s.t1 ∧ 2 * s.t1.natAbs ≤ (s.t0 - (s.r0 / s.r1 : Nat) * s.t1).natAbs ∨
      s.t1 < 0 ∧ 2 * s.t1.natAbs < (s.t0 - (s.r0 / s.r1 : Nat) * s.t1).natAbs
    rw [habs]
    rcases h.sign with ⟨hpos₁, -⟩ | ⟨hneg, hlt⟩
    · exact .inl ⟨hpos₁, by omega⟩
    · exact .inr ⟨hneg, by omega⟩

/-- **The last coefficient**, for coprime numbers. -/
theorem Inv.inverse (h : Inv a m s) (hend : s.r1 = 0) (hco : Nat.gcd m a = 1) :
    ∃ y, y < m ∧ a * y ≡ 1 [MOD m] ∧ (s.t0 = y ∧ 2 * y ≤ m ∨ s.t0 = (y : Int) - m ∧ m < 2 * y) := by
  have hr₀ : s.r0 = 1 := by
    have hgcd := h.gcd
    rw [hend, Nat.gcd_zero_right, hco] at hgcd
    exact hgcd
  have hsize : s.t1.natAbs = m := by
    have hsize := h.size
    rwa [hr₀, hend, one_mul, zero_mul, add_zero] at hsize
  have hcoeff : s.t0 * a ≡ 1 [ZMOD m] := by
    have hcoeff := h.coeff₀
    rwa [hr₀, Nat.cast_one] at hcoeff
  have hlast := h.last hend
  rw [hsize] at hlast
  rcases hlast with ⟨hpos, hle⟩ | ⟨hneg, hlt⟩
  · obtain ⟨y, hy⟩ := Int.eq_ofNat_of_zero_le (Int.le_of_lt hpos)
    refine ⟨y, by omega, ?_, .inl ⟨hy, by omega⟩⟩
    rw [← Int.natCast_modEq_iff, Nat.cast_mul, Nat.cast_one, mul_comm, ← hy]
    exact hcoeff
  · obtain ⟨y, hy⟩ := Int.eq_ofNat_of_zero_le (show 0 ≤ s.t0 + m by omega)
    have ht₀ : s.t0 = (y : Int) - m := by omega
    refine ⟨y, by omega, ?_, .inr ⟨ht₀, by omega⟩⟩
    rw [← Int.natCast_modEq_iff, Nat.cast_mul, Nat.cast_one, mul_comm, ← hy, add_mul]
    have hmul : (m : Int) * a ≡ 0 [ZMOD m] := Int.modEq_zero_iff_dvd.mpr (dvd_mul_right _ _)
    have hsum := hcoeff.add hmul
    rwa [add_zero] at hsum

lemma inverse_unique {x y : Nat} (hx : x < m) (hy : y < m) (hax : a * x ≡ 1 [MOD m]) (hay : a * y ≡ 1 [MOD m]) :
    x = y := by
  have hco : Nat.gcd m a = 1 := by
    rw [Nat.gcd_comm]
    exact Nat.coprime_of_mul_modEq_one x hax
  have hmod : x ≡ y [MOD m] := (hax.trans hay.symm).cancel_left_of_coprime hco
  rwa [Nat.ModEq, Nat.mod_eq_of_lt hx, Nat.mod_eq_of_lt hy] at hmod

/-- **The coefficient modulo `B`** is the inverse exactly when that is below `B` and in the lower
half, or `m` is `B`. -/
theorem Inv.wrapped_iff (h : Inv a m s) (hend : s.r1 = 0) (hco : Nat.gcd m a = 1) (hm : 2 ≤ m) {B v : Nat}
    (hv : v < B) (hvt : (v : Int) ≡ s.t0 [ZMOD B]) :
    v < m ∧ a * v ≡ 1 [MOD m] ↔ ∃ x, a * x ≡ 1 [MOD m] ∧ x < B ∧ (2 * x ≤ m ∨ m = B) := by
  obtain ⟨y, hy, hay, ht₀⟩ := h.inverse hend hco
  constructor
  · rintro ⟨hvm, hav⟩
    obtain rfl : v = y := inverse_unique hvm hy hav hay
    refine ⟨v, hav, hv, ?_⟩
    rcases ht₀ with ⟨-, hhalf⟩ | ⟨ht₀, hhalf⟩
    · exact .inl hhalf
    · -- `v` and `v - m` agree modulo `B`
      have hdvd : B ∣ m := by
        rw [ht₀] at hvt
        have hdvd := hvt.symm.dvd
        rw [sub_sub_cancel] at hdvd
        exact_mod_cast hdvd
      obtain ⟨c, rfl⟩ := hdvd
      have hc : c = 1 := by
        by_contra hne
        rcases Nat.lt_or_ge c 2 with hlt | hge
        · obtain rfl : c = 0 := by omega
          omega
        · have := Nat.mul_le_mul_left B hge
          omega
      exact .inr (by rw [hc, mul_one])
  · rintro ⟨x, hax, hxB, hx⟩
    obtain rfl : x = y := inverse_unique (by omega) hy hax hay
    have hveq : v = x := by
      have hB : (v : Int) ≡ x [ZMOD B] := by
        rcases ht₀ with ⟨ht₀, -⟩ | ⟨ht₀, hhalf⟩
        · rwa [ht₀] at hvt
        · obtain rfl : m = B := hx.resolve_left (by omega)
          rw [ht₀] at hvt
          have hzero : (m : Int) ≡ 0 [ZMOD m] := Int.modEq_zero_iff_dvd.mpr (dvd_refl _)
          have hsub : (x : Int) - m ≡ x - 0 [ZMOD m] := (Int.ModEq.refl _).sub hzero
          rw [sub_zero] at hsub
          exact hvt.trans hsub
      have hnat : v ≡ x [MOD B] := Int.natCast_modEq_iff.mp hB
      rwa [Nat.ModEq, Nat.mod_eq_of_lt hv, Nat.mod_eq_of_lt hxB] at hnat
    rw [hveq]
    exact ⟨hy, hax⟩

end Euclid
