import Mathlib.Data.Nat.Digits.Lemmas
import PigOS.Kernel.Mem

/-!
# `Kernel.Correctness.Numbers` — which numbers are written as they are

The loop writes the numeral of every positive number that the array has room for (`digitLoop_eq`).
The least `int` is its own negative, and each of its remainders is taken off the digit zero.
-/

namespace PigOS.Kernel

open List

/-- The canonical text of a number. -/
def numeral (n : Int) : List Char := (if n < 0 then ['-'] else []) ++ Nat.toDigits 10 n.natAbs

lemma digitLoop_eq {digit : Int → Option Char} {b room n : Nat}
    (hdigit : ∀ d : Nat, d < b → digit d = some (Nat.digitChar d))
    (hb : 1 < b) (hpos : 0 < n) (hroom : n < b ^ room) :
    digitLoop digit b room n = some (Nat.toDigits b n).reverse := by
  induction room generalizing n with
  | zero => simp at hroom; omega
  | succ room ih =>
    have hmod := hdigit (n % b) (Nat.mod_lt n (by omega))
    rw [digitLoop, if_neg (by omega), ← Int.ofNat_tmod, ← Int.ofNat_tdiv, hmod]
    rcases Nat.lt_or_ge n b with hlt | hge
    · rw [Nat.div_eq_of_lt hlt, Nat.mod_eq_of_lt hlt, Nat.toDigits_of_lt_base hlt]
      cases room <;> rfl
    · rw [ih (Nat.div_pos hge (by omega)) (Nat.div_lt_of_lt_mul (by rwa [Nat.pow_succ, Nat.mul_comm] at hroom)),
        Nat.toDigits_of_base_le hb hge, reverse_append]
      rfl

lemma decDigit_eq : ∀ d : Nat, d < 10 → decDigit d = some (Nat.digitChar d) := by decide

lemma hexDigit_eq : ∀ d : Nat, d < 16 → hexDigit d = some (Nat.digitChar d) := by decide

variable {n : Int32}

lemma toInt_neg_of_ne (h : n ≠ Int32.minValue) : (-n).toInt = -n.toInt := by
  have hlow := n.le_toInt
  have hhigh := n.toInt_lt
  have hne : n.toInt ≠ -2 ^ 31 := fun heq => h (Int32.toInt_inj.mp heq)
  rw [Int32.toInt_neg]
  exact Int.bmod_eq_of_le (by omega) (by omega)

lemma toInt_magnitude (h : n ≠ Int32.minValue) : (if n < 0 then -n else n).toInt = n.toInt.natAbs := by
  split
  next hneg =>
    rw [toInt_neg_of_ne h]
    have := Int32.lt_iff_toInt_lt.mp hneg
    simp at this
    omega
  next hnonneg =>
    have := Int32.lt_iff_toInt_lt.not.mp hnonneg
    simp at this
    omega

lemma signedText_eq {size : Nat} (hsize : 11 ≤ size) (h : n ≠ Int32.minValue) :
    signedText size n = some (numeral n.toInt) := by
  unfold signedText
  by_cases hzero : n = 0
  · rw [if_pos hzero, hzero]
    rfl
  · have hne : n.toInt ≠ 0 := fun heq => hzero (Int32.toInt_inj.mp heq)
    have hlow := n.le_toInt
    have hhigh := n.toInt_lt
    have hlen : (Nat.toDigits 10 n.toInt.natAbs).length ≤ 10 :=
      (Nat.length_toDigits_le_iff (by decide) (by decide)).mpr (by omega)
    have hroom : n.toInt.natAbs < 10 ^ size := calc
      n.toInt.natAbs < 10 ^ 11 := by omega
      _ ≤ 10 ^ size := Nat.pow_le_pow_right (by decide) hsize
    have hloop : digitLoop decDigit 10 size n.toInt.natAbs = some (Nat.toDigits 10 n.toInt.natAbs).reverse :=
      digitLoop_eq decDigit_eq (by decide) (Int.natAbs_pos.mpr hne) hroom
    have hsign : n < 0 ↔ n.toInt < 0 := Int32.lt_iff_toInt_lt
    rw [if_neg hzero, toInt_magnitude h, hloop]
    unfold numeral
    by_cases hneg : n < 0
    · simp [hneg, hsign.mp hneg]
      omega
    · simp [hneg, hsign.not.mp hneg]
      omega

lemma kuia_eq {base : Nat} (hb : 1 < base) (hle : base ≤ 16) (hroom : 2 ^ 64 ≤ base ^ 20) (n : UInt64) :
    kuia n base = some (Nat.toDigits base n.toNat) := by
  unfold kuia
  split
  next hzero =>
    rw [hzero]
    exact (congrArg some (Nat.toDigits_of_lt_base (by omega : 0 < base))).symm
  next hne =>
    have hpos : 0 < n.toNat := Nat.pos_of_ne_zero fun heq => hne (UInt64.toNat_inj.mp heq)
    have hdigit : ∀ d : Nat, d < base → hexDigit d = some (Nat.digitChar d) := fun d hd => hexDigit_eq d (by omega)
    rw [digitLoop_eq hdigit hb hpos (n.toNat_lt.trans_le hroom)]
    simp

/-! ## Numbers that are not negative -/

lemma chr_digit {d : Nat} (h : d < 10) : chr (Char.ofNat (48 + d)) = chr (Nat.digitChar d) := by
  have hdigits : ∀ d < 10, chr (Char.ofNat (48 + d)) = chr (Nat.digitChar d) := by decide
  exact hdigits d h

lemma kiaDigits_reverse {k n : Nat} (hpos : 0 < n) (hk : n ≤ k) :
    (kiaDigits k n).reverse = (Nat.toDigits 10 n).map chr := by
  induction k generalizing n with
  | zero => omega
  | succ k ih =>
    rw [kiaDigits, if_neg (Nat.ne_of_gt hpos), reverse_cons, chr_digit (Nat.mod_lt n (by decide))]
    by_cases hlt : n < 10
    · rw [Nat.toDigits_of_lt_base hlt, Nat.div_eq_of_lt hlt, Nat.mod_eq_of_lt hlt]
      cases k with
      | zero => rfl
      | succ k => rfl
    · rw [Nat.toDigits_of_base_le (by decide) (Nat.not_lt.mp hlt), map_append, ih (by omega) (by omega)]
      rfl

lemma kiaNat_eq (n : Nat) : kiaNat n = (Nat.toDigits 10 n).map chr := by
  unfold kiaNat
  split
  next hzero => rw [hzero]; rfl
  next hpos => exact kiaDigits_reverse (Nat.pos_of_ne_zero hpos) (Nat.le_refl n)

/-- The C string is the one that `kia` writes. -/
theorem kia_ofNat {n : Nat} (h : n < 2 ^ 31) : (kia (Int32.ofNat n)).map (map chr) = some (kiaNat n) := by
  have htoInt : (Int32.ofNat n).toInt = n := Int32.toInt_ofNat_of_lt h
  have hmin : Int32.ofNat n ≠ Int32.minValue := by
    intro heq
    rw [heq] at htoInt
    have hneg : Int32.minValue.toInt < 0 := by decide
    omega
  have hkia : kia (Int32.ofNat n) = some (Nat.toDigits 10 n) := by
    rw [kia, signedText_eq (by decide) hmin, htoInt, numeral, if_neg (by omega), nil_append, Int.natAbs_natCast]
  rw [hkia, kiaNat_eq]
  rfl

/-! ## The result -/

/-- **Numbers are written as they are**, by `kia` and `vitoa` but for the least `int`, and by `kuia`
to base 10 and 16. -/
theorem formats_iff (n : Int32) :
    ((vitoa n).map (·.1) = kia n ∧ kia n = some (numeral n.toInt) ∧
      ∀ m : UInt64, kuia m 10 = some (Nat.toDigits 10 m.toNat) ∧ kuia m 16 = some (Nat.toDigits 16 m.toNat)) ↔
    n ≠ Int32.minValue := by
  constructor
  · rintro ⟨-, hkia, -⟩ rfl
    exact absurd hkia (by decide)
  · intro h
    have hkia : kia n = some (numeral n.toInt) := signedText_eq (by decide) h
    have hvitoa : (vitoa n).map (·.1) = some (numeral n.toInt) := by
      rw [vitoa, signedText_eq (by decide) h]
      rfl
    refine ⟨hvitoa.trans hkia.symm, hkia, fun m => ⟨?_, ?_⟩⟩
    · exact kuia_eq (by decide) (by decide) (by decide) m
    · exact kuia_eq (by decide) (by decide) (by decide) m

/-- The least `int` is written with the characters below the digits. -/
theorem kia_min : kia Int32.minValue = some "-./,),(-*,(".toList ∧
    numeral Int32.minValue.toInt = "-2147483648".toList := by
  decide

end PigOS.Kernel
