import Mathlib.Data.Fin.Basic
import Mathlib.Tactic.Ring
import Mathlib.Algebra.Order.Ring.Int

/-!
# `Lib.Reversal` — sequences that agree with their reversal by groups, some places off

Place `j` of group `i` is compared with place `j - s` of group `n - 1 - i`, or of the group before
it. Going on in this way (`back`), one is at the same place of another group after 8 steps, and so
leaves the `n` groups sooner or later: a sequence that has one value outside is constant
(`eq_of_back`).
-/

namespace Reversal

open Function

/-- A function that `f` keeps inside `P` and that has one value outside has it wherever `f` leads
out. -/
lemma eq_of_leaves {α β : Type} {P : α → Prop} {c : α → β} {f : α → α} {z : β} (hout : ∀ x, ¬P x → c x = z)
    (hstep : ∀ x, P x → c x = c (f x)) {k : Nat} {x : α} (h : ¬P (f^[k] x)) : c x = z := by
  induction k generalizing x with
  | zero => exact hout x h
  | succ k ih =>
    by_cases hx : P x
    · rw [hstep x hx]
      exact ih h
    · exact hout x hx

/-- Whether place `j` is compared with one of the group before. -/
def borrow (s j : Fin 8) : Int := if s ≤ j then 0 else 1

/-- The group and the place in it that a place is compared with. -/
def back (n : Int) (s : Fin 8) (x : Int × Fin 8) : Int × Fin 8 := (n - 1 - x.1 - borrow s x.2, x.2 - s)

/-- The groups that one has moved by after 8 steps. -/
def drift (s j : Fin 8) : Int :=
  borrow s j - borrow s (j - s) + (borrow s (j - s - s) - borrow s (j - s - s - s))
    + (borrow s (j - s - s - s - s) - borrow s (j - s - s - s - s - s))
    + (borrow s (j - s - s - s - s - s - s) - borrow s (j - s - s - s - s - s - s - s))

lemma drift_ne_zero : ∀ s j : Fin 8, s ≠ 0 → drift s j ≠ 0 := by
  decide

lemma sub_eight : ∀ s j : Fin 8, j - s - s - s - s - s - s - s - s = j := by
  decide

lemma back_eight (n : Int) (s : Fin 8) (x : Int × Fin 8) : (back n s)^[8] x = (x.1 + drift s x.2, x.2) := by
  refine Prod.ext ?_ (sub_eight s x.2)
  show n - 1 - (n - 1 - (n - 1 - (n - 1 - (n - 1 - (n - 1 - (n - 1 - (n - 1 - x.1 - borrow s x.2)
    - borrow s (x.2 - s)) - borrow s (x.2 - s - s)) - borrow s (x.2 - s - s - s)) - borrow s (x.2 - s - s - s - s))
    - borrow s (x.2 - s - s - s - s - s)) - borrow s (x.2 - s - s - s - s - s - s))
    - borrow s (x.2 - s - s - s - s - s - s - s) = x.1 + drift s x.2
  rw [drift]
  ring

lemma back_eight_iterate (n : Int) (s : Fin 8) (x : Int × Fin 8) (k : Nat) :
    (back n s)^[8 * k] x = (x.1 + k * drift s x.2, x.2) := by
  rw [iterate_mul]
  induction k with
  | zero =>
    rw [iterate_zero, id, Nat.cast_zero, zero_mul, add_zero]
  | succ k ih =>
    rw [iterate_succ_apply', ih, back_eight, Nat.cast_succ]
    refine Prod.ext ?_ rfl
    ring

/-- **A sequence that agrees with its reversal some places off is constant.** -/
theorem eq_of_back {β : Type} {n : Nat} {s : Fin 8} (hs : s ≠ 0) {c : Int × Fin 8 → β} {z : β}
    (hout : ∀ x, ¬(0 ≤ x.1 ∧ x.1 < (n : Int)) → c x = z)
    (hstep : ∀ x, 0 ≤ x.1 ∧ x.1 < (n : Int) → c x = c (back n s x)) (x : Int × Fin 8) : c x = z := by
  by_cases hx : 0 ≤ x.1 ∧ x.1 < (n : Int)
  · refine eq_of_leaves hout hstep (k := 8 * n) ?_
    rw [back_eight_iterate]
    have hdrift := drift_ne_zero s x.2 hs
    have hn : (0 : Int) ≤ n := Int.natCast_nonneg n
    rintro ⟨hlow, hhigh⟩
    rcases Int.lt_or_gt_of_ne hdrift with hneg | hpos
    · have hmul := Int.mul_le_mul_of_nonneg_left (show drift s x.2 ≤ -1 by omega) hn
      omega
    · have hmul := Int.mul_le_mul_of_nonneg_left (show 1 ≤ drift s x.2 by omega) hn
      omega
  · exact hout x hx

end Reversal
