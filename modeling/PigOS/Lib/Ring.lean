import Mathlib.Data.List.Basic

/-!
# `Lib.Ring` — an array that is used round and round

Position `p` is the cell `p % size`. `Holds` says that the cells from a position on hold a list;
what was written is held, and what lies before it is kept, as long as the writer does not come round
to it.
-/

namespace Ring

open List Function

variable {α : Type*} (size : Nat)

def read (mem : Nat → α) (p n : Nat) : List α := (range n).map fun i => mem ((p + i) % size)

def write : List α → Nat → (Nat → α) → Nat → α
  | [], _, mem => mem
  | x :: xs, p, mem => write xs (p + 1) (Function.update mem (p % size) x)

def Holds (mem : Nat → α) (p : Nat) (xs : List α) : Prop := ∀ i (h : i < xs.length), mem ((p + i) % size) = xs[i]

variable {size} {mem : Nat → α} {p q : Nat} {xs ys : List α}

lemma Holds.read (h : Holds size mem p xs) : read size mem p xs.length = xs := by
  apply ext_getElem
  · simp [Ring.read]
  · intro i h₁ h₂
    simp [Ring.read, h i h₂]

lemma holds_mod : Holds size mem (p % size) xs ↔ Holds size mem p xs := by
  simp only [Holds, Nat.mod_add_mod]

lemma holds_append : Holds size mem p (xs ++ ys) ↔ Holds size mem p xs ∧ Holds size mem (p + xs.length) ys := by
  constructor
  · intro h
    constructor
    · intro i hi
      rw [h i (by simp; omega), getElem_append_left hi]
    · intro i hi
      rw [Nat.add_assoc, h (xs.length + i) (by simp; omega), getElem_append_right (by omega)]
      simp
  · rintro ⟨hx, hy⟩ i hi
    rcases Nat.lt_or_ge i xs.length with hlt | hge
    · rw [hx i hlt, getElem_append_left hlt]
    · have hi' : i - xs.length < ys.length := by simp at hi; omega
      have hcell := hy (i - xs.length) hi'
      rw [getElem_append_right hge, ← hcell]
      congr 2
      omega

lemma write_mod : write size xs (p % size) mem = write size xs p mem := by
  induction xs generalizing p mem with
  | nil => rfl
  | cons x xs ih =>
    rw [write, write, Nat.mod_mod, ← ih, Nat.mod_add_mod, ih]

lemma write_of_ne {j : Nat} (h : ∀ i < xs.length, (p + i) % size ≠ j) : write size xs p mem j = mem j := by
  induction xs generalizing p mem with
  | nil => rfl
  | cons x xs ih =>
    rw [write, ih, update_of_ne]
    · exact fun hj => h 0 (by simp) hj.symm
    · intro i hi
      rw [Nat.add_assoc, Nat.add_comm 1 i]
      exact h (i + 1) (by simpa using hi)

lemma mod_ne {a b : Nat} (hlt : a < b) (hround : b < a + size) : b % size ≠ a % size := by
  intro heq
  have hzero := Nat.sub_mod_eq_zero_of_mod_eq heq
  rw [Nat.mod_eq_of_lt (by omega)] at hzero
  omega

lemma holds_write (h : xs.length ≤ size) : Holds size (write size xs p mem) p xs := by
  induction xs generalizing p mem with
  | nil => exact fun i hi => absurd hi (Nat.not_lt_zero i)
  | cons x xs ih =>
    rw [length_cons] at h
    intro i hi
    cases i with
    | zero =>
      rw [write, write_of_ne]
      · exact update_self _ _ _
      · intro i hi
        exact mod_ne (by omega) (by omega)
    | succ i =>
      have hcell := @ih (Function.update mem (p % size) x) (p + 1) (by omega) i (by simpa using hi)
      rw [write, getElem_cons_succ, ← hcell]
      congr 2
      omega

/-- What lies before the writer is kept, as long as it does not come round to it. -/
lemma Holds.write (h : Holds size mem q ys) (hq : q + ys.length ≤ p) (hround : p + xs.length ≤ q + size) :
    Holds size (write size xs p mem) q ys := by
  intro i hi
  rw [write_of_ne, h i hi]
  intro j hj
  exact mod_ne (by omega) (by omega)

end Ring
