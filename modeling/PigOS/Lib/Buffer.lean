import PigOS.Lib.Cells

/-!
# `Lib.Buffer` — a buffer of a C program and the writes into it

A `Buffer` is a run of cells without an end, with `top`, one past the highest index that was
written: a function stays inside an array of `n` cells exactly when it leaves `top ≤ n`. `Starts`
says what list a buffer begins with.
-/

/-- Cells, and one past the highest index written so far. -/
structure Buffer (α : Type*) where
  read : Nat → α
  top : Nat

namespace Buffer

open List

variable {α : Type*} {i j : Nat} {xs : List α}

/-- A buffer that nothing was written to. Its cells hold whatever was there before. -/
def fresh (cells : Nat → α) : Buffer α := ⟨cells, 0⟩

def write (b : Buffer α) (i : Nat) (x : α) : Buffer α where
  read := fun j => if j = i then x else b.read j
  top := max b.top (i + 1)

@[simp] lemma read_write_self (b : Buffer α) (i : Nat) (x : α) : (b.write i x).read i = x := if_pos rfl

lemma read_write_of_ne (b : Buffer α) (x : α) (h : j ≠ i) : (b.write i x).read j = b.read j := if_neg h

lemma top_write_le {b : Buffer α} {n : Nat} {x : α} (hb : b.top ≤ n) (hi : i < n) : (b.write i x).top ≤ n :=
  Nat.max_le.mpr ⟨hb, hi⟩

/-- A block that is copied to index `i` and what follows it. -/
def writeAll (b : Buffer α) (i : Nat) (xs : List α) : Buffer α where
  read := Cells.writeList b.read i xs
  top := if xs.isEmpty then b.top else max b.top (i + xs.length)

lemma read_writeAll_of_clear (b : Buffer α) (h : j < i ∨ i + xs.length ≤ j) :
    (b.writeAll i xs).read j = b.read j := by
  show Cells.writeList b.read i xs j = b.read j
  rw [Cells.writeList_apply]
  split
  · rw [getElem?_eq_none (by omega)]
    rfl
  · rfl

lemma read_writeAll (b : Buffer α) (i : Nat) {x : α} (h : xs[j]? = some x) :
    (b.writeAll i xs).read (i + j) = x := by
  show Cells.writeList b.read i xs (i + j) = x
  rw [Cells.writeList_apply, if_pos (Nat.le_add_right i j), Nat.add_sub_cancel_left, h]
  rfl

lemma top_writeAll_le_iff (b : Buffer α) (i : Nat) (hne : xs ≠ []) (n : Nat) :
    (b.writeAll i xs).top ≤ n ↔ b.top ≤ n ∧ i + xs.length ≤ n := by
  show (if xs.isEmpty then b.top else max b.top (i + xs.length)) ≤ n ↔ _
  rw [if_neg (by simpa using hne), Nat.max_le]

/-! ## The text at the front -/

/-- The first cells of the buffer are those of `s`. -/
def Starts (b : Buffer α) (s : List α) : Prop := ∀ i x, s[i]? = some x → b.read i = x

variable {b : Buffer α} {s t : List α} {x y : α}

lemma starts_nil (b : Buffer α) : b.Starts [] := by
  intro i x h
  simp at h

lemma Starts.left (h : b.Starts (s ++ t)) : b.Starts s := by
  intro i x hx
  apply h i x
  rw [getElem?_append_left (List.getElem?_eq_some_iff.mp hx).1]
  exact hx

lemma Starts.read_append (h : b.Starts (s ++ x :: t)) : b.read s.length = x := by
  apply h
  simp

lemma Starts.write_of_le (h : b.Starts s) (hi : s.length ≤ i) (x : α) : (b.write i x).Starts s := by
  intro j y hy
  have hj : j < s.length := (List.getElem?_eq_some_iff.mp hy).1
  rw [read_write_of_ne b x (by omega)]
  exact h j y hy

lemma Starts.set (h : b.Starts (s ++ y :: t)) (x : α) : (b.write s.length x).Starts (s ++ x :: t) := by
  intro j z hz
  by_cases hj : j = s.length
  · subst hj
    rw [getElem?_append_right (Nat.le_refl _), Nat.sub_self] at hz
    rw [read_write_self]
    exact Option.some.inj hz
  · rw [read_write_of_ne b x hj]
    apply h j z
    rw [← hz]
    rcases Nat.lt_or_gt_of_ne hj with hlt | hgt
    · rw [getElem?_append_left hlt, getElem?_append_left hlt]
    · obtain ⟨k, rfl⟩ : ∃ k, j = s.length + (k + 1) := ⟨j - s.length - 1, by omega⟩
      rw [getElem?_append_right (by omega), getElem?_append_right (by omega), Nat.add_sub_cancel_left,
        getElem?_cons_succ, getElem?_cons_succ]

lemma Starts.write_end (h : b.Starts s) (x : α) : (b.write s.length x).Starts (s ++ [x]) := by
  intro j z hz
  rcases Nat.lt_or_ge j s.length with hj | hj
  · rw [getElem?_append_left hj] at hz
    exact h.write_of_le (Nat.le_refl _) x j z hz
  · have hlt : j < (s ++ [x]).length := (List.getElem?_eq_some_iff.mp hz).1
    rw [length_append, length_singleton] at hlt
    obtain rfl : j = s.length := by omega
    rw [getElem?_append_right hj, Nat.sub_self] at hz
    rw [read_write_self]
    exact Option.some.inj hz

end Buffer
