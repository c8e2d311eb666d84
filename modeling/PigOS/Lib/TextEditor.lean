import Mathlib.Data.List.Basic

/-!
# `Lib.TextEditor` — a text with a cursor, as a reference for editors

A character goes in where the cursor is, one goes out before or behind it, and the cursor moves by
one, or to the same column of the line above or below and no further than its end. `IsRow` is for
programs that find the ends of lines by looking for separators.
-/

namespace TextEditor

open List

variable {α : Type*}

/-- The positions from `i` to `e` are those of one line. -/
structure IsRow (nl : α) (t : List α) (i e : Nat) : Prop where
  le : i ≤ e
  le_length : e ≤ t.length
  first : i = 0 ∨ ∃ k, i = k + 1 ∧ t[k]? = some nl
  inside : ∀ j, i ≤ j → j < e → t[j]? ≠ some nl
  last : e = t.length ∨ t[e]? = some nl

lemma IsRow.not_mem {nl : α} {t : List α} {i e : Nat} (h : IsRow nl t i e) : nl ∉ (t.drop i).take (e - i) := by
  intro hmem
  obtain ⟨j, hj⟩ := getElem?_of_mem hmem
  have hlt : j < e - i := by
    have hlen := (List.getElem?_eq_some_iff.mp hj).1
    rw [length_take] at hlen
    omega
  rw [getElem?_take_of_lt hlt, getElem?_drop] at hj
  exact h.inside (i + j) (Nat.le_add_right i j) (by omega) hj

/-- A text, and a cursor between two of its characters, before the first or behind the last. -/
@[ext]
structure Editor (α : Type*) where
  text : List α
  cursor : Nat
  cursor_le : cursor ≤ text.length

namespace Editor

variable (e : Editor α)

lemma insert_le (c : α) : e.cursor + 1 ≤ (e.text.take e.cursor ++ c :: e.text.drop e.cursor).length := by
  have := e.cursor_le
  rw [length_append, length_take, length_cons, length_drop]
  omega

lemma deleteBefore_le : e.cursor - 1 ≤ (e.text.eraseIdx (e.cursor - 1)).length := by
  have := e.cursor_le
  rw [length_eraseIdx]
  split <;> omega

lemma deleteAt_le (h : e.cursor < e.text.length) : e.cursor ≤ (e.text.eraseIdx e.cursor).length := by
  rw [length_eraseIdx, if_pos h]
  omega

end Editor

variable [DecidableEq α]

/-! ## Rows -/

section Rows

variable (nl : α) (t : List α)

/-- The lines of a text. -/
def rows : List (List α) := t.splitOn nl

/-- The row that a position is in. -/
def rowOf (p : Nat) : Nat := (t.take p).count nl

/-- The first position of a row. -/
def startOf (r : Nat) : Nat := (((rows nl t).take r).flatMap (· ++ [nl])).length

/-- The position in a row at a column, or at the row's end if that is before it. -/
def place (r c : Nat) : Nat := startOf nl t r + min c ((rows nl t)[r]?.elim 0 List.length)

/-- The position above `p`. -/
def upFrom (p : Nat) : Nat :=
  if rowOf nl t p = 0 then p else place nl t (rowOf nl t p - 1) (p - startOf nl t (rowOf nl t p))

/-- The position below `p`. -/
def downFrom (p : Nat) : Nat :=
  if rowOf nl t p + 1 < (rows nl t).length then place nl t (rowOf nl t p + 1) (p - startOf nl t (rowOf nl t p)) else p

lemma length_rows : (rows nl t).length = t.count nl + 1 := by
  induction t with
  | nil => rfl
  | cons c t ih =>
    unfold rows at ih ⊢
    rw [splitOn_cons_eq_if_modifyHead, count_cons]
    split
    · rw [length_cons, ih]
    · rw [length_modifyHead, ih, Nat.add_zero]

lemma flatMap_rows : (rows nl t).flatMap (· ++ [nl]) = t ++ [nl] := by
  induction t with
  | nil => rfl
  | cons c t ih =>
    unfold rows at ih ⊢
    rw [splitOn_cons_eq_if_modifyHead]
    split
    next hc =>
      rw [flatMap_cons, ih, beq_iff_eq.mp hc]
      rfl
    next =>
      obtain ⟨l, ls, hl⟩ := exists_cons_of_ne_nil (splitOn_ne_nil nl t)
      rw [hl, flatMap_cons] at ih
      rw [hl, modifyHead_cons, flatMap_cons, cons_append, cons_append, ih, cons_append]

/-- A row and its separator lie inside the text with one more separator. -/
lemma place_le {r : Nat} (hr : r < (rows nl t).length) (c : Nat) : place nl t r c ≤ t.length := by
  have htotal : (((rows nl t).take (r + 1)).flatMap (· ++ [nl])).length ≤ t.length + 1 := by
    have hall := congrArg length (flatMap_rows nl t)
    rw [← take_append_drop (r + 1) (rows nl t), flatMap_append, length_append, length_append,
      length_singleton] at hall
    omega
  rw [take_add_one, getElem?_eq_getElem hr, Option.toList_some, flatMap_append, length_append,
    flatMap_singleton, length_append, length_singleton] at htotal
  unfold place startOf
  rw [getElem?_eq_getElem hr]
  show _ + min c (rows nl t)[r].length ≤ _
  omega

lemma rowOf_le (p : Nat) : rowOf nl t p ≤ t.count nl := (take_sublist p t).count_le nl

lemma upFrom_le {p : Nat} (hp : p ≤ t.length) : upFrom nl t p ≤ t.length := by
  unfold upFrom
  split
  · exact hp
  · refine place_le nl t ?_ _
    have hle := rowOf_le nl t p
    rw [length_rows]
    omega

lemma downFrom_le {p : Nat} (hp : p ≤ t.length) : downFrom nl t p ≤ t.length := by
  unfold downFrom
  split
  next hlt => exact place_le nl t hlt _
  next => exact hp

/-! ### Rows by their ends -/

variable {nl t} {i e p : Nat}

lemma rowOf_succ {k : Nat} (hk : t[k]? = some nl) : rowOf nl t (k + 1) = rowOf nl t k + 1 := by
  unfold rowOf
  rw [take_add_one, hk, Option.toList_some, List.count_append, count_singleton_self]

variable (h : IsRow nl t i e)

include h

lemma IsRow.rowOf_eq (hi : i ≤ p) (he : p ≤ e) : rowOf nl t p = rowOf nl t i := by
  unfold rowOf
  rw [show p = i + (p - i) by omega, take_add, List.count_append, Nat.add_eq_left]
  refine count_eq_zero_of_not_mem fun hmem => h.not_mem ?_
  exact (take_subset_take_left _ (by omega)) hmem

lemma IsRow.rowOf_next {b : Nat} (hbelow : IsRow nl t (e + 1) b) : rowOf nl t (e + 1) = rowOf nl t i + 1 := by
  have hsep : t[e]? = some nl := by
    rcases hbelow.first with h0 | ⟨k, hk, hsep⟩
    · omega
    · rwa [Nat.succ.inj hk]
  rw [rowOf_succ hsep, h.rowOf_eq h.le (Nat.le_refl e)]

/-- The first line of what stands from `i` on. -/
lemma IsRow.rows_drop : (rows nl (t.drop i))[0]? = some ((t.drop i).take (e - i)) := by
  have hsplit : t.drop i = (t.drop i).take (e - i) ++ t.drop e := by
    rw [show t.drop e = (t.drop i).drop (e - i) by rw [drop_drop, Nat.add_sub_cancel' h.le], take_append_drop]
  unfold rows
  rcases h.last with hend | hsep
  · rw [hend, drop_length, append_nil] at hsplit
    have hnot := h.not_mem
    rw [hend, ← hsplit] at hnot
    rw [splitOn_eq_singleton hnot, hend, ← hsplit]
    rfl
  · obtain ⟨hlt, hget⟩ := List.getElem?_eq_some_iff.mp hsep
    rw [drop_eq_getElem_cons hlt, hget] at hsplit
    rw [hsplit, splitOn_append_cons_self_of_not_mem h.not_mem]
    rw [← hsplit]
    rfl

/-- **Where a row starts, and what it is.** -/
theorem IsRow.startOf_eq :
    startOf nl t (rowOf nl t i) = i ∧ (rows nl t)[rowOf nl t i]? = some ((t.drop i).take (e - i)) := by
  have hline := h.rows_drop
  rcases h.first with rfl | ⟨k, rfl, hk⟩
  · exact ⟨rfl, hline⟩
  · obtain ⟨hlt, hget⟩ := List.getElem?_eq_some_iff.mp hk
    have hrows : rows nl t = rows nl (t.take k) ++ rows nl (t.drop (k + 1)) := by
      unfold rows
      rw [← splitOn_append_cons_self, ← hget, ← drop_eq_getElem_cons hlt, take_append_drop]
    have hrow : rowOf nl t (k + 1) = (rows nl (t.take k)).length := by
      rw [rowOf_succ hk, length_rows]
      rfl
    constructor
    · unfold startOf
      rw [hrow, hrows, take_left, flatMap_rows, length_append, length_take_of_le (Nat.le_of_lt hlt),
        length_singleton]
    · rw [hrow, hrows, getElem?_append_right (Nat.le_refl _), Nat.sub_self]
      exact hline

lemma IsRow.length_eq : (rows nl t)[rowOf nl t i]?.elim 0 List.length = e - i := by
  rw [h.startOf_eq.2]
  show ((t.drop i).take (e - i)).length = e - i
  have := h.le_length
  rw [length_take, length_drop]
  omega

lemma IsRow.place_eq (c : Nat) : place nl t (rowOf nl t i) c = i + min c (e - i) := by
  unfold place
  rw [h.startOf_eq.1, h.length_eq]

lemma IsRow.downFrom_last (hend : e = t.length) (hi : i ≤ p) (he : p ≤ e) : downFrom nl t p = p := by
  have hlast : rowOf nl t e = t.count nl := by
    unfold rowOf
    rw [hend, List.take_length]
  unfold downFrom
  rw [if_neg]
  rw [length_rows, h.rowOf_eq hi he, ← hlast, h.rowOf_eq h.le (Nat.le_refl e)]
  omega

/-- The row that begins behind the separator at the end of this one. -/
lemma IsRow.downFrom_eq {b : Nat} (hbelow : IsRow nl t (e + 1) b) (hi : i ≤ p) (he : p ≤ e) :
    downFrom nl t p = e + 1 + min (p - i) (b - (e + 1)) := by
  have hrow := h.rowOf_next hbelow
  have hmore : rowOf nl t i + 1 < (rows nl t).length := by
    have hle := rowOf_le nl t (e + 1)
    rw [length_rows]
    omega
  unfold downFrom
  rw [h.rowOf_eq hi he, if_pos hmore, h.startOf_eq.1, ← hrow, hbelow.place_eq]

omit h in
lemma IsRow.upFrom_first (h : IsRow nl t 0 e) (he : p ≤ e) : upFrom nl t p = p := by
  unfold upFrom
  rw [h.rowOf_eq (Nat.zero_le p) he]
  exact if_pos rfl

omit h in
/-- The row that ends where the separator before this one is. -/
lemma IsRow.upFrom_eq {k a : Nat} (h : IsRow nl t (k + 1) e) (habove : IsRow nl t a k) (hi : k + 1 ≤ p) (he : p ≤ e) :
    upFrom nl t p = a + min (p - (k + 1)) (k - a) := by
  have hrow := habove.rowOf_next h
  unfold upFrom
  rw [h.rowOf_eq hi he, if_neg (by omega), h.startOf_eq.1, hrow, Nat.add_sub_cancel, habove.place_eq]

end Rows

/-! ## The operations -/

inductive Op (α : Type*) where
  | insert (c : α)
  | deleteBefore | deleteAt
  | left | right | up | down

namespace Editor

variable (nl : α) (cap : Nat) (e : Editor α)

/-- One operation on a text of at most `cap` characters. -/
def apply : Op α → Editor α
  | .insert c =>
    if e.text.length < cap then ⟨e.text.take e.cursor ++ c :: e.text.drop e.cursor, e.cursor + 1, e.insert_le c⟩ else e
  | .deleteBefore =>
    if 0 < e.cursor then ⟨e.text.eraseIdx (e.cursor - 1), e.cursor - 1, e.deleteBefore_le⟩ else e
  | .deleteAt =>
    if h : e.cursor < e.text.length then ⟨e.text.eraseIdx e.cursor, e.cursor, e.deleteAt_le h⟩ else e
  | .left => ⟨e.text, e.cursor - 1, Nat.le_trans (Nat.sub_le _ _) e.cursor_le⟩
  | .right => ⟨e.text, min (e.cursor + 1) e.text.length, Nat.min_le_right _ _⟩
  | .up => ⟨e.text, upFrom nl e.text e.cursor, upFrom_le nl e.text e.cursor_le⟩
  | .down => ⟨e.text, downFrom nl e.text e.cursor, downFrom_le nl e.text e.cursor_le⟩

variable {nl cap e}

lemma apply_insert (h : e.text.length < cap) (c : α) :
    e.apply nl cap (.insert c) = ⟨e.text.take e.cursor ++ c :: e.text.drop e.cursor, e.cursor + 1,
      e.insert_le c⟩ := if_pos h

lemma apply_insert_of_full (h : ¬ e.text.length < cap) (c : α) : e.apply nl cap (.insert c) = e := if_neg h

lemma apply_deleteBefore (h : 0 < e.cursor) :
    e.apply nl cap .deleteBefore = ⟨e.text.eraseIdx (e.cursor - 1), e.cursor - 1, e.deleteBefore_le⟩ := if_pos h

lemma apply_deleteBefore_of_first (h : ¬ 0 < e.cursor) : e.apply nl cap .deleteBefore = e := if_neg h

lemma apply_deleteAt (h : e.cursor < e.text.length) :
    e.apply nl cap .deleteAt = ⟨e.text.eraseIdx e.cursor, e.cursor, e.deleteAt_le h⟩ := dif_pos h

lemma apply_deleteAt_of_last (h : ¬ e.cursor < e.text.length) : e.apply nl cap .deleteAt = e := dif_neg h

variable (nl cap)

/-- A sequence of operations. -/
def run : Editor α → List (Op α) → Editor α := List.foldl (apply nl cap)

end Editor

end TextEditor
