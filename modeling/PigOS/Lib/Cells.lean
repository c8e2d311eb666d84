import Mathlib.Data.List.Basic

/-!
# `Lib.Cells` — the loops of a text editor on an array

An array is the function of its cells. For each loop there is a lemma that says what every cell
holds afterwards (`shiftUp_apply`, `shiftDown_apply`, `writeList_apply`, `assignAll_apply`), from
which the rest follows. `textAt` is the text from a cell up to a terminator, and `Holds` says which
cells it takes.
-/

namespace Cells

open List Function

variable {α : Type*} {i n : Nat}

/-- `for(i=hi;i>lo;i--) a[i]=a[i-1];` -/
def shiftUp (lo : Nat) : Nat → (Nat → α) → Nat → α
  | 0, a => a
  | hi + 1, a => if lo < hi + 1 then shiftUp lo hi (Function.update a (hi + 1) (a hi)) else a

/-- `for(;i<lo+n;i++) a[i]=a[i+1];` from `i=lo` on. -/
def shiftDown (lo : Nat) : Nat → (Nat → α) → Nat → α
  | 0, a => a
  | n + 1, a => shiftDown (lo + 1) n (Function.update a lo (a (lo + 1)))

/-- A text, written from cell `i` on. -/
def writeList (a : Nat → α) (i : Nat) : List α → Nat → α
  | [] => a
  | x :: xs => writeList (Function.update a i x) (i + 1) xs

lemma shiftUp_apply (lo hi : Nat) (a : Nat → α) (j : Nat) :
    shiftUp lo hi a j = if lo < j ∧ j ≤ hi then a (j - 1) else a j := by
  induction hi generalizing a with
  | zero => rw [shiftUp, if_neg (by omega)]
  | succ hi ih =>
    rw [shiftUp]
    split
    next hlt =>
      rw [ih]
      by_cases hj : j = hi + 1
      · subst hj
        rw [if_neg (by omega), if_pos (by omega), update_self]
        rfl
      · rw [update_of_ne hj]
        by_cases hin : lo < j ∧ j ≤ hi
        · rw [if_pos hin, if_pos (by omega), update_of_ne (by omega)]
        · rw [if_neg hin, if_neg (by omega)]
    next hle => rw [if_neg (by omega)]

lemma shiftDown_apply (lo n : Nat) (a : Nat → α) (j : Nat) :
    shiftDown lo n a j = if lo ≤ j ∧ j < lo + n then a (j + 1) else a j := by
  induction n generalizing lo a with
  | zero => rw [shiftDown, if_neg (by omega)]
  | succ n ih =>
    rw [shiftDown, ih]
    by_cases hj : j = lo
    · subst hj
      rw [if_neg (by omega), if_pos (by omega), update_self]
    · rw [update_of_ne hj]
      by_cases hin : lo + 1 ≤ j ∧ j < lo + 1 + n
      · rw [if_pos hin, if_pos (by omega), update_of_ne (by omega)]
      · rw [if_neg hin, if_neg (by omega)]

lemma writeList_apply (a : Nat → α) (i : Nat) (xs : List α) (j : Nat) :
    writeList a i xs j = if i ≤ j then xs[j - i]?.getD (a j) else a j := by
  induction xs generalizing a i with
  | nil => simp [writeList]
  | cons x xs ih =>
    rw [writeList, ih]
    by_cases hj : j = i
    · subst hj
      rw [if_neg (by omega), if_pos (Nat.le_refl _), update_self, Nat.sub_self]
      rfl
    · rw [update_of_ne hj]
      by_cases hlt : i ≤ j
      · rw [if_pos (by omega), if_pos hlt]
        obtain ⟨k, rfl⟩ : ∃ k, j = i + (k + 1) := ⟨j - i - 1, by omega⟩
        rw [show i + (k + 1) - (i + 1) = k by omega, Nat.add_sub_cancel_left, getElem?_cons_succ]
      · rw [if_neg (by omega), if_neg hlt]

/-! ## Assignments in any order -/

section Assign

variable {ι κ : Type*} [DecidableEq κ]

/-- `a[d(i)]=a[s(i)];` for the elements of a list, one after the other. -/
def assignAll (d s : ι → κ) (is : List ι) (a : κ → α) : κ → α :=
  is.foldl (fun a i => Function.update a (d i) (a (s i))) a

/-- If no cell is written twice, or before it is read, each gets what its source held at the
start. -/
lemma assignAll_apply {d s : ι → κ} {is : List ι} (h : is.Pairwise fun i j => d i ≠ d j ∧ d i ≠ s j) (a : κ → α) :
    (∀ i ∈ is, assignAll d s is a (d i) = a (s i)) ∧ ∀ x, (∀ i ∈ is, x ≠ d i) → assignAll d s is a x = a x := by
  unfold assignAll
  induction is generalizing a with
  | nil => exact ⟨fun i hi => absurd hi not_mem_nil, fun x _ => rfl⟩
  | cons i is ih =>
    obtain ⟨hi, hrest⟩ := pairwise_cons.mp h
    obtain ⟨hcopied, hframe⟩ := ih hrest (Function.update a (d i) (a (s i)))
    rw [foldl_cons, forall_mem_cons]
    refine ⟨⟨?_, fun j hj => ?_⟩, fun x hx => ?_⟩
    · rw [hframe _ (fun j hj => (hi j hj).1), update_self]
    · rw [hcopied j hj, update_of_ne (hi j hj).2.symm]
    · rw [forall_mem_cons] at hx
      rw [hframe x hx.2, update_of_ne hx.1]

end Assign

/-! ## The first cells as a list -/

lemma getElem?_map_range (a : Nat → α) (n j : Nat) : ((range n).map a)[j]? = if j < n then some (a j) else none := by
  rw [getElem?_map]
  split
  next hlt => rw [getElem?_range hlt, Option.map_some]
  next hge => rw [getElem?_eq_none (by rw [length_range]; omega), Option.map_none]

/-- The loop that makes room, and the assignment into it: the list has one more element. -/
lemma map_range_insert (a : Nat → α) (hi : i ≤ n) (c : α) :
    (range (n + 1)).map (Function.update (shiftUp i n a) i c) =
      ((range n).map a).take i ++ c :: ((range n).map a).drop i := by
  have hlen : (((range n).map a).take i).length = i := by
    rw [length_take, length_map, length_range, Nat.min_eq_left hi]
  refine ext_getElem? fun j => ?_
  rw [getElem?_map_range]
  rcases Nat.lt_trichotomy j i with hlt | rfl | hgt
  · rw [getElem?_append_left (by omega), getElem?_take_of_lt hlt, getElem?_map_range, if_pos (by omega),
      if_pos (by omega), update_of_ne (by omega), shiftUp_apply, if_neg (by omega)]
  · rw [getElem?_append_right (by omega), hlen, Nat.sub_self, if_pos (by omega), update_self]
    rfl
  · obtain ⟨k, rfl⟩ : ∃ k, j = i + (k + 1) := ⟨j - i - 1, by omega⟩
    rw [getElem?_append_right (by omega), hlen, Nat.add_sub_cancel_left, getElem?_cons_succ, getElem?_drop,
      getElem?_map_range]
    by_cases hk : i + (k + 1) < n + 1
    · rw [if_pos hk, if_pos (by omega), update_of_ne (by omega), shiftUp_apply, if_pos (by omega)]
      rfl
    · rw [if_neg hk, if_neg (by omega)]

lemma map_range_update (a : Nat → α) (i n : Nat) (x : α) :
    (range n).map (Function.update a i x) = ((range n).map a).set i x := by
  refine ext_getElem? fun j => ?_
  rw [getElem?_map_range, getElem?_set, length_map, length_range, getElem?_map_range]
  by_cases hij : i = j
  · subst hij
    rw [if_pos rfl, update_self]
  · rw [if_neg hij, update_of_ne (Ne.symm hij)]

/-- The loop that closes a gap: the list has one element less. -/
lemma map_range_erase (a : Nat → α) (hi : i < n) :
    (range (n - 1)).map (shiftDown i (n - 1 - i) a) = ((range n).map a).eraseIdx i := by
  refine ext_getElem? fun j => ?_
  rw [getElem?_map_range, getElem?_eraseIdx, getElem?_map_range, getElem?_map_range, shiftDown_apply]
  by_cases hj : j < i
  · rw [if_pos hj, if_neg (show ¬(i ≤ j ∧ j < i + (n - 1 - i)) by omega), if_pos (show j < n - 1 by omega),
      if_pos (show j < n by omega)]
  · rw [if_neg hj]
    by_cases hn : j < n - 1
    · rw [if_pos hn, if_pos (show i ≤ j ∧ j < i + (n - 1 - i) by omega), if_pos (show j + 1 < n by omega)]
    · rw [if_neg hn, if_neg (show ¬j + 1 < n by omega)]

/-! ## Texts with a terminator -/

/-- The text from cell `i` on, up to the terminator `z`; of at most `n` cells. -/
def textAt [DecidableEq α] (z : α) (a : Nat → α) : Nat → Nat → List { x : α // x ≠ z }
  | 0, _ => []
  | n + 1, i => if h : a i = z then [] else ⟨a i, h⟩ :: textAt z a n (i + 1)

section Text

variable {z : α} {a b : Nat → α} {t : List { x : α // x ≠ z }} {p : Nat}

lemma length_textAt_le [DecidableEq α] (z : α) (a : Nat → α) (n i : Nat) : (textAt z a n i).length ≤ n := by
  induction n generalizing i with
  | zero => exact Nat.le_refl 0
  | succ n ih =>
    rw [textAt]
    split
    · exact Nat.zero_le _
    · exact Nat.succ_le_succ (ih (i + 1))

lemma cell_of_textAt [DecidableEq α] {j : Nat} {x : { x : α // x ≠ z }} (h : (textAt z a n i)[j]? = some x) :
    a (i + j) = x.val := by
  induction n generalizing i j with
  | zero => cases h
  | succ n ih =>
    rw [textAt] at h
    split at h
    · cases h
    · cases j with
      | zero => exact congrArg Subtype.val (Option.some.inj h)
      | succ j =>
        rw [show i + (j + 1) = i + 1 + j by omega]
        exact ih h

/-- Cells without a terminator are read as they are. -/
lemma val_textAt [DecidableEq α] {m : Nat} (hne : ∀ j < m, a (i + j) ≠ z) (hle : m ≤ n) (hend : m < n → a (i + m) = z) :
    (textAt z a n i).map Subtype.val = (range m).map (fun j => a (i + j)) := by
  induction m generalizing n i with
  | zero =>
    cases n with
    | zero => rfl
    | succ n =>
      have hcell : a i = z := hend (Nat.succ_pos n)
      rw [textAt, dif_pos hcell]
      rfl
  | succ m ih =>
    cases n with
    | zero => omega
    | succ n =>
      have hcell : a i ≠ z := hne 0 (Nat.succ_pos m)
      have htail := ih (n := n) (i := i + 1)
        (fun j hj => by rw [show i + 1 + j = i + (j + 1) by omega]; exact hne (j + 1) (by omega)) (by omega)
        (fun hlt => by rw [show i + 1 + m = i + (m + 1) by omega]; exact hend (by omega))
      rw [textAt, dif_neg hcell, map_cons, htail, range_succ_eq_map, map_cons, List.map_map]
      refine congrArg (a i :: ·) (map_congr_left fun j _ => ?_)
      rw [comp_apply, show i + 1 + j = i + (j + 1) by omega]

/-- The text stands at cell `i`, with its terminator behind it. -/
structure Holds (z : α) (a : Nat → α) (i : Nat) (t : List { x : α // x ≠ z }) : Prop where
  cell : ∀ j x, t[j]? = some x → a (i + j) = x.val
  stop : a (i + t.length) = z

lemma Holds.tail {x : { x : α // x ≠ z }} {t : List { x : α // x ≠ z }} (h : Holds z a i (x :: t)) :
    Holds z a (i + 1) t := by
  refine ⟨fun j y hy => ?_, ?_⟩
  · rw [show i + 1 + j = i + (j + 1) by omega]
    exact h.cell (j + 1) y hy
  · rw [show i + 1 + t.length = i + (t.length + 1) by omega]
    exact h.stop

section

variable (h : Holds z a i t)

include h

lemma Holds.textAt_eq [DecidableEq α] (hn : t.length < n) : textAt z a n i = t := by
  induction t generalizing i n with
  | nil =>
    obtain ⟨n, rfl⟩ : ∃ k, n = k + 1 := Nat.exists_eq_add_one_of_ne_zero (by omega)
    have hstop : a i = z := h.stop
    rw [textAt, dif_pos hstop]
  | cons x t ih =>
    obtain ⟨n, rfl⟩ : ∃ k, n = k + 1 := Nat.exists_eq_add_one_of_ne_zero (by omega)
    have hx : a i = x.val := h.cell 0 x rfl
    have hne : a i ≠ z := hx ▸ x.property
    rw [textAt, dif_neg hne, ih h.tail (Nat.lt_of_succ_lt_succ hn)]
    exact congrArg (· :: t) (Subtype.ext hx)

lemma Holds.congr (hab : ∀ j ≤ t.length, b (i + j) = a (i + j)) : Holds z b i t := by
  refine ⟨fun j x hx => ?_, ?_⟩
  · rw [hab j (Nat.le_of_lt (List.getElem?_eq_some_iff.mp hx).1)]
    exact h.cell j x hx
  · rw [hab t.length (Nat.le_refl _)]
    exact h.stop

/-- One more character, and the terminator behind it. -/
lemma Holds.push (c : { x : α // x ≠ z }) :
    Holds z (Function.update (Function.update a (i + t.length) c.val) (i + t.length + 1) z) i (t ++ [c]) := by
  refine ⟨fun j x hx => ?_, ?_⟩
  · have hj : j < t.length + 1 := by
      have hlt := (List.getElem?_eq_some_iff.mp hx).1
      rwa [length_append, length_singleton] at hlt
    rw [update_of_ne (by omega)]
    by_cases hlast : j = t.length
    · subst hlast
      rw [getElem?_concat_length] at hx
      rw [update_self, ← Option.some.inj hx]
    · rw [update_of_ne (by omega)]
      rw [getElem?_append_left (by omega)] at hx
      exact h.cell j x hx
  · rw [length_append, length_singleton, ← Nat.add_assoc, update_self]

lemma Holds.drop (hp : p ≤ t.length) : Holds z a (i + p) (t.drop p) := by
  refine ⟨fun j x hx => ?_, ?_⟩
  · rw [getElem?_drop] at hx
    rw [Nat.add_assoc]
    exact h.cell (p + j) x hx
  · rw [length_drop, Nat.add_assoc, Nat.add_sub_cancel' hp]
    exact h.stop

lemma Holds.cut (hp : p ≤ t.length) :
    Holds z (Function.update a (i + p) z) i (t.take p) := by
  have hlen : (t.take p).length = p := length_take_of_le hp
  refine ⟨fun j x hx => ?_, ?_⟩
  · have hj : j < p := hlen ▸ (List.getElem?_eq_some_iff.mp hx).1
    rw [getElem?_take_of_lt hj] at hx
    rw [update_of_ne (by omega)]
    exact h.cell j x hx
  · rw [hlen, update_self]

/-- Room is made in a text, and a character put there. -/
lemma Holds.insert (hp : p ≤ t.length) (c : { x : α // x ≠ z }) :
    Holds z (Function.update (Function.update (shiftUp (i + p) (i + t.length) a) (i + p) c.val) (i + t.length + 1) z) i
      (t.take p ++ c :: t.drop p) := by
  have hlen : (t.take p).length = p := length_take_of_le hp
  refine ⟨fun j x hx => ?_, ?_⟩
  · rcases Nat.lt_trichotomy j p with hlt | rfl | hgt
    · rw [getElem?_append_left (by omega), getElem?_take_of_lt hlt] at hx
      rw [update_of_ne (by omega), update_of_ne (by omega), shiftUp_apply, if_neg (by omega)]
      exact h.cell j x hx
    · rw [getElem?_append_right (by omega), hlen, Nat.sub_self] at hx
      rw [update_of_ne (by omega), update_self, ← Option.some.inj hx]
    · obtain ⟨k, rfl⟩ : ∃ k, j = p + (k + 1) := ⟨j - p - 1, by omega⟩
      rw [getElem?_append_right (by omega), hlen, Nat.add_sub_cancel_left, getElem?_cons_succ,
        getElem?_drop] at hx
      have hk := (List.getElem?_eq_some_iff.mp hx).1
      rw [update_of_ne (by omega), update_of_ne (by omega), shiftUp_apply, if_pos (by omega)]
      exact h.cell (p + k) x hx
  · rw [length_append, hlen, length_cons, length_drop,
      show i + (p + (t.length - p + 1)) = i + t.length + 1 by omega, update_self]

/-- The gap of a character is closed, and the terminator moves with the rest. -/
lemma Holds.erase (hp : p < t.length) :
    Holds z (shiftDown (i + p) (t.length - p) a) i (t.eraseIdx p) := by
  refine ⟨fun j x hx => ?_, ?_⟩
  · rw [getElem?_eraseIdx] at hx
    split at hx
    next hlt =>
      rw [shiftDown_apply, if_neg (by omega)]
      exact h.cell j x hx
    next hge =>
      have hj := (List.getElem?_eq_some_iff.mp hx).1
      rw [shiftDown_apply, if_pos (by omega)]
      exact h.cell (j + 1) x hx
  · rw [length_eraseIdx, if_pos hp, shiftDown_apply, if_pos (by omega), Nat.add_assoc, Nat.sub_add_cancel (by omega)]
    exact h.stop

end

/-- A text is copied behind characters that stand there. -/
lemma holds_append {u : List { x : α // x ≠ z }} (hcell : ∀ j x, t[j]? = some x → a (i + j) = x.val) :
    Holds z (Function.update (writeList a (i + t.length) (u.map Subtype.val))
      (i + t.length + u.length) z) i (t ++ u) := by
  refine ⟨fun j x hx => ?_, ?_⟩
  · have hj := (List.getElem?_eq_some_iff.mp hx).1
    rw [length_append] at hj
    rw [update_of_ne (by omega), writeList_apply]
    by_cases hlt : j < t.length
    · rw [if_neg (by omega)]
      rw [getElem?_append_left hlt] at hx
      exact hcell j x hx
    · rw [getElem?_append_right (by omega)] at hx
      rw [if_pos (by omega), getElem?_map, show i + j - (i + t.length) = j - t.length by omega, hx]
      rfl
  · rw [length_append, ← Nat.add_assoc, update_self]

lemma holds_write (a : Nat → α) (i : Nat) (u : List { x : α // x ≠ z }) :
    Holds z (Function.update (writeList a i (u.map Subtype.val)) (i + u.length) z) i u :=
  holds_append (t := []) fun _ _ hx => absurd hx (by simp)

/-- Cells that are no terminators, up to one that is, hold a text. -/
lemma exists_holds {l : Nat} (hne : ∀ j < l, a (i + j) ≠ z) (hstop : a (i + l) = z) :
    ∃ t : List { x : α // x ≠ z }, t.length = l ∧ Holds z a i t := by
  induction l generalizing i with
  | zero => exact ⟨[], rfl, fun j x hx => absurd hx (by simp), hstop⟩
  | succ l ih =>
    obtain ⟨t, hlen, ht⟩ := ih (i := i + 1)
      (fun j hj => by rw [show i + 1 + j = i + (j + 1) by omega]; exact hne (j + 1) (by omega))
      (by rw [show i + 1 + l = i + (l + 1) by omega]; exact hstop)
    refine ⟨⟨a i, hne 0 (Nat.succ_pos l)⟩ :: t, by rw [length_cons, hlen], fun j x hx => ?_, ?_⟩
    · cases j with
      | zero => rw [← Option.some.inj hx]; rfl
      | succ j =>
        rw [show i + (j + 1) = i + 1 + j by omega]
        exact ht.cell j x hx
    · rw [length_cons, show i + (t.length + 1) = i + 1 + t.length by omega]
      exact ht.stop

end Text

end Cells
