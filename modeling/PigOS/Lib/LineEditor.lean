import Mathlib.Data.List.Infix

/-!
# `Lib.LineEditor` — lines that are typed with corrections

A key appends its character while there is room, or takes the last character back, or does nothing.
`text_eq_iff` says on which keys a loop with less room and more keys that erase gives the same line:
a line that was cut once stays shorter until it is empty, so only the keys since then matter.
-/

namespace LineEditor

open List

variable {κ α : Type*} {k : κ}

/-- A prompt: the room for characters, the keys that erase one, and the characters of the others. -/
structure Editor (κ α : Type*) where
  limit : Nat
  erases : κ → Bool
  char? : κ → Option α

namespace Editor

variable {e : Editor κ α}

/-- What one key does to the line. -/
def key (e : Editor κ α) (t : List α) (k : κ) : List α :=
  if e.erases k then t.dropLast
  else
    match e.char? k with
    | some c => if t.length < e.limit then t ++ [c] else t
    | none => t

/-- The line that a sequence of keys leaves. -/
def text (e : Editor κ α) (keys : List κ) : List α := keys.foldl e.key []

/-- What one key does to the number of characters. -/
def keyCount (e : Editor κ α) (n : Nat) (k : κ) : Nat :=
  if e.erases k then n - 1 else if (e.char? k).isSome ∧ n < e.limit then n + 1 else n

/-- The number of characters that stand after a sequence of keys. -/
def count (e : Editor κ α) (keys : List κ) : Nat := keys.foldl e.keyCount 0

lemma text_append (e : Editor κ α) (xs ys : List κ) : e.text (xs ++ ys) = ys.foldl e.key (e.text xs) :=
  foldl_append

lemma text_concat (e : Editor κ α) (xs : List κ) (k : κ) : e.text (xs ++ [k]) = e.key (e.text xs) k :=
  text_append e xs [k]

lemma count_append (e : Editor κ α) (xs ys : List κ) : e.count (xs ++ ys) = ys.foldl e.keyCount (e.count xs) :=
  foldl_append

lemma count_concat (e : Editor κ α) (xs : List κ) (k : κ) : e.count (xs ++ [k]) = e.keyCount (e.count xs) k :=
  count_append e xs [k]

/-! ## One key -/

lemma key_erases (h : e.erases k = true) (t : List α) : e.key t k = t.dropLast := by
  rw [key, if_pos h]

lemma key_char {c : α} (h : e.erases k = false) (hc : e.char? k = some c) (t : List α) :
    e.key t k = if t.length < e.limit then t ++ [c] else t := by
  simp only [key, h, hc, Bool.false_eq_true, if_false]

lemma key_other (h : e.erases k = false) (hc : e.char? k = none) (t : List α) : e.key t k = t := by
  simp only [key, h, hc, Bool.false_eq_true, if_false]

lemma length_key (e : Editor κ α) (t : List α) (k : κ) : (e.key t k).length = e.keyCount t.length k := by
  unfold key keyCount
  split
  · exact length_dropLast
  · cases e.char? k with
    | none => simp
    | some c =>
      by_cases h : t.length < e.limit
      · simp [h]
      · simp [h]

lemma length_text (e : Editor κ α) (keys : List κ) : (e.text keys).length = e.count keys := by
  induction keys using List.reverseRecOn with
  | nil => rfl
  | append_singleton xs k ih => rw [text_concat, length_key, ih, count_concat]

/-- A line that fits is typed by the keys of its characters. -/
lemma text_map {f : α → κ} {l : List α}
    (hf : ∀ c ∈ l, e.erases (f c) = false ∧ e.char? (f c) = some c) (hlen : l.length ≤ e.limit) :
    e.text (l.map f) = l := by
  induction l using List.reverseRecOn with
  | nil => rfl
  | append_singleton xs c ih =>
    rw [length_append, length_singleton] at hlen
    have hc := hf c (mem_append_right _ (mem_singleton_self c))
    rw [map_append, map_singleton, text_concat, ih (fun d hd => hf d (mem_append_left _ hd)) (by omega),
      key_char hc.1 hc.2, if_pos (by omega)]

end Editor

open Editor

/-! ## Two prompts -/

/-- `b` has the characters of `a`, less room, and erases with every key that `a` erases with. -/
structure Tighter (a b : Editor κ α) : Prop where
  char? : b.char? = a.char?
  limit : b.limit < a.limit
  erases : ∀ k, a.erases k = true → b.erases k = true

/-- Since the line was last empty, no key that only `b` erases with was pressed, and the characters
fitted `b`. -/
def SharedBy (a b : Editor κ α) (keys : List κ) : Prop :=
  ∃ before after, keys = before ++ after ∧ a.count before = 0 ∧
    (∀ k ∈ after, b.erases k = true → a.erases k = true) ∧ ∀ done, done <+: after → a.count done ≤ b.limit

section Tighter

variable {a b : Editor κ α} {keys : List κ}

lemma sharedBy_of_count_eq_zero (h : a.count keys = 0) : SharedBy a b keys := by
  refine ⟨keys, [], (append_nil keys).symm, h, fun k hk => absurd hk not_mem_nil, ?_⟩
  intro done hdone
  rw [prefix_nil.mp hdone]
  exact Nat.zero_le _

/-- A line that `a` has emptied leaves nothing of the keys before. -/
lemma count_after {before : List κ} (h : a.count before = 0) (after : List κ) :
    a.count (before ++ after) = a.count after := by
  rw [count_append, h]; rfl

lemma SharedBy.count_le (h : SharedBy a b keys) : a.count keys ≤ b.limit := by
  obtain ⟨before, after, rfl, hzero, -, hle⟩ := h
  rw [count_after hzero]
  exact hle after (prefix_refl _)

lemma SharedBy.concat (h : SharedBy a b keys) (hk : b.erases k = true → a.erases k = true)
    (hle : a.count (keys ++ [k]) ≤ b.limit) : SharedBy a b (keys ++ [k]) := by
  obtain ⟨before, after, rfl, hzero, herase, hcount⟩ := h
  refine ⟨before, after ++ [k], append_assoc .., hzero, ?_, ?_⟩
  · intro j hj
    rcases mem_append.mp hj with hj | hj
    · exact herase j hj
    · exact mem_singleton.mp hj ▸ hk
  · intro done hdone
    rcases prefix_concat_iff.mp hdone with rfl | hdone
    · rwa [append_assoc, count_after hzero] at hle
    · exact hcount done hdone

variable (h : Tighter a b)
include h

lemma Tighter.length_le (keys : List κ) : (b.text keys).length ≤ (a.text keys).length := by
  induction keys using List.reverseRecOn with
  | nil => exact Nat.le_refl _
  | append_singleton xs k ih =>
    rw [text_concat, text_concat, length_key, length_key]
    have hlim := h.limit
    unfold keyCount
    rw [h.char?]
    by_cases ha : a.erases k = true
    · rw [if_pos ha, if_pos (h.erases k ha)]
      omega
    · rw [if_neg ha]
      by_cases hb : b.erases k = true
      · rw [if_pos hb]
        split <;> omega
      · rw [if_neg hb]
        cases (a.char? k).isSome with
        | false => simpa using ih
        | true =>
          simp only [true_and]
          split <;> split <;> omega

lemma Tighter.text_eq_nil (hzero : a.count keys = 0) : b.text keys = [] := by
  have hle := h.length_le keys
  rw [length_text a, hzero] at hle
  exact eq_nil_of_length_eq_zero (Nat.le_zero.mp hle)

/-- One key on a line that both hold, which `b` has room for. -/
lemma Tighter.key_eq {t : List α} (hk : b.erases k = true → a.erases k = true)
    (hle : a.keyCount t.length k ≤ b.limit) : b.key t k = a.key t k := by
  cases ha : a.erases k with
  | true => rw [key_erases ha, key_erases (h.erases k ha)]
  | false =>
    have hb : b.erases k = false := by
      cases hb : b.erases k with
      | true => exact absurd (hk hb) (by rw [ha]; exact Bool.false_ne_true)
      | false => rfl
    cases hc : a.char? k with
    | none => rw [key_other ha hc, key_other hb (h.char? ▸ hc)]
    | some c =>
      have hlim := h.limit
      rw [key_char ha hc, key_char hb (h.char? ▸ hc)]
      by_cases hroom : t.length < a.limit
      · simp only [keyCount, ha, hc, hroom, Option.isSome_some, Bool.false_eq_true, and_self, if_true, if_false]
          at hle
        rw [if_pos hroom, if_pos (by omega)]
      · rw [if_neg hroom, if_neg (by omega)]

lemma SharedBy.text_eq (hs : SharedBy a b keys) : b.text keys = a.text keys := by
  obtain ⟨before, after, rfl, hzero, herase, hcount⟩ := hs
  have ha : a.text before = [] := eq_nil_of_length_eq_zero ((length_text a before).trans hzero)
  rw [text_append, text_append, ha, h.text_eq_nil hzero]
  change b.text after = a.text after
  induction after using List.reverseRecOn with
  | nil => rfl
  | append_singleton xs k ih =>
    rw [text_concat, text_concat, ih (fun j hj => herase j (mem_append_left _ hj))
      (fun done hd => hcount done (hd.trans (prefix_append ..)))]
    apply h.key_eq (herase k (mem_append_right _ (mem_singleton_self k)))
    rw [length_text, ← count_concat]
    exact hcount _ (prefix_refl _)

/-- One key on a line that both hold: they go on together, or `b`'s line falls behind. -/
lemma SharedBy.step (hs : SharedBy a b keys) (k : κ) :
    SharedBy a b (keys ++ [k]) ∨ (b.text (keys ++ [k])).length < (a.text (keys ++ [k])).length := by
  have hcount := hs.count_le
  have hlen : (b.text keys).length = a.count keys := by rw [hs.text_eq h, length_text]
  rw [text_concat, text_concat, length_key, length_key, length_text a, hlen]
  by_cases ha : a.erases k = true
  · refine Or.inl (hs.concat (fun _ => ha) ?_)
    rw [count_concat, keyCount, if_pos ha]
    omega
  · by_cases hb : b.erases k = true
    · by_cases hzero : a.count (keys ++ [k]) = 0
      · exact Or.inl (sharedBy_of_count_eq_zero hzero)
      · right
        rw [count_concat] at hzero
        have hge : a.count keys ≤ a.keyCount (a.count keys) k := by
          rw [keyCount, if_neg ha]
          split <;> omega
        have hb' : b.keyCount (a.count keys) k = a.count keys - 1 := by rw [keyCount, if_pos hb]
        omega
    · by_cases hfits : a.keyCount (a.count keys) k ≤ b.limit
      · exact Or.inl (hs.concat (fun hb' => absurd hb' hb) (by rwa [count_concat]))
      · right
        simp only [keyCount, if_neg ha] at hfits
        simp only [keyCount, if_neg ha, if_neg hb, h.char?]
        split at hfits
        next hroom =>
          rw [if_pos hroom, if_neg (by omega)]
          omega
        next => omega

/-- One key on a line of `b` that has fallen behind: it stays behind, or both lines are empty. -/
lemma Tighter.step_behind (hlt : (b.text keys).length < (a.text keys).length) (k : κ) :
    SharedBy a b (keys ++ [k]) ∨ (b.text (keys ++ [k])).length < (a.text (keys ++ [k])).length := by
  have hlim := h.limit
  by_cases hzero : a.count (keys ++ [k]) = 0
  · exact Or.inl (sharedBy_of_count_eq_zero hzero)
  · right
    rw [count_concat, ← length_text] at hzero
    rw [text_concat, text_concat, length_key, length_key]
    by_cases ha : a.erases k = true
    · simp only [keyCount, if_pos ha] at hzero
      simp only [keyCount, if_pos ha, if_pos (h.erases k ha)]
      omega
    · by_cases hb : b.erases k = true
      · simp only [keyCount, if_neg ha, if_pos hb]
        split <;> omega
      · simp only [keyCount, if_neg ha, if_neg hb, h.char?]
        cases (a.char? k).isSome with
        | false => simpa using hlt
        | true =>
          simp only [true_and]
          split <;> split <;> omega

/-- At every time the lines are shared, or `b`'s is the shorter one. -/
lemma Tighter.sharedBy_or_behind (keys : List κ) : SharedBy a b keys ∨ (b.text keys).length < (a.text keys).length := by
  induction keys using List.reverseRecOn with
  | nil => exact Or.inl (sharedBy_of_count_eq_zero rfl)
  | append_singleton xs k ih =>
    rcases ih with hs | hlt
    · exact hs.step h k
    · exact h.step_behind hlt k

/-- **Two prompts give the same line** on the keys that leave it shared, and on no others. -/
theorem Tighter.text_eq_iff (keys : List κ) : b.text keys = a.text keys ↔ SharedBy a b keys := by
  refine ⟨fun heq => ?_, fun hs => hs.text_eq h⟩
  rcases h.sharedBy_or_behind keys with hs | hlt
  · exact hs
  · rw [heq] at hlt
    exact absurd hlt (Nat.lt_irrefl _)

end Tighter

end LineEditor
