import Mathlib.Data.List.Basic
import Mathlib.Data.List.TakeWhile

/-!
# `Lib.LineScan` — reading a text line by line

At the end of a line a handler looks at the line, given the pointer to its first cell and its
length; it may return.

* `scan` — the loop. The terminator ends a line as well, but does not stop the loop, which goes on
  `outside`;
* `scan_eq` — the loop is `runLines` on the lines, if the handler reads no further than the line's
  end;
* `cutLines` — the loop with a buffer that a line need not fit: what is left of a long line is read
  as another one.
-/

namespace LineScan

open List

variable {α σ ρ : Type*} {w v rest : List α}

/-- How a scan ends: with a result, or with a read behind the terminator, in some state. -/
inductive Outcome (σ ρ : Type*) where
  | returned (r : ρ)
  | outside (s : σ)
  deriving DecidableEq

/-- The result of a scan that is made to stop at the terminator. -/
def Outcome.orElse (finish : σ → ρ) : Outcome σ ρ → ρ
  | .returned r => r
  | .outside s => finish s

/-- The loop. `line` is what is left of the text from the start of the current line on, and the list
that is taken apart what is left from the index on. The handler is `none` where it reads too far. -/
def scan (sep : α → Bool) (f : σ → List α → Nat → Option (σ ⊕ ρ)) : σ → List α → Nat → List α → Outcome σ ρ
  | s, line, len, [] =>
    match f s line len with
    | none => .outside s
    | some (.inl s) => .outside s
    | some (.inr r) => .returned r
  | s, line, len, b :: rest =>
    if sep b then
      match f s line len with
      | none => .outside s
      | some (.inl s) => scan sep f s rest 0 rest
      | some (.inr r) => .returned r
    else scan sep f s line (len + 1) rest

/-- The lines, one after the other. -/
def runLines (g : σ → List α → σ ⊕ ρ) : σ → List (List α) → Outcome σ ρ
  | s, [] => .outside s
  | s, w :: ws =>
    match g s w with
    | .inl s => runLines g s ws
    | .inr r => .returned r

/-- The handler reads no further than the end of the line, and does what `g` does on the line. -/
def Handles (sep : α → Bool) (f : σ → List α → Nat → Option (σ ⊕ ρ)) (g : σ → List α → σ ⊕ ρ) : Prop :=
  ∀ s w t, (∀ a ∈ w, sep a = false) → (∀ a ∈ t.head?, sep a = true) → f s (w ++ t) w.length = some (g s w)

section Scan

variable {sep : α → Bool} {f : σ → List α → Nat → Option (σ ⊕ ρ)} {g : σ → List α → σ ⊕ ρ}

/-- The run lemma, in the middle of a line: `w` has been passed already. -/
lemma scan_append (h : Handles sep f g) (rest : List α) (s : σ) (hw : ∀ a ∈ w, sep a = false) :
    scan sep f s (w ++ rest) w.length rest = runLines g s ((w ++ rest).splitOnP sep) := by
  induction rest generalizing s w with
  | nil =>
    have hline := h s w [] hw (by simp)
    have hsplit : (w ++ []).splitOnP sep = [w] := by
      rw [append_nil]
      exact splitOnP_eq_singleton hw
    rw [scan, hline, hsplit, runLines]
    cases g s w with
    | inl s' => rfl
    | inr r => rfl
  | cons b rest ih =>
    rw [scan]
    by_cases hb : sep b = true
    · have hline := h s w (b :: rest) hw (by simpa using hb)
      have hsplit : (w ++ b :: rest).splitOnP sep = w :: rest.splitOnP sep :=
        splitOnP_append_cons_of_forall_mem hw b hb rest
      rw [if_pos hb, hline, hsplit, runLines]
      cases g s w with
      | inl s' => exact ih s' (w := []) (by simp)
      | inr r => rfl
    · have hw' : ∀ a ∈ w ++ [b], sep a = false := by
        intro a ha
        rcases mem_append.mp ha with ha | ha
        · exact hw a ha
        · rw [mem_singleton.mp ha]
          simpa using hb
      have hnext := ih s hw'
      rw [length_append, length_singleton, append_assoc, singleton_append] at hnext
      rw [if_neg hb]
      exact hnext

/-- **The loop reads the lines.** -/
theorem scan_eq (h : Handles sep f g) (s : σ) (text : List α) :
    scan sep f s text 0 text = runLines g s (text.splitOnP sep) :=
  scan_append h text s (w := []) (by simp)

end Scan

/-! ## Two kinds of handlers -/

/-- A handler that never returns: the scan runs off the text with the state that the lines lead
to. -/
lemma runLines_inl (step : σ → List α → σ) (s : σ) (ws : List (List α)) :
    runLines (fun s w => (.inl (step s w) : σ ⊕ ρ)) s ws = .outside (ws.foldl step s) := by
  induction ws generalizing s with
  | nil => rfl
  | cons w ws ih => exact ih (step s w)

/-- A handler without a state: the first line with a verdict decides. -/
lemma runLines_verdict (verdict : List α → Option ρ) (ws : List (List α)) :
    runLines (fun (_ : Unit) w => (verdict w).elim (.inl ()) .inr) () ws =
      (ws.findSome? verdict).elim (.outside ()) .returned := by
  induction ws with
  | nil => rfl
  | cons w ws ih =>
    rw [runLines, findSome?_cons]
    cases verdict w with
    | none => exact ih
    | some r => rfl

/-! ## Texts written line by line -/

variable {sep : α → Bool} {β : Type*}

/-- Cutting a text with an end behind every line gives the lines, and an empty one. -/
lemma splitOnP_flatMap {b : α} (hb : sep b = true) {ws : List (List α)}
    (hws : ∀ w ∈ ws, ∀ a ∈ w, sep a = false) : (ws.flatMap (· ++ [b])).splitOnP sep = ws ++ [[]] := by
  induction ws with
  | nil => rfl
  | cons w ws ih =>
    rw [forall_mem_cons] at hws
    rw [flatMap_cons, append_assoc, singleton_append,
      splitOnP_append_cons_of_forall_mem hws.1 b hb, ih hws.2, cons_append]

lemma length_flatMap_le {f : β → List α} {n : Nat} {l : List β} (h : ∀ x ∈ l, (f x).length ≤ n) :
    (l.flatMap f).length ≤ n * l.length := by
  induction l with
  | nil => exact Nat.zero_le _
  | cons x l ih =>
    rw [forall_mem_cons] at h
    rw [flatMap_cons, length_append, length_cons, Nat.mul_succ, Nat.add_comm]
    exact Nat.add_le_add (ih h.2) h.1

/-- A separator between the pieces of a text, the last of which is known. -/
lemma intercalate_concat (b : α) (ws : List (List α)) (w : List α) :
    [b].intercalate (ws ++ [w]) = ws.flatMap (· ++ [b]) ++ w := by
  induction ws with
  | nil => simp [List.intercalate]
  | cons v ws ih =>
    rw [flatMap_cons, append_assoc, ← ih]
    cases ws with
    | nil => simp [List.intercalate]
    | cons u ws => simp [List.intercalate]

/-! ## Lines that end -/

/-- The lines of a text; behind an end of a line at its very end there is none. -/
def segments (sep : α → Bool) (text : List α) : List (List α) :=
  match (text.splitOnP sep).getLast? with
  | some [] => (text.splitOnP sep).dropLast
  | _ => text.splitOnP sep

lemma segments_of_forall (hw : ∀ a ∈ w, sep a = false) (hne : w ≠ []) : segments sep w = [w] := by
  unfold segments
  rw [splitOnP_eq_singleton hw, getLast?_singleton]
  cases w with
  | nil => exact absurd rfl hne
  | cons a as => rfl

lemma segments_append_cons (hw : ∀ a ∈ w, sep a = false) {b : α} (hb : sep b = true)
    (rest : List α) : segments sep (w ++ b :: rest) = w :: segments sep rest := by
  unfold segments
  rw [splitOnP_append_cons_of_forall_mem hw b hb]
  obtain ⟨v, vs, hvs⟩ := exists_cons_of_ne_nil (splitOnP_ne_nil sep rest)
  rw [hvs, getLast?_cons_cons, dropLast_cons_of_ne_nil (cons_ne_nil v vs)]
  split
  next hnil => rfl
  next hne => rfl

/-- A line, with its end if it has one, in front of a text. -/
lemma segments_line (hv : ∀ a ∈ v, sep a = false)
    (hrest : ∀ a ∈ rest.head?, sep a = true) (hne : v ++ rest ≠ []) :
    segments sep (v ++ rest) = v :: segments sep rest.tail := by
  cases rest with
  | nil =>
    rw [append_nil] at hne ⊢
    exact segments_of_forall hv hne
  | cons b u => exact segments_append_cons hv (hrest b rfl) u

/-! ## Buffers that are too short -/

section Pieces

variable {sep : α → Bool} {n : Nat} {t : List α}

/-- A line in pieces of at most `n + 1`. -/
def pieces (n : Nat) (w : List α) : List (List α) :=
  if w.length ≤ n + 1 then [w] else w.take (n + 1) :: pieces n (w.drop (n + 1))
termination_by w.length
decreasing_by
  rw [length_drop]
  omega

/-- What is read into a buffer with room for `n + 1`. -/
def firstPiece (n : Nat) (sep : α → Bool) (t : List α) : List α := (t.takeWhile (fun a => !sep a)).take (n + 1)

/-- Where the loop goes on: an end of the line that comes next is passed over. -/
def behindPiece (n : Nat) (sep : α → Bool) (t : List α) : List α :=
  let u := t.drop (firstPiece n sep t).length
  if u.head?.any sep then u.drop 1 else u

lemma length_behindPiece_lt (ht : t ≠ []) : (behindPiece n sep t).length < t.length := by
  obtain ⟨a, t, rfl⟩ := exists_cons_of_ne_nil ht
  unfold behindPiece
  dsimp only
  by_cases ha : sep a = true
  · have hfirst : firstPiece n sep (a :: t) = [] := by
      rw [firstPiece, takeWhile_cons, ha]
      rfl
    rw [hfirst, length_nil, drop_zero, head?_cons, Option.any_some, if_pos ha, length_drop, length_cons]
    omega
  · have hfirst : 0 < (firstPiece n sep (a :: t)).length := by
      rw [firstPiece, takeWhile_cons, Bool.eq_false_iff.mpr ha]
      exact Nat.succ_pos _
    have hlen : ((a :: t).drop (firstPiece n sep (a :: t)).length).length < (a :: t).length := by
      rw [length_drop, length_cons]
      omega
    split
    · exact Nat.lt_of_le_of_lt (by rw [length_drop]; omega) hlen
    · exact hlen

/-- The loop with a buffer for `n + 1`. -/
def cutLines (n : Nat) (sep : α → Bool) (t : List α) : List (List α) :=
  if t = [] then [] else firstPiece n sep t :: cutLines n sep (behindPiece n sep t)
termination_by t.length
decreasing_by exact length_behindPiece_lt ‹¬t = []›

lemma pieces_short (h : w.length ≤ n + 1) : pieces n w = [w] := by rw [pieces, if_pos h]

lemma pieces_long (h : ¬w.length ≤ n + 1) : pieces n w = w.take (n + 1) :: pieces n (w.drop (n + 1)) := by
  rw [pieces, if_neg h]

lemma cutLines_of_ne_nil (h : t ≠ []) :
    cutLines n sep t = firstPiece n sep t :: cutLines n sep (behindPiece n sep t) := by
  rw [cutLines, if_neg h]

lemma firstPiece_eq (hv : ∀ a ∈ v, sep a = false) (hrest : ∀ a ∈ rest.head?, sep a = true) :
    firstPiece n sep (v ++ rest) = v.take (n + 1) := by
  have hline : (v ++ rest).takeWhile (fun a => !sep a) = v := by
    rw [takeWhile_append_of_pos (fun a ha => by rw [hv a ha]; rfl)]
    cases rest with
    | nil => exact append_nil v
    | cons b u =>
      rw [takeWhile_cons, hrest b rfl]
      exact append_nil v
  rw [firstPiece, hline]

lemma behindPiece_short (hv : ∀ a ∈ v, sep a = false) (hrest : ∀ a ∈ rest.head?, sep a = true)
    (hlen : v.length ≤ n + 1) : behindPiece n sep (v ++ rest) = rest.tail := by
  unfold behindPiece
  rw [firstPiece_eq hv hrest, take_of_length_le hlen]
  dsimp only
  rw [drop_left]
  cases rest with
  | nil => rfl
  | cons b u => rw [head?_cons, Option.any_some, if_pos (hrest b rfl), drop_one]

lemma behindPiece_long (hv : ∀ a ∈ v, sep a = false) (hrest : ∀ a ∈ rest.head?, sep a = true)
    (hlen : ¬v.length ≤ n + 1) : behindPiece n sep (v ++ rest) = v.drop (n + 1) ++ rest := by
  unfold behindPiece
  rw [firstPiece_eq hv hrest, length_take_of_le (by omega)]
  dsimp only
  rw [drop_append_of_le_length (by omega)]
  obtain ⟨a, as, has⟩ := exists_cons_of_ne_nil (show v.drop (n + 1) ≠ [] by rw [ne_eq, drop_eq_nil_iff]; omega)
  have ha : sep a = false := hv a (mem_of_mem_drop (has ▸ mem_cons_self))
  rw [has, cons_append, head?_cons, Option.any_some, if_neg (by rw [ha]; exact Bool.false_ne_true)]

lemma exists_line (sep : α → Bool) (t : List α) :
    ∃ v rest, t = v ++ rest ∧ (∀ a ∈ v, sep a = false) ∧ ∀ a ∈ rest.head?, sep a = true := by
  refine ⟨t.takeWhile (!sep ·), t.dropWhile (!sep ·), takeWhile_append_dropWhile.symm, fun a ha => ?_, fun a ha => ?_⟩
  · simpa using mem_takeWhile_imp ha
  · have := head?_dropWhile_not (!sep ·) t
    rw [ha] at this
    simpa using this

/-- **A short buffer** reads the lines in pieces. -/
theorem cutLines_eq (n : Nat) (sep : α → Bool) (t : List α) :
    cutLines n sep t = (segments sep t).flatMap (pieces n) := by
  fun_induction cutLines n sep t with
  | case1 => rfl
  | case2 t hnil ih =>
    obtain ⟨v, rest, rfl, hv, hrest⟩ := exists_line sep t
    rw [ih, firstPiece_eq hv hrest, segments_line hv hrest hnil, flatMap_cons]
    by_cases hlen : v.length ≤ n + 1
    · rw [behindPiece_short hv hrest hlen, pieces_short hlen, take_of_length_le hlen]
      rfl
    · have hdrop : ∀ a ∈ v.drop (n + 1), sep a = false := fun a ha => hv a (mem_of_mem_drop ha)
      have hne : v.drop (n + 1) ++ rest ≠ [] := by
        intro hzero
        have hvnil := (append_eq_nil_iff.mp hzero).1
        rw [drop_eq_nil_iff] at hvnil
        exact hlen hvnil
      rw [behindPiece_long hv hrest hlen, segments_line hdrop hrest hne, flatMap_cons, pieces_long hlen]
      rfl

lemma cutLines_of_short (h : ∀ w ∈ segments sep t, w.length ≤ n + 1) : cutLines n sep t = segments sep t := by
  rw [cutLines_eq, flatMap_congr (fun w hw => pieces_short (h w hw))]
  exact flatMap_singleton' _

lemma length_le_of_mem_pieces {q : List α} (h : q ∈ pieces n w) : q.length ≤ n + 1 := by
  fun_induction pieces n w with
  | case1 w hshort =>
    rw [mem_singleton.mp h]
    exact hshort
  | case2 w hlong ih =>
    rcases mem_cons.mp h with rfl | h
    · exact length_take_le ..
    · exact ih h

/-- Lists put together from longer ones that are not longer have as many elements. -/
lemma length_eq_of_flatMap {f g : α → List β} {ws : List α} (hle : ∀ w ∈ ws, (f w).length ≤ (g w).length)
    (hlen : (ws.flatMap g).length ≤ (ws.flatMap f).length) : ∀ w ∈ ws, (g w).length = (f w).length := by
  have hall : ∀ us : List α, (∀ w ∈ us, (f w).length ≤ (g w).length) →
      (us.flatMap f).length ≤ (us.flatMap g).length := by
    intro us hus
    induction us with
    | nil => exact Nat.le_refl _
    | cons w us ih =>
      rw [forall_mem_cons] at hus
      rw [flatMap_cons, flatMap_cons, length_append, length_append]
      exact Nat.add_le_add hus.1 (ih hus.2)
  induction ws with
  | nil => exact fun w hw => absurd hw not_mem_nil
  | cons w ws ih =>
    rw [forall_mem_cons] at hle
    rw [flatMap_cons, flatMap_cons, length_append, length_append] at hlen
    have hrest := hall ws hle.2
    exact forall_mem_cons.mpr ⟨by omega, ih hle.2 (by omega)⟩

/-- **When pieces make no difference.** A line that a reader takes has a piece that it takes. It
takes the same from both exactly when it takes no piece of a line that is too long. -/
theorem filter_pieces_iff {p : List α → Bool} (hp : ∀ w, p w = true → ∃ q ∈ pieces n w, p q = true)
    (ws : List (List α)) :
    (ws.flatMap (pieces n)).filter p = ws.filter p ↔
      ∀ w ∈ ws, n + 1 < w.length → ∀ q ∈ pieces n w, p q = false := by
  have hlines : ws.filter p = ws.flatMap (fun w => [w].filter p) := by
    rw [← filter_flatMap, flatMap_singleton']
  have hshort : ∀ w : List α, ¬n + 1 < w.length → (pieces n w).filter p = [w].filter p := fun w hw => by
    rw [pieces_short (Nat.le_of_not_lt hw)]
  constructor
  · intro heq
    -- a long line that is taken is none of the pieces
    have hlong : ∀ w ∈ ws, n + 1 < w.length → p w = false := by
      intro w hw hlen
      refine Bool.eq_false_iff.mpr fun htrue => ?_
      have hmem : w ∈ (ws.flatMap (pieces n)).filter p := by
        rw [heq]
        exact mem_filter.mpr ⟨hw, htrue⟩
      obtain ⟨v, -, hpiece⟩ := mem_flatMap.mp (mem_filter.mp hmem).1
      have := length_le_of_mem_pieces hpiece
      omega
    have hle : ∀ w ∈ ws, ([w].filter p).length ≤ ((pieces n w).filter p).length := by
      intro w hw
      by_cases hlen : n + 1 < w.length
      · rw [filter_singleton, hlong w hw hlen]
        exact Nat.zero_le _
      · exact Nat.le_of_eq (congrArg length (hshort w hlen).symm)
    rw [filter_flatMap, hlines] at heq
    intro w hw hlen q hq
    have hcount := length_eq_of_flatMap hle (Nat.le_of_eq (congrArg length heq)) w hw
    rw [filter_singleton, hlong w hw hlen] at hcount
    have hnone : (pieces n w).filter p = [] := eq_nil_of_length_eq_zero hcount
    exact Bool.eq_false_iff.mpr (filter_eq_nil_iff.mp hnone q hq)
  · intro hfit
    rw [filter_flatMap, hlines]
    refine flatMap_congr fun w hw => ?_
    by_cases hlen : n + 1 < w.length
    · have hnone := hfit w hw hlen
      have hw' : p w = false := by
        refine Bool.eq_false_iff.mpr fun htrue => ?_
        obtain ⟨q, hq, hqtrue⟩ := hp w htrue
        exact Bool.eq_false_iff.mp (hnone q hq) hqtrue
      rw [filter_singleton, hw', filter_eq_nil_iff.mpr fun q hq => Bool.eq_false_iff.mp (hnone q hq)]
      rfl
    · exact hshort w hlen

end Pieces

/-! ## Words -/

/-- Two readers of at most `k` characters that stop where `p` or `q` fails copy the same if they
first stop at one place. -/
lemma take_takeWhile_eq_iff (p q : α → Bool) (l : List α) (k : Nat) :
    (l.takeWhile p).take k = (l.takeWhile q).take k ↔ ∀ c ∈ (l.takeWhile (fun c => p c || q c)).take k, p c = q c := by
  induction l generalizing k with
  | nil => simp
  | cons c cs ih =>
    cases k with
    | zero => simp
    | succ k =>
      rw [takeWhile_cons, takeWhile_cons, takeWhile_cons]
      -- where both go on, the rest decides; where one stops alone, one word is longer
      cases hp : p c <;> cases hq : q c
      · simp
      · simp [hp, hq]
      · simp [hp, hq]
      · simpa [hp, hq] using ih k

end LineScan
