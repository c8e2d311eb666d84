import Mathlib.Data.List.Basic

/-!
# `Lib.Components` — lists cut at a separator

`List.splitOn` cuts a list at every separator, `join` writes a separator before each piece, and each
undoes the other (`join_splitOn`, `splitOn_join`). `pieces` are the pieces that are not empty.
-/

namespace Components

open List

variable {α : Type*} (sep : α)

/-- The pieces, with a separator before each. -/
def join (cs : List (List α)) : List α := cs.flatMap (sep :: ·)

@[simp] lemma join_nil : join sep ([] : List (List α)) = [] := rfl

@[simp] lemma join_cons (c : List α) (cs : List (List α)) : join sep (c :: cs) = sep :: (c ++ join sep cs) := rfl

lemma join_append (cs ds : List (List α)) : join sep (cs ++ ds) = join sep cs ++ join sep ds := flatMap_append

lemma join_concat (cs : List (List α)) (c : List α) : join sep (cs ++ [c]) = join sep cs ++ sep :: c := by
  rw [join_append, join_cons, join_nil, append_nil]

/-! ## Cutting -/

variable {c l : List α}

lemma not_isEmpty_iff : (!c.isEmpty) = true ↔ c ≠ [] := by
  rw [Bool.not_eq_true', isEmpty_eq_false_iff]

variable [BEq α]

lemma splitOn_eq_cons (l : List α) : ∃ c cs, l.splitOn sep = c :: cs :=
  exists_cons_of_ne_nil (splitOn_ne_nil sep l)

/-- The pieces of a list that are not empty. -/
def pieces (l : List α) : List (List α) := (l.splitOn sep).filter (fun c => !c.isEmpty)

lemma mem_pieces : c ∈ pieces sep l ↔ c ∈ l.splitOn sep ∧ c ≠ [] := by
  unfold pieces
  rw [mem_filter, not_isEmpty_iff]

variable [LawfulBEq α] {cs : List (List α)}

lemma splitOn_cons_self (l : List α) : (sep :: l).splitOn sep = [] :: l.splitOn sep :=
  splitOn_append_cons_self [] l

lemma join_splitOn (l : List α) : join sep (l.splitOn sep) = sep :: l := by
  induction l with
  | nil => rfl
  | cons a l ih =>
    rw [splitOn_cons_eq_if_modifyHead]
    split
    · rename_i ha
      rw [join_cons, ih, LawfulBEq.eq_of_beq ha]
      rfl
    · obtain ⟨c, cs, hsplit⟩ := splitOn_eq_cons sep l
      rw [hsplit, join_cons] at ih
      rw [hsplit, modifyHead_cons, join_cons, cons_append, (cons.inj ih).2]

lemma not_mem_of_mem_splitOn (hc : c ∈ l.splitOn sep) : sep ∉ c := by
  induction l generalizing c with
  | nil =>
    rw [splitOn_nil, mem_singleton] at hc
    rw [hc]
    exact not_mem_nil
  | cons a l ih =>
    rw [splitOn_cons_eq_if_modifyHead] at hc
    split at hc
    · rcases mem_cons.mp hc with rfl | hc
      · exact not_mem_nil
      · exact ih hc
    · rename_i ha
      obtain ⟨d, ds, hsplit⟩ := splitOn_eq_cons sep l
      rw [hsplit] at hc ih
      rcases mem_cons.mp hc with rfl | hc
      · rintro (_ | ⟨_, hmem⟩)
        · exact ha (BEq.refl _)
        · exact ih mem_cons_self hmem
      · exact ih (mem_cons_of_mem _ hc)

lemma splitOn_join (h : ∀ c ∈ cs, sep ∉ c) : (join sep cs).splitOn sep = [] :: cs := by
  induction cs with
  | nil => rfl
  | cons c cs ih =>
    have ih := ih (fun d hd => h d (mem_cons_of_mem c hd))
    have hc : sep ∉ c := h c mem_cons_self
    rw [join_cons, splitOn_cons_self]
    cases cs with
    | nil => rw [join_nil, append_nil, splitOn_eq_singleton hc]
    | cons d ds =>
      rw [join_cons, splitOn_cons_self] at ih
      rw [join_cons, splitOn_append_cons_self_of_not_mem hc, (cons.inj ih).2]

/-! ## Pieces -/

lemma pieces_append_cons_self (l m : List α) : pieces sep (l ++ sep :: m) = pieces sep l ++ pieces sep m := by
  unfold pieces
  rw [splitOn_append_cons_self, filter_append]

lemma pieces_cons_self (l : List α) : pieces sep (sep :: l) = pieces sep l := pieces_append_cons_self sep [] l

lemma pieces_join (hne : ∀ c ∈ cs, c ≠ []) (h : ∀ c ∈ cs, sep ∉ c) :
    pieces sep (join sep cs) = cs := by
  unfold pieces
  rw [splitOn_join sep h, filter_cons_of_neg Bool.false_ne_true]
  exact filter_eq_self.mpr (fun c hc => not_isEmpty_iff.mpr (hne c hc))

lemma pieces_eq_nil_iff : pieces sep l = [] ↔ ∀ a ∈ l, a = sep := by
  induction l with
  | nil => exact ⟨fun _ => forall_mem_nil _, fun _ => rfl⟩
  | cons a l ih =>
    rw [forall_mem_cons]
    by_cases ha : a = sep
    · rw [ha, pieces_cons_self, ih]
      exact ⟨fun h => ⟨rfl, h⟩, fun h => h.2⟩
    · obtain ⟨c, cs, hsplit⟩ := splitOn_eq_cons sep l
      have hhead : a :: c ∈ pieces sep (a :: l) := by
        refine (mem_pieces sep).mpr ⟨?_, cons_ne_nil a c⟩
        rw [splitOn_cons_eq_if_modifyHead, if_neg (fun h => ha (LawfulBEq.eq_of_beq h)), hsplit]
        exact mem_cons_self
      constructor
      · intro h
        rw [h] at hhead
        exact absurd hhead not_mem_nil
      · exact fun h => absurd h.1 ha

end Components
