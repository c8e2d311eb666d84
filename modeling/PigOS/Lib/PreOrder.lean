import Mathlib.Data.List.Infix

/-!
# `Lib.PreOrder` — trees laid out in a table in pre-order

`subtrees x t` lists the subtrees of `t` with their slots, the root at `x`. Slots are consecutive
(`getElem?_subtrees`), and every subtree fills a block of its own (`subtrees_infix`). The children
of a node are in the slots right after it exactly when all of them but the last are leaves
(`offsets_eq_iff`).
-/

namespace PreOrder

open List

variable {i : Nat}

/-- A tree with labelled nodes and ordered children. -/
inductive RoseTree (α : Type*) where
  | node (label : α) (children : List (RoseTree α))

namespace RoseTree

variable {α : Type*} {t s : RoseTree α} {y : Nat}

def label : RoseTree α → α
  | node a _ => a

def children : RoseTree α → List (RoseTree α)
  | node _ cs => cs

@[simp] lemma label_node (a : α) (cs : List (RoseTree α)) : (node a cs).label = a := rfl

@[simp] lemma children_node (a : α) (cs : List (RoseTree α)) : (node a cs).children = cs := rfl

mutual

/-- The number of nodes of a tree. -/
def size : RoseTree α → Nat
  | node _ cs => 1 + sizes cs

/-- The number of nodes of a list of trees. -/
def sizes : List (RoseTree α) → Nat
  | [] => 0
  | c :: cs => size c + sizes cs

end

lemma size_node (a : α) (cs : List (RoseTree α)) : (node a cs).size = 1 + sizes cs := by
  rw [size]

@[simp] lemma sizes_nil : sizes ([] : List (RoseTree α)) = 0 := by
  rw [sizes]

@[simp] lemma sizes_cons (c : RoseTree α) (cs : List (RoseTree α)) : sizes (c :: cs) = c.size + sizes cs := by
  rw [sizes]

lemma size_pos (t : RoseTree α) : 0 < t.size := by
  cases t with
  | node a cs =>
    rw [size_node]
    omega

lemma size_eq_one_iff (t : RoseTree α) : t.size = 1 ↔ t.children = [] := by
  cases t with
  | node a cs =>
    rw [size_node, children_node]
    cases cs with
    | nil => simp
    | cons c cs =>
      have := c.size_pos
      simp only [sizes_cons, reduceCtorEq, iff_false]
      omega

lemma length_le_sizes (cs : List (RoseTree α)) : cs.length ≤ sizes cs := by
  induction cs with
  | nil => simp
  | cons c cs ih =>
    have := c.size_pos
    rw [length_cons, sizes_cons]
    omega

/-! ## The layout -/

mutual

/-- The subtrees of a tree in pre-order, each with its slot, when the root is in slot `x`. -/
def subtrees (x : Nat) : RoseTree α → List (Nat × RoseTree α)
  | node a cs => (x, node a cs) :: forest (x + 1) cs

/-- The same for a list of trees, the first root in slot `x`. -/
def forest (x : Nat) : List (RoseTree α) → List (Nat × RoseTree α)
  | [] => []
  | c :: cs => subtrees x c ++ forest (x + c.size) cs

end

lemma subtrees_node (x : Nat) (a : α) (cs : List (RoseTree α)) :
    (node a cs).subtrees x = (x, node a cs) :: forest (x + 1) cs := by
  rw [subtrees]

lemma subtrees_eq (x : Nat) (t : RoseTree α) : t.subtrees x = (x, t) :: forest (x + 1) t.children := by
  cases t with
  | node a cs => exact subtrees_node x a cs

@[simp] lemma forest_nil (x : Nat) : forest x ([] : List (RoseTree α)) = [] := by
  rw [forest]

lemma forest_cons (x : Nat) (c : RoseTree α) (cs : List (RoseTree α)) :
    forest x (c :: cs) = c.subtrees x ++ forest (x + c.size) cs := by
  rw [forest]

mutual

theorem length_subtrees (x : Nat) : ∀ t : RoseTree α, (t.subtrees x).length = t.size
  | node a cs => by
    rw [subtrees_node, length_cons, length_forest (x + 1) cs, size_node]
    omega

theorem length_forest (x : Nat) : ∀ cs : List (RoseTree α), (forest x cs).length = sizes cs
  | [] => by simp
  | c :: cs => by
    rw [forest_cons, length_append, length_subtrees x c, length_forest _ cs, sizes_cons]

end

mutual

/-- Slots are consecutive: the `j`-th subtree is in the `j`-th slot. -/
theorem getElem?_subtrees (x : Nat) : ∀ (t : RoseTree α) {j y : Nat} {s : RoseTree α},
    (t.subtrees x)[j]? = some (y, s) → y = x + j
  | node a cs, j, y, s, h => by
    rw [subtrees_node] at h
    cases j with
    | zero =>
      simp only [getElem?_cons_zero, Option.some.injEq, Prod.mk.injEq] at h
      exact h.1.symm
    | succ j =>
      rw [getElem?_cons_succ] at h
      have := getElem?_forest (x + 1) cs h
      omega

theorem getElem?_forest (x : Nat) : ∀ (cs : List (RoseTree α)) {j y : Nat} {s : RoseTree α},
    (forest x cs)[j]? = some (y, s) → y = x + j
  | [], j, y, s, h => by simp at h
  | c :: cs, j, y, s, h => by
    rw [forest_cons] at h
    by_cases hj : j < c.size
    · rw [getElem?_append_left (by rw [length_subtrees]; exact hj)] at h
      exact getElem?_subtrees x c h
    · rw [getElem?_append_right (by rw [length_subtrees]; omega), length_subtrees] at h
      have := getElem?_forest (x + c.size) cs h
      omega

end

mutual

/-- Every subtree fills a block of its own. -/
theorem subtrees_infix (x : Nat) : ∀ (t : RoseTree α) {y : Nat} {s : RoseTree α}, (y, s) ∈ t.subtrees x →
    ∃ pre post, t.subtrees x = pre ++ (s.subtrees y ++ post) ∧ y = x + pre.length
  | node a cs, y, s, h => by
    rw [subtrees_node, mem_cons, Prod.mk.injEq] at h
    rcases h with ⟨rfl, rfl⟩ | h
    · exact ⟨[], [], by simp, rfl⟩
    · obtain ⟨pre, post, heq, hy⟩ := forest_infix (x + 1) cs h
      refine ⟨(x, node a cs) :: pre, post, ?_, ?_⟩
      · rw [subtrees_node, heq, cons_append]
      · rw [hy, length_cons]
        omega

theorem forest_infix (x : Nat) : ∀ (cs : List (RoseTree α)) {y : Nat} {s : RoseTree α}, (y, s) ∈ forest x cs →
    ∃ pre post, forest x cs = pre ++ (s.subtrees y ++ post) ∧ y = x + pre.length
  | [], y, s, h => by simp at h
  | c :: cs, y, s, h => by
    rw [forest_cons, mem_append] at h
    rcases h with h | h
    · obtain ⟨pre, post, heq, hy⟩ := subtrees_infix x c h
      refine ⟨pre, post ++ forest (x + c.size) cs, ?_, hy⟩
      rw [forest_cons, heq, append_assoc, append_assoc]
    · obtain ⟨pre, post, heq, hy⟩ := forest_infix (x + c.size) cs h
      refine ⟨c.subtrees x ++ pre, post, ?_, ?_⟩
      · rw [forest_cons, heq, append_assoc]
      · rw [hy, length_append, length_subtrees]
        omega

end

/-- A table that holds a tree holds every subtree in its slots. -/
lemma getElem?_of_mem_subtrees (h : (y, s) ∈ t.subtrees 0) {j : Nat}
    (hj : j < s.size) : (t.subtrees 0)[y + j]? = (s.subtrees y)[j]? := by
  obtain ⟨pre, post, heq, hy⟩ := subtrees_infix 0 t h
  rw [heq, hy, Nat.zero_add, getElem?_append_right (Nat.le_add_right _ _), Nat.add_sub_cancel_left,
    getElem?_append_left (by rw [length_subtrees]; exact hj)]

lemma slot_add_size_le (h : (y, s) ∈ t.subtrees 0) : y + s.size ≤ t.size := by
  have hpos := s.size_pos
  have hlast := getElem?_of_mem_subtrees h (Nat.sub_lt hpos (Nat.one_pos))
  have hsome : (s.subtrees y)[s.size - 1]? ≠ none := by
    rw [ne_eq, List.getElem?_eq_none_iff, length_subtrees]
    omega
  rw [← hlast, ne_eq, List.getElem?_eq_none_iff, length_subtrees] at hsome
  omega

/-- The nodes of a list of trees in pre-order, as the subtrees they are the roots of. -/
def nodes (cs : List (RoseTree α)) : List (RoseTree α) := (forest 0 cs).map Prod.snd

mutual

theorem map_snd_subtrees (x y : Nat) : ∀ t : RoseTree α,
    (t.subtrees x).map Prod.snd = (t.subtrees y).map Prod.snd
  | node a cs => by
    rw [subtrees_node, subtrees_node, map_cons, map_cons, map_snd_forest (x + 1) (y + 1) cs]

theorem map_snd_forest (x y : Nat) : ∀ cs : List (RoseTree α),
    (forest x cs).map Prod.snd = (forest y cs).map Prod.snd
  | [] => by simp
  | c :: cs => by
    rw [forest_cons, forest_cons, map_append, map_append, map_snd_subtrees x y c,
      map_snd_forest (x + c.size) (y + c.size) cs]

end

/-- The slots after a node hold the nodes below it, in pre-order. -/
lemma getElem?_below (h : (y, s) ∈ t.subtrees 0) {p : Nat} (hp : p < sizes s.children) :
    ∃ c, (t.subtrees 0)[y + (1 + p)]? = some (y + (1 + p), c) ∧ (nodes s.children)[p]? = some c := by
  have hlen : p < (forest (y + 1) s.children).length := by
    rw [length_forest]
    exact hp
  obtain ⟨⟨z, c⟩, hget⟩ : ∃ zc, (forest (y + 1) s.children)[p]? = some zc :=
    ⟨_, getElem?_eq_getElem hlen⟩
  have hz := getElem?_forest (y + 1) s.children hget
  have hsize : 1 + p < s.size := by
    cases s with
    | node a cs =>
      rw [size_node]
      rw [children_node] at hp
      omega
  refine ⟨c, ?_, ?_⟩
  · rw [getElem?_of_mem_subtrees h hsize, subtrees_eq, Nat.add_comm 1 p, getElem?_cons_succ, hget, hz,
      Nat.add_assoc, Nat.add_comm 1 p]
  · unfold nodes
    rw [map_snd_forest 0 (y + 1), getElem?_map, hget]
    rfl

/-! ## Siblings -/

/-- How far behind the first of some siblings the `i`-th one lies. -/
def offset (cs : List (RoseTree α)) (i : Nat) : Nat := sizes (cs.take i)

lemma offset_zero (cs : List (RoseTree α)) : offset cs 0 = 0 := by
  unfold offset
  simp

lemma offset_succ (c : RoseTree α) (cs : List (RoseTree α)) (i : Nat) :
    offset (c :: cs) (i + 1) = c.size + offset cs i := by
  unfold offset
  rw [take_succ_cons, sizes_cons]

variable {cs : List (RoseTree α)} {c : RoseTree α}

/-- The `i`-th of some siblings is in the forest, in its slot. -/
lemma getElem?_forest_offset (x : Nat) (h : cs[i]? = some c) :
    (forest x cs)[offset cs i]? = some (x + offset cs i, c) := by
  induction cs generalizing x i with
  | nil => simp at h
  | cons d cs ih =>
    rw [forest_cons]
    cases i with
    | zero =>
      rw [getElem?_cons_zero, Option.some.injEq] at h
      rw [offset_zero, h, subtrees_eq]
      rfl
    | succ i =>
      rw [getElem?_cons_succ] at h
      rw [offset_succ, getElem?_append_right (by rw [length_subtrees]; omega), length_subtrees,
        Nat.add_sub_cancel_left, ih (x + d.size) h, Nat.add_assoc]

lemma getElem?_nodes_offset (h : cs[i]? = some c) :
    (nodes cs)[offset cs i]? = some c := by
  unfold nodes
  rw [getElem?_map, getElem?_forest_offset 0 h]
  rfl

/-- **Siblings are in consecutive slots exactly when all but the last are leaves.** -/
theorem offsets_eq_iff (cs : List (RoseTree α)) :
    (∀ i < cs.length, offset cs i = i) ↔ ∀ c ∈ cs.dropLast, c.children = [] := by
  induction cs with
  | nil => simp
  | cons c cs ih =>
    cases cs with
    | nil =>
      simp only [dropLast_singleton, not_mem_nil, false_implies, implies_true, iff_true]
      intro i hi
      rw [length_singleton, Nat.lt_one_iff] at hi
      rw [hi, offset_zero]
    | cons d cs =>
      rw [dropLast_cons_cons, forall_mem_cons, ← ih, ← size_eq_one_iff]
      constructor
      · intro h
        -- the second sibling shows that the first one is a leaf
        have h1 := h 1 (by simp)
        rw [offset_succ, offset_zero] at h1
        refine ⟨by omega, fun i hi => ?_⟩
        have hi' := h (i + 1) (by rw [length_cons]; omega)
        rw [offset_succ] at hi'
        omega
      · rintro ⟨hsize, h⟩ i hi
        cases i with
        | zero => exact offset_zero _
        | succ i =>
          rw [length_cons] at hi
          rw [offset_succ, hsize, h i (by omega)]
          omega

/-! ## Tables

A table has one entry for each slot, made by `f` from the slot and the subtree in it. -/

section Table

variable {β : Type v} (f : Nat × RoseTree α → β)

def table (x : Nat) (t : RoseTree α) : List β := (t.subtrees x).map f

def tables (x : Nat) (cs : List (RoseTree α)) : List β := (forest x cs).map f

lemma table_eq (x : Nat) (t : RoseTree α) : table f x t = f (x, t) :: tables f (x + 1) t.children := by
  unfold table tables
  rw [subtrees_eq, map_cons]

lemma tables_nil (x : Nat) : tables f x ([] : List (RoseTree α)) = [] := by
  unfold tables
  rw [forest_nil, map_nil]

lemma tables_cons (x : Nat) (c : RoseTree α) (cs : List (RoseTree α)) :
    tables f x (c :: cs) = table f x c ++ tables f (x + c.size) cs := by
  unfold tables table
  rw [forest_cons, map_append]

lemma length_table (x : Nat) (t : RoseTree α) : (table f x t).length = t.size := by
  unfold table
  rw [length_map, length_subtrees]

lemma getElem?_table (h : (y, s) ∈ t.subtrees 0) : (table f 0 t)[y]? = some (f (y, s)) := by
  have hroot := getElem?_of_mem_subtrees h s.size_pos
  rw [Nat.add_zero, subtrees_eq y s, getElem?_cons_zero] at hroot
  unfold table
  rw [getElem?_map, hroot, Option.map_some]

end Table

end RoseTree

/-! ## Writing to a list that has been extended -/

lemma modify_append {β : Type v} (f : β → β) (l : List β) {t : List β} (h : i < t.length) :
    (t ++ l).modify i f = t.modify i f ++ l := by
  induction t generalizing i with
  | nil => exact absurd h (Nat.not_lt_zero i)
  | cons n t ih =>
    cases i with
    | zero => rfl
    | succ i =>
      rw [cons_append, modify_succ_cons, modify_succ_cons, cons_append,
        ih (by rw [length_cons] at h; omega)]

lemma modify_length_append {β : Type v} (f : β → β) (t l : List β) (n : β) :
    (t ++ n :: l).modify t.length f = t ++ f n :: l := by
  induction t with
  | nil => rfl
  | cons m t ih => rw [cons_append, length_cons, modify_succ_cons, ih, cons_append]

end PreOrder
