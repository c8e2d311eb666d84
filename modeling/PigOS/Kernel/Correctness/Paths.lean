import PigOS.Kernel.Pigfs
import PigOS.Lib.Components

/-!
# `Kernel.Correctness.Paths` — paths as walks over directories

A directory is the list of the names that lead to it from the root. A path is cut at its slashes,
and each component takes one step: `.` and the empty component stay, `..` goes up, any other one
goes down. `path_normalize`, which ends every resolution, does not walk: it removes one trailing
slash and merges the others (`pathNormalize_slash`).
-/

namespace PigOS.Kernel

open Components List

variable {c p : CStr} {cs : List CStr} {a : CChar}

/-! ## Directories and walks -/

/-- A component that names an entry of a directory. -/
def IsName (c : CStr) : Prop := c ≠ [] ∧ c ≠ [dot] ∧ c ≠ [dot, dot] ∧ ∀ b ∈ c, b ≠ slash

instance : DecidablePred IsName := fun c =>
  haveI : Decidable (∀ b ∈ c, b ≠ slash) := List.decidableBAll _ c
  inferInstanceAs (Decidable (c ≠ [] ∧ c ≠ [dot] ∧ c ≠ [dot, dot] ∧ ∀ b ∈ c, b ≠ slash))

abbrev Name := { c : CStr // IsName c }

lemma IsName.not_mem (h : IsName c) : slash ∉ c := fun hmem => h.2.2.2 slash hmem rfl

/-- One component of a path. -/
def descend (d : List Name) (c : CStr) : List Name :=
  if h : IsName c then d ++ [⟨c, h⟩] else if c = [dot, dot] then d.dropLast else d

/-- The directory that a path leads to from `d`. -/
def walk (d : List Name) (path : CStr) : List Name := (path.splitOn slash).foldl descend d

/-- Components as a path: the root is a slash, below it each component has a slash before it. -/
def slashed (cs : List CStr) : CStr := if cs = [] then [slash] else join slash cs

/-- The canonical path of a directory. -/
def render (d : List Name) : CStr := slashed (d.map Subtype.val)

/-- The root, or a path from a slash on with no empty, `.` or `..` component and no trailing
slash. -/
def Canonical (p : CStr) : Prop := p = [slash] ∨ p.head? = some slash ∧ ∀ c ∈ p.tail.splitOn slash, IsName c

@[simp] lemma descend_nil (d : List Name) : descend d [] = d := by
  unfold descend
  rw [dif_neg (fun h => h.1 rfl), if_neg (cons_ne_nil _ _).symm]

@[simp] lemma descend_dot (d : List Name) : descend d [dot] = d := by
  unfold descend
  rw [dif_neg (fun h => h.2.1 rfl), if_neg (by decide)]

@[simp] lemma descend_up (d : List Name) : descend d [dot, dot] = d.dropLast := by
  unfold descend
  rw [dif_neg (fun h => h.2.2.1 rfl), if_pos rfl]

lemma descend_name (d : List Name) (h : IsName c) : descend d c = d ++ [⟨c, h⟩] := dif_pos h

/-- A component of a path is a name, or it is one of the three that are not. -/
lemma component_cases (h : slash ∉ c) : c = [] ∨ c = [dot] ∨ c = [dot, dot] ∨ IsName c := by
  by_cases h0 : c = []
  · exact .inl h0
  by_cases h1 : c = [dot]
  · exact .inr (.inl h1)
  by_cases h2 : c = [dot, dot]
  · exact .inr (.inr (.inl h2))
  exact .inr (.inr (.inr ⟨h0, h1, h2, fun b hb he => h (he ▸ hb)⟩))

@[simp] lemma walk_nil (d : List Name) : walk d [] = d := descend_nil d

lemma walk_append_slash (d : List Name) (p q : CStr) : walk d (p ++ slash :: q) = walk (walk d p) q := by
  unfold walk
  rw [splitOn_append_cons_self, foldl_append]

lemma walk_slash (d : List Name) (p : CStr) : walk d (slash :: p) = walk d p := by
  have h := walk_append_slash d [] p
  rwa [walk_nil] at h

lemma walk_component (d : List Name) (h : slash ∉ c) : walk d c = descend d c := by
  unfold walk
  rw [splitOn_eq_singleton h]
  rfl

/-! ## Canonical paths -/

lemma slashed_cons (c : CStr) (cs : List CStr) : slashed (c :: cs) = join slash (c :: cs) := if_neg (cons_ne_nil c cs)

lemma slashed_of_ne_nil (h : cs ≠ []) : slashed cs = join slash cs := if_neg h

@[simp] lemma slashed_nil : slashed [] = [slash] := rfl

lemma render_concat (d : List Name) (n : Name) :
    render (d ++ [n]) = join slash (d.map Subtype.val) ++ slash :: n.val := by
  unfold render
  rw [map_append, slashed_of_ne_nil (by simp)]
  exact join_concat slash _ _

lemma pieces_slashed (hne : ∀ c ∈ cs, c ≠ []) (h : ∀ c ∈ cs, slash ∉ c) : pieces slash (slashed cs) = cs := by
  cases cs with
  | nil => decide
  | cons c cs =>
    rw [slashed_cons]
    exact pieces_join slash hne h

lemma names_ne_nil (d : List Name) : ∀ c ∈ d.map Subtype.val, c ≠ [] := by
  intro c hc
  obtain ⟨n, -, rfl⟩ := mem_map.mp hc
  exact n.property.1

lemma names_not_mem (d : List Name) : ∀ c ∈ d.map Subtype.val, slash ∉ c := by
  intro c hc
  obtain ⟨n, -, rfl⟩ := mem_map.mp hc
  exact n.property.not_mem

lemma pieces_render (d : List Name) : pieces slash (render d) = d.map Subtype.val :=
  pieces_slashed (names_ne_nil d) (names_not_mem d)

lemma walk_of_names (d : List Name) (h : ∀ c ∈ p.splitOn slash, c ≠ [dot] ∧ c ≠ [dot, dot]) :
    (walk d p).map Subtype.val = d.map Subtype.val ++ pieces slash p := by
  have hfree : ∀ c ∈ p.splitOn slash, slash ∉ c := fun c hc => not_mem_of_mem_splitOn slash hc
  unfold walk pieces
  generalize p.splitOn slash = cs at h hfree
  induction cs generalizing d with
  | nil => exact (append_nil _).symm
  | cons c cs ih =>
    rw [forall_mem_cons] at h hfree
    rw [foldl_cons, ih _ h.2 hfree.2]
    rcases component_cases hfree.1 with rfl | hdot | hup | hname
    · rw [descend_nil, filter_cons_of_neg Bool.false_ne_true]
    · exact absurd hdot h.1.1
    · exact absurd hup h.1.2
    · rw [descend_name d hname, map_append, append_assoc,
        filter_cons_of_pos (p := fun c : CStr => !c.isEmpty) (not_isEmpty_iff.mpr hname.1)]
      rfl

lemma mem_splitOn_of_mem_pieces (h : c ∈ pieces slash p) : c ∈ p.splitOn slash := ((mem_pieces slash).mp h).1

lemma render_eq_cons (d : List Name) : ∃ p, render d = slash :: p := by
  unfold render
  cases d with
  | nil => exact ⟨[], rfl⟩
  | cons n d =>
    rw [map_cons, slashed_cons]
    exact ⟨_, rfl⟩

lemma canonical_render (d : List Name) : Canonical (render d) := by
  cases d with
  | nil => exact .inl rfl
  | cons n d =>
    have hjoin : render (n :: d) = join slash ((n :: d).map Subtype.val) := slashed_cons _ _
    have hsplit := splitOn_join slash (names_not_mem (n :: d))
    rw [map_cons, join_cons, splitOn_cons_self] at hsplit
    refine .inr ⟨by rw [hjoin]; rfl, fun c hc => ?_⟩
    rw [hjoin, map_cons, join_cons, tail_cons, (cons.inj hsplit).2, ← map_cons] at hc
    obtain ⟨m, -, rfl⟩ := mem_map.mp hc
    exact m.property

lemma Canonical.render_walk (h : Canonical p) : render (walk [] p) = p := by
  rcases h with rfl | ⟨hhead, hnames⟩
  · decide
  · obtain ⟨q, rfl⟩ : ∃ q, p = slash :: q := head?_eq_some_iff.mp hhead
    rw [tail_cons] at hnames
    have hwalk : (walk [] q).map Subtype.val = pieces slash q :=
      walk_of_names [] (fun c hc => ⟨(hnames c hc).2.1, (hnames c hc).2.2.1⟩)
    have hpieces : pieces slash q = q.splitOn slash :=
      filter_eq_self.mpr (fun c hc => not_isEmpty_iff.mpr (hnames c hc).1)
    rw [walk_slash, render, hwalk, hpieces, slashed_of_ne_nil (splitOn_ne_nil slash q), join_splitOn]

lemma Canonical.noDots (h : Canonical p) : ∀ c ∈ p.splitOn slash, c ≠ [dot] ∧ c ≠ [dot, dot] := by
  rcases h with rfl | ⟨hhead, hnames⟩
  · decide
  · obtain ⟨q, rfl⟩ : ∃ q, p = slash :: q := head?_eq_some_iff.mp hhead
    rw [splitOn_cons_self, forall_mem_cons]
    exact ⟨by decide, fun c hc => ⟨(hnames c hc).2.1, (hnames c hc).2.2.1⟩⟩

lemma walk_render (d : List Name) : walk [] (render d) = d := by
  have hmap := walk_of_names [] (canonical_render d).noDots
  rw [pieces_render, map_nil, nil_append] at hmap
  exact map_injective_iff.mpr Subtype.val_injective hmap

/-! ## `path_normalize` -/

/-- Two slashes at the end. -/
def EndsDouble (p : CStr) : Prop := [slash, slash] <:+ p

@[simp] lemma collapseSlashes_nil : collapseSlashes [] = [] := rfl

lemma collapseSlashes_cons (ha : a ≠ slash) (p : CStr) :
    collapseSlashes (a :: p) = a :: collapseSlashes p := by
  cases p with
  | nil => rfl
  | cons b p => rw [collapseSlashes, if_neg (fun h => ha h.1)]

lemma collapseSlashes_append (hc : slash ∉ c) (p : CStr) : collapseSlashes (c ++ p) = c ++ collapseSlashes p := by
  induction c with
  | nil => rfl
  | cons a c ih =>
    rw [mem_cons, not_or] at hc
    rw [cons_append, collapseSlashes_cons (Ne.symm hc.1), ih hc.2]
    rfl

lemma collapseSlashes_slash_cons (ha : a ≠ slash) (p : CStr) :
    collapseSlashes (slash :: a :: p) = slash :: collapseSlashes (a :: p) := by
  rw [collapseSlashes, if_neg (fun h => ha h.2)]

lemma collapseSlashes_slash_append (hne : c ≠ []) (hc : slash ∉ c) (p : CStr) :
    collapseSlashes (slash :: (c ++ p)) = slash :: (c ++ collapseSlashes p) := by
  cases c with
  | nil => exact absurd rfl hne
  | cons a c =>
    have ha : a ≠ slash := fun h => hc (h ▸ mem_cons_self)
    rw [cons_append, collapseSlashes_slash_cons ha, ← cons_append, collapseSlashes_append hc]

/-- Merging slashes removes the empty components, except that a last one leaves a slash. -/
lemma collapseSlashes_join (h : ∀ c ∈ cs, slash ∉ c) (c : CStr) (hc : slash ∉ c) :
    collapseSlashes (join slash (cs ++ [c])) = join slash (cs.filter (fun c => !c.isEmpty)) ++ slash :: c := by
  induction cs with
  | nil =>
    rw [nil_append, join_cons, join_nil]
    cases c with
    | nil => rfl
    | cons a c =>
      rw [collapseSlashes_slash_append (cons_ne_nil a c) hc, collapseSlashes_nil, append_nil]
      rfl
  | cons d cs ih =>
    rw [forall_mem_cons] at h
    obtain ⟨q, hq⟩ : ∃ q, join slash (cs ++ [c]) = slash :: q := by
      cases cs with
      | nil => exact ⟨_, rfl⟩
      | cons e cs => exact ⟨_, rfl⟩
    rw [cons_append, join_cons]
    by_cases hd : d = []
    · rw [hd, filter_cons_of_neg Bool.false_ne_true, ← ih h.2, nil_append, hq, collapseSlashes,
        if_pos ⟨rfl, rfl⟩]
    · rw [collapseSlashes_slash_append hd h.1, ih h.2,
        filter_cons_of_pos (p := fun c : CStr => !c.isEmpty) (not_isEmpty_iff.mpr hd), join_cons,
        cons_append, append_assoc]

lemma splitOn_eq_concat (p : CStr) : ∃ cs c, p.splitOn slash = cs ++ [c] ∧ (∀ d ∈ cs, slash ∉ d) ∧ slash ∉ c := by
  obtain ⟨cs, c, hsplit⟩ := (eq_nil_or_concat (p.splitOn slash)).resolve_left (splitOn_ne_nil slash p)
  rw [concat_eq_append] at hsplit
  have hfree : ∀ d ∈ cs ++ [c], slash ∉ d := fun d hd => not_mem_of_mem_splitOn slash (hsplit ▸ hd)
  rw [forall_mem_append] at hfree
  exact ⟨cs, c, hsplit, hfree.1, hfree.2 c mem_cons_self⟩

lemma getLast?_component (hne : c ≠ []) (hc : slash ∉ c) : (p ++ slash :: c).getLast? ≠ some slash := by
  obtain ⟨c, a, rfl⟩ := (eq_nil_or_concat c).resolve_left hne
  rw [concat_eq_append] at hc ⊢
  rw [← cons_append, ← append_assoc, getLast?_concat]
  intro h
  exact hc (mem_append_right c (mem_singleton.mpr (Option.some.inj h).symm))

lemma not_endsDouble_component (hne : c ≠ []) (hc : slash ∉ c) : ¬ EndsDouble (p ++ slash :: c) := by
  rintro ⟨q, hq⟩
  refine getLast?_component (p := p) hne hc ?_
  rw [← hq]
  exact getLast?_append_of_ne_nil q (by decide)

lemma filter_concat (hne : c ≠ []) :
    (cs ++ [c]).filter (fun c => !c.isEmpty) = cs.filter (fun c => !c.isEmpty) ++ [c] := by
  rw [filter_append, filter_cons_of_pos (p := fun c : CStr => !c.isEmpty) (not_isEmpty_iff.mpr hne),
    filter_nil]

lemma pathNormalize_join (hcs : ∀ d ∈ cs, slash ∉ d) (hne : c ≠ []) (hc : slash ∉ c) :
    pathNormalize (join slash (cs ++ [c])) = slashed ((cs ++ [c]).filter (fun c => !c.isEmpty)) := by
  have hlast : ¬ (1 < (join slash (cs ++ [c])).length ∧ (join slash (cs ++ [c])).getLast? = some slash) := by
    rw [join_concat]
    exact fun h => getLast?_component hne hc h.2
  rw [pathNormalize, if_neg hlast, collapseSlashes_join hcs c hc, filter_concat hne, slashed_of_ne_nil (by simp),
    join_concat]

/-- A path that ends in a slash: it is removed, and what is before it may end in another one. -/
lemma pathNormalize_join_slash (hcs : ∀ d ∈ cs, slash ∉ d) (hc : slash ∉ c) :
    pathNormalize (join slash (cs ++ [c]) ++ [slash]) = join slash (cs.filter (fun c => !c.isEmpty)) ++ slash :: c := by
  have hlast : 1 < (join slash (cs ++ [c]) ++ [slash]).length ∧
      (join slash (cs ++ [c]) ++ [slash]).getLast? = some slash := by
    refine ⟨?_, getLast?_concat⟩
    rw [join_concat]
    simp only [length_append, length_cons, length_nil]
    omega
  rw [pathNormalize, if_pos hlast, dropLast_concat, collapseSlashes_join hcs c hc]

lemma endsDouble_join_slash (hc : slash ∉ c) : EndsDouble (join slash (cs ++ [c]) ++ [slash]) ↔ c = [] := by
  constructor
  · rintro ⟨q, hq⟩
    by_contra hne
    refine getLast?_component (p := join slash cs) hne hc ?_
    have hcut : q ++ [slash] = join slash (cs ++ [c]) := by
      have happ : (q ++ [slash]) ++ [slash] = join slash (cs ++ [c]) ++ [slash] := by
        rw [← hq, append_assoc]
        rfl
      exact append_cancel_right happ
    rw [← join_concat, ← hcut, getLast?_concat]
  · rintro rfl
    refine ⟨join slash cs, ?_⟩
    rw [join_concat, append_assoc]
    rfl

/-- **What `path_normalize` makes of an absolute path**: its components, with a slash behind them if
it ends in two. -/
theorem pathNormalize_slash (p : CStr) :
    (¬ EndsDouble (slash :: p) ∨ pieces slash p = [] → pathNormalize (slash :: p) = slashed (pieces slash p)) ∧
    (EndsDouble (slash :: p) → pieces slash p ≠ [] →
      pathNormalize (slash :: p) = join slash (pieces slash p) ++ [slash]) := by
  obtain ⟨cs, c, hsplit, hcs, hc⟩ := splitOn_eq_concat p
  have hp : slash :: p = join slash (cs ++ [c]) := by rw [← join_splitOn, hsplit]
  have hpieces : pieces slash p = (cs ++ [c]).filter (fun c => !c.isEmpty) := by rw [pieces, hsplit]
  by_cases hlast : c ≠ []
  · have hsingle : ¬ EndsDouble (slash :: p) := by
      rw [hp, join_concat]
      exact not_endsDouble_component hlast hc
    refine ⟨fun _ => ?_, fun h => absurd h hsingle⟩
    rw [hp, hpieces, pathNormalize_join hcs hlast hc]
  · rw [not_not] at hlast
    subst hlast
    rw [filter_append, filter_cons_of_neg Bool.false_ne_true, filter_nil, append_nil] at hpieces
    rw [join_concat] at hp
    rcases eq_nil_or_concat cs with rfl | ⟨ds, d, rfl⟩
    · obtain rfl : p = [] := (cons.inj hp).2
      exact ⟨fun _ => rfl, fun _ h => absurd rfl h⟩
    · rw [concat_eq_append] at hp hpieces hcs
      rw [forall_mem_append] at hcs
      have hd : slash ∉ d := hcs.2 d mem_cons_self
      rw [hp, hpieces, endsDouble_join_slash hd, pathNormalize_join_slash hcs.1 hd]
      by_cases hne : d = []
      · subst hne
        rw [filter_append, filter_cons_of_neg Bool.false_ne_true, filter_nil, append_nil]
        constructor
        · intro h
          rw [h.resolve_left (not_not_intro rfl)]
          rfl
        · exact fun _ _ => rfl
      · refine ⟨fun _ => ?_, fun h => absurd h hne⟩
        rw [filter_concat hne, slashed_of_ne_nil (by simp), join_concat]

lemma length_collapseSlashes_le (q : CStr) : (collapseSlashes q).length ≤ q.length := by
  induction q using collapseSlashes.induct with
  | case1 a b rest h ih =>
    rw [collapseSlashes, if_pos h]
    exact Nat.le_succ_of_le ih
  | case2 a b rest h ih =>
    rw [collapseSlashes, if_neg h]
    exact Nat.succ_le_succ ih
  | case3 q h => rw [collapseSlashes]; exact h

lemma length_pathNormalize_le (p : CStr) : (pathNormalize p).length ≤ p.length := by
  unfold pathNormalize
  refine Nat.le_trans (length_collapseSlashes_le _) ?_
  split
  · rw [length_dropLast]
    exact Nat.sub_le _ _
  · exact Nat.le_refl _

lemma pathNormalize_render (d : List Name) : pathNormalize (render d) = render d := by
  obtain ⟨p, hp⟩ := render_eq_cons d
  have hpieces : pieces slash p = d.map Subtype.val := by rw [← pieces_cons_self, ← hp, pieces_render]
  have hsingle : ¬ EndsDouble (slash :: p) ∨ pieces slash p = [] := by
    rcases eq_nil_or_concat d with rfl | ⟨d, n, rfl⟩
    · exact .inr hpieces
    · left
      rw [← hp, concat_eq_append, render_concat]
      exact not_endsDouble_component n.property.1 n.property.not_mem
  rw [hp, (pathNormalize_slash p).1 hsingle, hpieces, ← hp]
  rfl

end PigOS.Kernel
