import Mathlib.Data.List.TakeWhile
import PigOS.Kernel.Correctness.Paths

/-!
# `Kernel.Correctness.Resolve` — what `fs_resolve` makes of a path

* **Relative paths** are walked, as long as every directory on the way fits the buffer
  (`fsResolve_relative`).
* **Absolute paths** are only normalised: `.` and `..` stay in the result, and so does the slash
  that is left of two trailing ones. These are the only ways in which the two branches differ
  (`fsResolve_spellings_iff`).
-/

namespace PigOS.Kernel

open Components List

variable {d : List Name} {path : CStr}

/-! ## The component loop -/

/-- `c` is the next component of `p`, and `q` is what is left after it and its slash. -/
structure Next (p c q : CStr) : Prop where
  free : slash ∉ c
  take : p.takeWhile (· ≠ slash) = c
  skip : skipSlash (p.drop c.length) = q
  split : p = c ∧ q = [] ∨ p = c ++ slash :: q

lemma exists_next (p : CStr) : ∃ c q, Next p c q := by
  have hfree : slash ∉ p.takeWhile (· ≠ slash) := fun h => by simpa using mem_takeWhile_imp h
  have hp : p.takeWhile (· ≠ slash) ++ p.dropWhile (· ≠ slash) = p := takeWhile_append_dropWhile
  have hdrop : p.drop (p.takeWhile (· ≠ slash)).length = p.dropWhile (· ≠ slash) := by
    have h : (p.takeWhile (· ≠ slash) ++ p.dropWhile (· ≠ slash)).drop (p.takeWhile (· ≠ slash)).length =
        p.dropWhile (· ≠ slash) := drop_left
    rwa [hp] at h
  refine ⟨_, _, hfree, rfl, rfl, ?_⟩
  rw [hdrop]
  cases hrest : p.dropWhile (· ≠ slash) with
  | nil =>
    rw [hrest, append_nil] at hp
    exact .inl ⟨hp.symm, rfl⟩
  | cons a q =>
    have ha : a = slash := by
      have h := head?_dropWhile_not (p := (· ≠ slash)) p
      rw [hrest] at h
      simpa using h
    subst ha
    right
    rw [hrest] at hp
    rw [skipSlash, if_pos rfl, hp]

variable {c cwd p q : CStr} {cs : List CStr}

lemma Next.length_lt (h : Next p c q) (hne : c ≠ []) : q.length < p.length := by
  have hpos : 0 < c.length := length_pos_iff.mpr hne
  rcases h.split with ⟨rfl, rfl⟩ | hp
  · exact hpos
  · rw [hp, length_append, length_cons]
    omega

/-- What is next after a component that is not empty: the path does not begin with a slash. -/
lemma Next.dropWhile (h : Next p c q) (hne : c ≠ []) : p.dropWhile (· = slash) = p ∧ p ≠ [] := by
  obtain ⟨a, c, rfl⟩ := exists_cons_of_ne_nil hne
  have ha : a ≠ slash := fun ha => h.free (ha ▸ mem_cons_self)
  have hp : ∃ r, p = a :: r := by
    rcases h.split with ⟨rfl, -⟩ | rfl
    · exact ⟨c, rfl⟩
    · exact ⟨_, rfl⟩
  obtain ⟨r, rfl⟩ := hp
  exact ⟨dropWhile_cons_of_neg (by simpa using ha), cons_ne_nil a r⟩

lemma Next.take_length (h : Next p c q) : p.take c.length = c := by
  rcases h.split with ⟨rfl, -⟩ | rfl
  · exact List.take_length
  · exact take_left

lemma Next.walk (h : Next p c q) (d : List Name) : walk d p = Kernel.walk (descend d c) q := by
  rcases h.split with ⟨rfl, rfl⟩ | rfl
  · rw [walk_nil, walk_component d h.free]
  · rw [walk_append_slash, walk_component d h.free]

/-- Induction over the components of a path. -/
lemma path_induction {P : CStr → Prop} (hnil : P []) (hslash : ∀ p, P p → P (slash :: p))
    (hnext : ∀ p c q, Next p c q → c ≠ [] → P q → P p) (p : CStr) : P p := by
  induction hn : p.length using Nat.strongRecOn generalizing p with
  | ind n ih =>
    obtain ⟨c, q, h⟩ := exists_next p
    by_cases hne : c = []
    · subst hne
      rcases h.split with ⟨rfl, -⟩ | rfl
      · exact hnil
      · refine hslash q (ih q.length ?_ q rfl)
        rw [← hn]
        exact Nat.lt_succ_self _
    · exact hnext p c q h hne (ih q.length (hn ▸ h.length_lt hne) q rfl)

/-- The longest path that the loop still appends to without cutting. -/
def resolveMax : Nat := 253

/-- Every directory on the way fits the buffer. -/
def Fits (d : List Name) (path : CStr) : Prop :=
  ∀ cs, cs <+: path.splitOn slash → (render (cs.foldl descend d)).length ≤ resolveMax

lemma Fits.start (h : Fits d p) : (render d).length ≤ resolveMax := h [] nil_prefix

lemma Fits.walk_length (h : Fits d p) : (render (walk d p)).length ≤ resolveMax :=
  h _ (prefix_refl _)

lemma Fits.next (hfits : Fits d p) (h : Next p c q) : Fits (descend d c) q := by
  have hc := h.free
  intro cs hcs
  rcases h.split with ⟨rfl, rfl⟩ | rfl
  · rw [splitOn_nil] at hcs
    -- the only component left is empty
    have hstay : cs.foldl descend (descend d p) = descend d p := by
      rcases prefix_cons_iff.mp hcs with rfl | ⟨ds, rfl, hds⟩
      · rfl
      · rw [prefix_nil.mp hds, foldl_cons, foldl_nil, descend_nil]
    rw [hstay]
    refine hfits [p] ?_
    exact splitOn_eq_singleton hc ▸ prefix_refl [p]
  · refine hfits (c :: cs) ?_
    rw [splitOn_append_cons_self_of_not_mem hc]
    exact cons_prefix_cons.mpr ⟨rfl, hcs⟩

lemma Fits.tail (h : Fits d (slash :: p)) : Fits d p := by
  intro cs hcs
  have hmore := h ([] :: cs)
  rw [splitOn_cons_self, foldl_cons, descend_nil] at hmore
  exact hmore (cons_prefix_cons.mpr ⟨rfl, hcs⟩)

/-- `while(l>1&&out[l-1]!='/') l--` stops behind the last slash. -/
lemma backToSlash_component (p : CStr) (hc : slash ∉ c) {k : Nat} (hk : k ≤ c.length) :
    backToSlash (p ++ slash :: c) (p.length + k + 1) = p.length + 1 := by
  induction k with
  | zero =>
    rw [backToSlash, if_neg]
    rintro ⟨-, h⟩
    refine h ?_
    simp
  | succ k ih =>
    have hget : (p ++ slash :: c)[p.length + (k + 1)]? = some (c.get ⟨k, hk⟩) := by
      rw [getElem?_append_right (by omega), Nat.add_sub_cancel_left, getElem?_cons_succ,
        getElem?_eq_getElem hk]
      rfl
    have hstep : 0 < p.length + (k + 1) ∧ (p ++ slash :: c)[p.length + (k + 1)]? ≠ some slash := by
      refine ⟨by omega, ?_⟩
      rw [hget]
      exact fun h => hc ((Option.some.inj h) ▸ getElem_mem hk)
    rw [backToSlash, if_pos hstep]
    exact ih (by omega)

lemma up_render (d : List Name) : (render d).take (max (if 1 < backToSlash (render d) (render d).length then
      backToSlash (render d) (render d).length - 1 else backToSlash (render d)
        (render d).length) 1) = render d.dropLast := by
  rcases eq_nil_or_concat d with rfl | ⟨d, n, rfl⟩
  · rfl
  · rw [concat_eq_append, dropLast_concat, render_concat]
    have hback := backToSlash_component (join slash (d.map Subtype.val)) n.property.not_mem (Nat.le_refl _)
    have hlen : (join slash (d.map Subtype.val) ++ slash :: n.val).length =
        (join slash (d.map Subtype.val)).length + n.val.length + 1 := by
      rw [length_append, length_cons]
      omega
    rw [hlen, hback]
    cases d with
    | nil => rfl
    | cons m d =>
      have hpos : 1 < (join slash ((m :: d).map Subtype.val)).length + 1 := by
        rw [map_cons, join_cons, length_cons]
        omega
      rw [if_pos hpos, Nat.add_sub_cancel, Nat.max_eq_left (by omega), take_left]
      exact (slashed_cons _ _).symm

lemma down_render (d : List Name) (n : Name) :
    (if render d ≠ [] ∧ (render d).getLast? ≠ some slash then render d ++ [slash] else render d) ++ n.val =
      render (d ++ [n]) := by
  rw [render_concat]
  rcases eq_nil_or_concat d with rfl | ⟨d, m, rfl⟩
  · rfl
  · rw [concat_eq_append, render_concat, if_pos ⟨by simp, getLast?_component m.property.1 m.property.not_mem⟩,
      map_append, map_singleton, join_concat, append_assoc]
    rfl

lemma isUp_iff (p : CStr) :
    (p.take 2 = [dot, dot] ∧ (p[2]? = none ∨ p[2]? = some slash)) ↔ p.takeWhile (· ≠ slash) = [dot, dot] := by
  have hdot : dot ≠ slash := by decide
  rcases p with _ | ⟨a, _ | ⟨b, _ | ⟨c, p⟩⟩⟩
  · simp
  · by_cases ha : a = slash <;> simp [ha]
  · by_cases ha : a = slash <;> by_cases hb : b = slash <;> simp [ha, hb, hdot.symm]
  · by_cases ha : a = slash <;> by_cases hb : b = slash <;> by_cases hc : c = slash <;> simp [ha, hb, hc, hdot.symm]

lemma isDot_iff (p : CStr) :
    (p.head? = some dot ∧ (p[1]? = none ∨ p[1]? = some slash)) ↔ p.takeWhile (· ≠ slash) = [dot] := by
  have hdot : dot ≠ slash := by decide
  rcases p with _ | ⟨a, _ | ⟨b, p⟩⟩
  · simp
  · by_cases ha : a = slash <;> simp [ha, hdot.symm]
  · by_cases ha : a = slash <;> by_cases hb : b = slash <;> simp [ha, hb, hdot.symm]

lemma resolveLoop_nil (k : Nat) (out : CStr) : resolveLoop 256 k [] out = out := by
  cases k with
  | zero => rfl
  | succ k =>
    rw [resolveLoop]
    exact if_pos rfl

lemma resolveLoop_slash (k : Nat) (p out : CStr) :
    resolveLoop 256 (k + 1) (slash :: p) out = resolveLoop 256 (k + 1) p out := by
  rw [resolveLoop, resolveLoop, dropWhile_cons_of_pos (by simp)]

section Rounds

variable (k : Nat) {p c q out : CStr}

lemma resolveLoop_dot (h : Next p [dot] q) : resolveLoop 256 (k + 1) p out = resolveLoop 256 k q out := by
  obtain ⟨hdrop, hne⟩ := h.dropWhile (cons_ne_nil _ _)
  have hup : p.takeWhile (· ≠ slash) ≠ [dot, dot] := by
    rw [h.take]
    decide
  rw [resolveLoop, hdrop]
  simp only
  rw [if_neg hne, if_neg (fun hu => hup ((isUp_iff p).mp hu)), if_pos ((isDot_iff p).mpr h.take), ← h.skip]
  rfl

/-- `..` cuts the buffer at its last slash. -/
lemma resolveLoop_up (h : Next p [dot, dot] q) (hout : out ≠ []) : resolveLoop 256 (k + 1) p out = resolveLoop 256 k q
      (out.take (max (if 1 < backToSlash out out.length then backToSlash out out.length - 1
        else backToSlash out out.length) 1)) := by
  obtain ⟨hdrop, hne⟩ := h.dropWhile (cons_ne_nil _ _)
  rw [resolveLoop, hdrop]
  simp only
  rw [if_neg hne, if_neg hout, if_pos ((isUp_iff p).mpr h.take), ← h.skip]
  rfl

lemma resolveLoop_name (h : Next p c q) (hname : IsName c) (hout : out.length ≤ resolveMax)
    (hroom : ((if out ≠ [] ∧ out.getLast? ≠ some slash then out ++ [slash] else out) ++ c).length ≤ 255) :
    resolveLoop 256 (k + 1) p out =
      resolveLoop 256 k q ((if out ≠ [] ∧ out.getLast? ≠ some slash then out ++ [slash] else out) ++ c) := by
  have hmax : resolveMax = 253 := rfl
  obtain ⟨hdrop, hne⟩ := h.dropWhile hname.1
  rw [length_append] at hroom
  rw [resolveLoop, hdrop]
  simp only
  rw [if_neg hne, if_neg (fun hu => hname.2.2.1 (h.take.symm.trans ((isUp_iff p).mp hu))),
    if_neg (fun hd => hname.2.1 (h.take.symm.trans ((isDot_iff p).mp hd))), if_neg (by omega), h.take,
    Nat.min_eq_left (by omega), h.take_length, h.skip]

end Rounds

lemma render_ne_nil (d : List Name) : render d ≠ [] := by
  obtain ⟨r, hr⟩ := render_eq_cons d
  rw [hr]
  exact cons_ne_nil _ _

/-- The step lemma: a round of the loop takes the next component. -/
lemma resolveLoop_step (k : Nat) (h : Next p c q) (hne : c ≠ []) (hfits : Fits d p) :
    resolveLoop 256 (k + 1) p (render d) = resolveLoop 256 k q (render (descend d c)) := by
  rcases component_cases h.free with hnil | rfl | rfl | hname
  · exact absurd hnil hne
  · rw [resolveLoop_dot k h, descend_dot]
  · rw [resolveLoop_up k h (render_ne_nil d), up_render, descend_up]
  · have hdown : _ ++ c = _ := down_render d ⟨c, hname⟩
    have hroom : (render (d ++ [⟨c, hname⟩])).length ≤ resolveMax := by
      rw [← descend_name d hname]
      exact (hfits.next h).start
    rw [resolveLoop_name k h hname hfits.start (by rw [hdown]; exact Nat.le_trans hroom (by decide)), hdown,
      descend_name d hname]

/-- **The component loop is the walk.** -/
theorem resolveLoop_eq (p : CStr) : ∀ {k : Nat}, p.length < k → ∀ {d : List Name}, Fits d p →
    resolveLoop 256 k p (render d) = render (walk d p) := by
  induction p using path_induction with
  | hnil =>
    intro k _ d _
    rw [resolveLoop_nil, walk_nil]
  | hslash p ih =>
    intro k hk d hfits
    obtain ⟨k, rfl⟩ := Nat.exists_eq_add_one.mpr (Nat.zero_lt_of_lt hk)
    rw [resolveLoop_slash, walk_slash]
    exact ih (Nat.lt_of_succ_lt hk) hfits.tail
  | hnext p c q h hne ih =>
    intro k hk d hfits
    have hlt := h.length_lt hne
    obtain ⟨k, rfl⟩ := Nat.exists_eq_add_one.mpr (Nat.zero_lt_of_lt hk)
    rw [resolveLoop_step k h hne hfits, ih (by omega) (hfits.next h), h.walk d]

/-! ## The characters of a path -/

section Characters

variable {S : CChar → Prop}

lemma collapseSlashes_sublist (p : CStr) : (collapseSlashes p).Sublist p := by
  fun_induction collapseSlashes p with
  | case1 a b rest hab ih => exact ih.cons a
  | case2 a b rest hab ih => exact ih.cons_cons a
  | case3 p hp => exact List.Sublist.refl p

lemma pathNormalize_sublist (p : CStr) : (pathNormalize p).Sublist p := by
  refine (collapseSlashes_sublist _).trans ?_
  split
  · exact dropLast_sublist p
  · exact List.Sublist.refl p

lemma skipSlash_sublist (p : CStr) : (skipSlash p).Sublist p := by
  cases p with
  | nil => exact List.Sublist.refl []
  | cons c p =>
    rw [skipSlash]
    split
    · exact sublist_cons_self c p
    · exact List.Sublist.refl _

lemma resolveLoop_forall (hslash : S slash) (outsz k : Nat) {out : CStr} (hp : ∀ c ∈ p, S c) (hout : ∀ c ∈ out, S c) :
    ∀ c ∈ resolveLoop outsz k p out, S c := by
  induction k generalizing p out with
  | zero => exact hout
  | succ k ih =>
    have hp' : ∀ c ∈ p.dropWhile (· = slash), S c := fun c hc => hp c ((dropWhile_sublist _).mem hc)
    have hrest (n : Nat) : ∀ c ∈ skipSlash ((p.dropWhile (· = slash)).drop n), S c :=
      fun c hc => hp' c (((skipSlash_sublist _).trans (drop_sublist n _)).mem hc)
    rw [resolveLoop]
    split
    · exact hout
    split
    -- `..` shortens what is there
    · split
      · exact forall_mem_nil _
      · exact ih (hrest 2) (fun c hc => hout c (mem_of_mem_take hc))
    split
    · exact ih (hrest 1) hout
    split
    · exact hout
    -- a name is appended, behind a slash if one is missing
    · refine ih (hrest _) (fun c hc => ?_)
      rcases mem_append.mp hc with hc | hc
      · split at hc
        · rcases mem_append.mp hc with hc | hc
          · exact hout c hc
          · rw [mem_singleton.mp hc]
            exact hslash
        · exact hout c hc
      · exact hp' c (mem_of_mem_take hc)

lemma fsResolve_forall (hslash : S slash) (hcwd : ∀ c ∈ cwd, S c) (hpath : ∀ c ∈ path, S c)
    (outsz : Nat) : ∀ c ∈ fsResolve cwd path outsz, S c := by
  have hroot : ∀ c ∈ cstr "/", S c := forall_mem_singleton.mpr hslash
  unfold fsResolve
  split
  · exact fun c hc => hcwd c ((pathNormalize_sublist cwd).mem hc)
  split
  · exact hroot
  · have hout : ∀ c ∈ if path.head? = some slash then path.take (outsz - 1)
        else resolveLoop outsz (path.length + 1) path (cwd.take (outsz - 1)), S c := by
      split
      · exact fun c hc => hpath c (mem_of_mem_take hc)
      · exact resolveLoop_forall hslash outsz _ hpath (fun c hc => hcwd c (mem_of_mem_take hc))
    generalize (if path.head? = some slash then path.take (outsz - 1)
        else resolveLoop outsz (path.length + 1) path (cwd.take (outsz - 1))) = out at hout
    intro c hc
    have hmem := (pathNormalize_sublist _).mem hc
    split at hmem
    · exact hroot c hmem
    · exact hout c hmem

lemma cdAbs_sublist (a : CStr) : (cdAbs a).Sublist (slash :: a) := by
  unfold cdAbs
  dsimp only
  split
  · exact dropLast_sublist _
  · exact List.Sublist.refl _

/-- `cd` enters the path that it resolves, that path with a slash, or the argument behind a
slash. -/
lemma fsCd_forall (hslash : S slash) {fs : Pigfs} {a : CStr} (hcwd : ∀ c ∈ cwd, S c) (ha : ∀ c ∈ a, S c)
    (h : fsCd fs cwd a = .entered p) : ∀ c ∈ p, S c := by
  have hroot : ∀ c ∈ cstr "/", S c := forall_mem_singleton.mpr hslash
  have hpath := fsResolve_forall hslash hcwd ha 256
  have habs : ∀ c ∈ cdAbs a, S c := fun c hc =>
    forall_mem_cons.mpr ⟨hslash, ha⟩ c ((cdAbs_sublist a).mem hc)
  unfold fsCd at h
  dsimp only at h
  generalize fsResolve cwd a 256 = path at h hpath
  have hslashed : ∀ c ∈ path ++ [slash], S c :=
    forall_mem_append.mpr ⟨hpath, forall_mem_singleton.mpr hslash⟩
  have htry : ∀ c ∈ if LacksSlash path then path ++ [slash] else path, S c := by
    split
    · exact hslashed
    · exact hpath
  generalize (if LacksSlash path then path ++ [slash] else path) = try2 at h htry
  have hdone {q : CStr} (heq : CdReport.entered q = .entered p) (hq : ∀ c ∈ q, S c) : ∀ c ∈ p, S c :=
    CdReport.entered.inj heq ▸ hq
  split at h
  · exact hdone h hroot
  split at h
  · exact hdone h hroot
  split at h
  · exact hdone h hpath
  split at h
  · exact absurd h (by simp)
  split at h
  · exact hdone h hslashed
  -- the read-only table: the path, the path with a slash, the argument from the root
  split at h
  · split at h
    · exact hdone h hpath
    · exact absurd h (by simp)
  split at h
  · split at h
    · exact hdone h htry
    · exact absurd h (by simp)
  split at h
  · exact absurd h (by simp)
  split at h
  · exact absurd h (by simp)
  split at h
  · exact hdone h habs
  · exact absurd h (by simp)

end Characters

/-! ## Relative paths -/

lemma length_join_le_render (d : List Name) : (join slash (d.map Subtype.val)).length ≤ (render d).length := by
  unfold render slashed
  split
  · rename_i hnil
    rw [hnil]
    exact Nat.zero_le _
  · exact Nat.le_refl _

lemma length_render_descend (d : List Name) (hc : slash ∉ c) :
    (render (descend d c)).length ≤ (render d).length + (c.length + 1) := by
  rcases component_cases hc with rfl | rfl | rfl | hname
  · rw [descend_nil]
    exact Nat.le_add_right _ _
  · rw [descend_dot]
    exact Nat.le_add_right _ _
  · rw [descend_up]
    rcases eq_nil_or_concat d with rfl | ⟨d, n, rfl⟩
    · decide
    · rw [concat_eq_append, dropLast_concat, render_concat, length_append, length_cons]
      cases d with
      | nil => exact Nat.le_trans (show 1 ≤ 3 by decide) (Nat.le_add_left _ _)
      | cons m d =>
        have hjoin : render (m :: d) = join slash ((m :: d).map Subtype.val) := slashed_cons _ _
        rw [hjoin]
        omega
  · have hjoin := length_join_le_render d
    rw [descend_name d hname, render_concat, length_append, length_cons]
    show _ + (c.length + 1) ≤ _
    omega

lemma length_render_foldl (d : List Name) (hcs : ∀ c ∈ cs, slash ∉ c) :
    (render (cs.foldl descend d)).length ≤ (render d).length + (join slash cs).length := by
  induction cs generalizing d with
  | nil => exact Nat.le_refl _
  | cons c cs ih =>
    rw [forall_mem_cons] at hcs
    have hstep := length_render_descend d hcs.1
    have hrest := ih (descend d c) hcs.2
    rw [foldl_cons, join_cons, length_cons, length_append]
    omega

lemma fits_of_length (h : (render d).length + (path.length + 1) ≤ resolveMax) : Fits d path := by
  intro cs hcs
  obtain ⟨ds, hds⟩ := hcs
  have hlen : (join slash cs).length ≤ path.length + 1 := by
    rw [← length_cons (a := slash), ← join_splitOn, ← hds, join_append, length_append]
    exact Nat.le_add_right _ _
  have hcs : ∀ c ∈ cs, slash ∉ c :=
    fun c hc => not_mem_of_mem_splitOn slash (hds ▸ mem_append_left ds hc)
  exact Nat.le_trans (length_render_foldl d hcs) (by omega)

lemma fsResolve_of_loop (hrel : path.head? ≠ some slash) (htilde : path ≠ cstr "~") (hcwd : cwd.length ≤ 255)
    (hstay : pathNormalize cwd = render d)
    (hloop : pathNormalize (resolveLoop 256 (path.length + 1) path cwd) = render (walk d path)) :
    fsResolve cwd path 256 = render (walk d path) := by
  unfold fsResolve
  by_cases hpath : path = [] ∨ path = [dot]
  · rw [if_pos hpath, hstay]
    rcases hpath with rfl | rfl
    · rw [walk_nil]
    · rw [walk_component d (by decide), descend_dot]
  · rw [if_neg hpath, if_neg (fun h => htilde (ksc_eq_zero.mp h))]
    simp only
    rw [if_neg hrel, take_of_length_le hcwd, if_neg, hloop]
    intro hnil
    rw [hnil] at hloop
    exact render_ne_nil _ hloop.symm

lemma fsResolve_relative_eq (hrel : path.head? ≠ some slash) (htilde : path ≠ cstr "~")
    (hfits : Fits d path) : fsResolve (render d) path 256 = render (walk d path) := by
  refine fsResolve_of_loop hrel htilde (hfits.start.trans (by decide)) (pathNormalize_render d) ?_
  rw [resolveLoop_eq path (Nat.lt_succ_self _) hfits, pathNormalize_render]

/-- **A relative path is resolved by walking its components**, to the canonical path of the
directory that the walk ends in, if no directory on the way has a path of more than 253 bytes. -/
theorem fsResolve_relative {cwd path : CStr} (hcwd : Canonical cwd) (hrel : path.head? ≠ some slash)
    (htilde : path ≠ cstr "~") (hfits : Fits (walk [] cwd) path) :
    fsResolve cwd path 256 = render (walk (walk [] cwd) path) ∧ Canonical (fsResolve cwd path 256) := by
  have h := fsResolve_relative_eq hrel htilde hfits
  rw [hcwd.render_walk] at h
  rw [h]
  exact ⟨rfl, canonical_render _⟩

/-- From `/usr/bin`, the path `.././../...//etc` goes to `/.../etc`. -/
theorem fsResolve_relative_dots :
    fsResolve (cstr "/usr/bin") (cstr ".././../...//etc") 256 = cstr "/.../etc" := by
  have hcwd : Canonical (cstr "/usr/bin") := .inr ⟨by decide, by decide⟩
  have hfits : Fits (walk [] (cstr "/usr/bin")) (cstr ".././../...//etc") := fits_of_length (by decide +kernel)
  rw [(fsResolve_relative hcwd (by decide) (by decide) hfits).1]
  decide +kernel

/-! ## A working directory with a slash at its end

`su` and `cd` can leave one. The loop appends to it as to any other directory, but going up only
takes the slash off. -/

/-- The first component that does anything is `..`. -/
def StartsUp (p : CStr) : Prop := (p.splitOn slash).find? (fun c => decide (c ≠ [] ∧ c ≠ [dot])) = some [dot, dot]

lemma startsUp_slash (p : CStr) : StartsUp (slash :: p) ↔ StartsUp p := by
  unfold StartsUp
  rw [splitOn_cons_self, find?_cons_of_neg (by decide)]

lemma Next.startsUp_dot (h : Next p [dot] q) : StartsUp p ↔ StartsUp q := by
  unfold StartsUp
  rcases h.split with ⟨rfl, rfl⟩ | rfl
  · decide
  · rw [splitOn_append_cons_self_of_not_mem h.free, find?_cons_of_neg (by decide)]

lemma Next.startsUp_up (h : Next p [dot, dot] q) : StartsUp p := by
  unfold StartsUp
  rcases h.split with ⟨rfl, -⟩ | rfl
  · decide
  · rw [splitOn_append_cons_self_of_not_mem h.free, find?_cons_of_pos (by decide)]

lemma pathNormalize_render_slash (hd : d ≠ []) : pathNormalize (render d ++ [slash]) = render d := by
  obtain ⟨d, n, rfl⟩ := (eq_nil_or_concat d).resolve_left hd
  have hmap : (d ++ [n]).map Subtype.val = d.map Subtype.val ++ [n.val] := map_append
  have hjoin : render (d ++ [n]) = join slash (d.map Subtype.val ++ [n.val]) := by
    rw [render, hmap, slashed_of_ne_nil (by simp)]
  have hkeep : (d.map Subtype.val).filter (fun c => !c.isEmpty) = d.map Subtype.val :=
    filter_eq_self.mpr (fun c hc => not_isEmpty_iff.mpr (names_ne_nil d c hc))
  rw [concat_eq_append, hjoin, pathNormalize_join_slash (names_not_mem d) n.property.not_mem, hkeep, join_concat]

lemma down_render_slash (hd : d ≠ []) (n : Name) :
    (if render d ++ [slash] ≠ [] ∧ (render d ++ [slash]).getLast? ≠ some slash then (render d ++ [slash]) ++ [slash]
      else render d ++ [slash]) ++ n.val = render (d ++ [n]) := by
  have hjoin : render d = join slash (d.map Subtype.val) := slashed_of_ne_nil (fun h => hd (map_eq_nil_iff.mp h))
  rw [if_neg (fun h => h.2 getLast?_concat), render_concat, hjoin, append_assoc]
  rfl

lemma resolveLoop_trailing (p : CStr) : ∀ {k : Nat}, p.length < k → ∀ {d : List Name}, d ≠ [] → Fits d p →
    ¬ StartsUp p → pathNormalize (resolveLoop 256 k p (render d ++ [slash])) = render (walk d p) := by
  induction p using path_induction with
  | hnil =>
    intro k _ d hd _ _
    rw [resolveLoop_nil, walk_nil, pathNormalize_render_slash hd]
  | hslash p ih =>
    intro k hk d hd hfits hup
    obtain ⟨k, rfl⟩ := Nat.exists_eq_add_one.mpr (Nat.zero_lt_of_lt hk)
    rw [startsUp_slash] at hup
    rw [resolveLoop_slash, walk_slash]
    exact ih (Nat.lt_of_succ_lt hk) hd hfits.tail hup
  | hnext p c q h hne ih =>
    intro k hk d hd hfits hup
    have hlt := h.length_lt hne
    obtain ⟨k, rfl⟩ := Nat.exists_eq_add_one.mpr (Nat.zero_lt_of_lt hk)
    have hnext := hfits.next h
    rcases component_cases h.free with hnil | rfl | rfl | hname
    · exact absurd hnil hne
    · rw [descend_dot] at hnext
      rw [resolveLoop_dot k h, h.walk d, descend_dot]
      exact ih (by omega) hd hnext (fun hq => hup (h.startsUp_dot.mpr hq))
    · exact absurd h.startsUp_up hup
    · -- the slash is the one that the name would have got anyway
      have hdown : _ ++ c = _ := down_render_slash hd ⟨c, hname⟩
      have hroom : (render (d ++ [⟨c, hname⟩])).length ≤ resolveMax := by
        rw [← descend_name d hname]
        exact hnext.start
      have hout : (render d ++ [slash]).length ≤ resolveMax := by
        rw [← hdown, if_neg (fun h => h.2 getLast?_concat), length_append] at hroom
        exact Nat.le_trans (Nat.le_add_right _ _) hroom
      rw [resolveLoop_name k h hname hout (by rw [hdown]; exact Nat.le_trans hroom (by decide)), hdown,
        ← descend_name d hname, resolveLoop_eq q (by omega) hnext, pathNormalize_render, h.walk d]

/-- A relative path that does not go up at once is resolved from `/home/pig/` as from
`/home/pig`. -/
lemma fsResolve_trailing (hd : d ≠ []) (hrel : path.head? ≠ some slash)
    (htilde : path ≠ cstr "~") (hfits : Fits d path) (hup : ¬ StartsUp path) :
    fsResolve (render d ++ [slash]) path 256 = render (walk d path) := by
  refine fsResolve_of_loop hrel htilde ?_ (pathNormalize_render_slash hd)
    (resolveLoop_trailing path (Nat.lt_succ_self _) hd hfits hup)
  have hmax : resolveMax = 253 := rfl
  have hstart := hfits.start
  rw [length_append, length_singleton]
  omega

/-! ## Absolute paths -/

/-- No component of the path is `.` or `..`. -/
def NoDots (p : CStr) : Prop := ∀ c ∈ p.splitOn slash, c ≠ [dot] ∧ c ≠ [dot, dot]

lemma noDots_append_slash : NoDots (p ++ slash :: q) ↔ NoDots p ∧ NoDots q := by
  unfold NoDots
  rw [splitOn_append_cons_self, forall_mem_append]

lemma fsResolve_absolute_eq (cwd : CStr) (hlen : (slash :: p).length ≤ 255) :
    fsResolve cwd (slash :: p) 256 = pathNormalize (slash :: p) := by
  have htilde : ¬ ksc (slash :: p) (cstr "~") = 0 := by
    rw [ksc_eq_zero]
    exact fun h => absurd (cons.inj h).1 (by decide)
  have hdot : ¬ (slash :: p = [] ∨ slash :: p = [dot]) := by
    rintro (h | h)
    · exact absurd h (cons_ne_nil _ _)
    · exact absurd (cons.inj h).1 (by decide)
  unfold fsResolve
  rw [if_neg hdot, if_neg htilde]
  simp only
  rw [if_pos head?_cons, take_of_length_le hlen, if_neg (cons_ne_nil _ _)]

/-- The canonical paths are those without an empty component, a dot component or a trailing
slash. -/
lemma slashed_eq_render_iff (hne : ∀ c ∈ cs, c ≠ []) (hfree : ∀ c ∈ cs, slash ∉ c) (d : List Name) :
    slashed cs = render d ↔ cs = d.map Subtype.val := by
  constructor
  · intro h
    rw [← pieces_slashed hne hfree, h, pieces_render]
  · rintro rfl
    rfl

lemma render_getLast? (hd : d ≠ []) : (render d).getLast? ≠ some slash := by
  obtain ⟨d, n, rfl⟩ := (eq_nil_or_concat d).resolve_left hd
  rw [concat_eq_append, render_concat]
  exact getLast?_component n.property.1 n.property.not_mem

/-- **When an absolute path is reduced to its canonical form**: it has no `.` and no `..`, and ends
in two slashes only if it is all slashes. -/
theorem pathNormalize_canonical_iff (p : CStr) : pathNormalize (slash :: p) = render (walk [] (slash :: p)) ↔
      NoDots (slash :: p) ∧ (EndsDouble (slash :: p) → ∀ b ∈ p, b = slash) := by
  have hne : ∀ c ∈ pieces slash p, c ≠ [] := fun c hc => ((mem_pieces slash).mp hc).2
  have hfree : ∀ c ∈ pieces slash p, slash ∉ c :=
    fun c hc => not_mem_of_mem_splitOn slash (mem_splitOn_of_mem_pieces hc)
  have hdots : NoDots (slash :: p) ↔ NoDots p := by
    have h := noDots_append_slash (p := []) (q := p)
    rw [nil_append] at h
    rw [h]
    exact and_iff_right (forall_mem_cons.mpr ⟨by decide, forall_mem_nil _⟩)
  rw [hdots, ← pieces_eq_nil_iff, walk_slash]
  by_cases hend : EndsDouble (slash :: p) ∧ pieces slash p ≠ []
  · rw [(pathNormalize_slash p).2 hend.1 hend.2]
    constructor
    · intro h
      exfalso
      by_cases hroot : walk [] p = []
      · -- the root has one byte
        rw [hroot] at h
        obtain ⟨c, cs, hcs⟩ := exists_cons_of_ne_nil hend.2
        rw [hcs, join_cons] at h
        have hlen := congrArg length h
        simp [render] at hlen
      · refine render_getLast? hroot ?_
        rw [← h, getLast?_concat]
    · exact fun h => absurd (h.2 hend.1) hend.2
  · have hend' : EndsDouble (slash :: p) → pieces slash p = [] := fun h => by
      by_contra hne
      exact hend ⟨h, hne⟩
    have hcond : ¬ EndsDouble (slash :: p) ∨ pieces slash p = [] := by
      by_cases h : EndsDouble (slash :: p)
      · exact .inr (hend' h)
      · exact .inl h
    rw [(pathNormalize_slash p).1 hcond, slashed_eq_render_iff hne hfree]
    constructor
    · intro h
      refine ⟨fun c hc => ?_, hend'⟩
      by_cases hcne : c = []
      · rw [hcne]
        decide
      · have hmem : c ∈ (walk [] p).map Subtype.val := h ▸ (mem_pieces slash).mpr ⟨hc, hcne⟩
        obtain ⟨n, -, rfl⟩ := mem_map.mp hmem
        exact ⟨n.property.2.1, n.property.2.2.1⟩
    · rintro ⟨hnodots, -⟩
      exact (walk_of_names [] hnodots).symm

lemma fsResolve_absolute_iff (cwd : CStr) {s : CStr} (hs : s.head? = some slash) (hlen : s.length ≤ 255) :
    fsResolve cwd s 256 = render (walk [] s) ↔ NoDots s ∧ (EndsDouble s → ∀ b ∈ s, b = slash) := by
  obtain ⟨p, rfl⟩ : ∃ p, s = slash :: p := head?_eq_some_iff.mp hs
  rw [fsResolve_absolute_eq cwd hlen, pathNormalize_canonical_iff, forall_mem_cons]
  exact and_congr_right (fun _ => ⟨fun h hend => ⟨rfl, h hend⟩, fun h hend => (h hend).2⟩)

lemma endsDouble_append {r : CStr} (hne : r ≠ []) (hrel : r.head? ≠ some slash) :
    EndsDouble (p ++ r) ↔ EndsDouble r := by
  constructor
  · intro h
    rcases suffix_or_suffix_of_suffix h (suffix_append p r) with hin | hout
    · exact hin
    · -- a suffix of two slashes begins with one
      exfalso
      rcases suffix_cons_iff.mp hout with rfl | hout
      · exact hrel rfl
      · rcases suffix_cons_iff.mp hout with rfl | hout
        · exact hrel rfl
        · exact hne (suffix_nil.mp hout)
  · exact fun h => h.trans (suffix_append p r)

/-- Joined to a canonical directory, a relative path ends in two slashes only by itself, unless both
are empty. -/
lemma endsDouble_joined {r : CStr} (hcwd : Canonical cwd) (hrel : r.head? ≠ some slash) :
    (EndsDouble (cwd ++ slash :: r) → ∀ b ∈ cwd ++ slash :: r, b = slash) ↔ ¬ EndsDouble r := by
  by_cases hne : r = []
  · subst hne
    have hnil : ¬ EndsDouble [] := fun h => absurd (suffix_nil.mp h) (cons_ne_nil _ _)
    refine iff_of_true (fun hend => ?_) hnil
    by_cases hroot : walk [] cwd = []
    · rw [← hcwd.render_walk, hroot]
      exact forall_mem_cons.mpr ⟨rfl, forall_mem_singleton.mpr rfl⟩
    · -- below the root a canonical path does not end in a slash
      exfalso
      obtain ⟨q, hq⟩ := hend
      refine render_getLast? hroot ?_
      have hcut : q ++ [slash] = cwd := by
        have happ : (q ++ [slash]) ++ [slash] = cwd ++ [slash] := by
          rw [append_assoc]
          exact hq
        exact append_cancel_right happ
      rw [hcwd.render_walk, ← hcut, getLast?_concat]
  · have hsplit : cwd ++ slash :: r = (cwd ++ [slash]) ++ r := by rw [append_assoc]; rfl
    rw [hsplit, endsDouble_append hne hrel]
    refine ⟨fun h hend => ?_, fun h hend => absurd hend h⟩
    obtain ⟨a, r, rfl⟩ := exists_cons_of_ne_nil hne
    have ha : a = slash := h hend a (mem_append_right _ mem_cons_self)
    exact hrel (congrArg some ha)

/-- **When the two spellings of a path agree.** A relative path and the absolute one that spells it
out are resolved to the same name exactly when no component is `.` or `..` and the path does not end
in two slashes. An absolute path is then reduced to its canonical path, and also if it has only
slashes. -/
theorem fsResolve_spellings_iff {cwd : CStr} (hcwd : Canonical cwd) :
    (∀ r, r.head? ≠ some slash → r ≠ cstr "~" → cwd.length + 1 + r.length ≤ 250 →
      (fsResolve cwd (cwd ++ slash :: r) 256 = fsResolve cwd r 256 ↔ NoDots r ∧ ¬ EndsDouble r)) ∧
    (∀ s, s.head? = some slash → s.length ≤ 255 →
      (fsResolve cwd s 256 = render (walk [] s) ↔ NoDots s ∧ (EndsDouble s → ∀ b ∈ s, b = slash))) := by
  refine ⟨fun r hrel htilde hlen => ?_, fun s hs hslen => fsResolve_absolute_iff cwd hs hslen⟩
  have hhead : (cwd ++ slash :: r).head? = some slash := by
    obtain ⟨q, hq⟩ := render_eq_cons (walk [] cwd)
    rw [← hcwd.render_walk, hq]
    rfl
  have hfits : Fits (walk [] cwd) r := by
    refine fits_of_length ?_
    rw [hcwd.render_walk]
    have hmax : resolveMax = 253 := rfl
    omega
  have hjoined : (cwd ++ slash :: r).length ≤ 255 := by
    rw [length_append, length_cons]
    omega
  have hdots : NoDots cwd := hcwd.noDots
  rw [(fsResolve_relative hcwd hrel htilde hfits).1, ← walk_append_slash, fsResolve_absolute_iff cwd hhead hjoined,
    noDots_append_slash, and_iff_right hdots, endsDouble_joined hcwd hrel]

theorem fsResolve_spellings_bin :
    Canonical (cstr "/usr") ∧ fsResolve (cstr "/usr")
      (cstr "/usr/bin/") 256 = fsResolve (cstr "/usr") (cstr "bin/") 256 := by
  have hcwd : Canonical (cstr "/usr") := .inr ⟨by decide, by decide⟩
  refine ⟨hcwd, ((fsResolve_spellings_iff hcwd).1 (cstr "bin/") (by decide) (by decide) (by decide)).mpr ⟨?_, ?_⟩⟩
  · exact forall_mem_cons.mpr ⟨by decide, by decide⟩
  · rw [EndsDouble, ← isSuffixOf_iff_suffix]
    decide

/-- From `/usr`, the path `../boot` is `/boot`, a critical path, and `/usr/../boot` is neither. -/
theorem fsResolve_spellings_boot :
    fsResolve (cstr "/usr") (cstr "/usr/../boot") 256 ≠ fsResolve (cstr "/usr") (cstr "../boot") 256 ∧
      isCriticalPath (fsResolve (cstr "/usr") (cstr "../boot") 256) = true ∧
      isCriticalPath (fsResolve (cstr "/usr") (cstr "/usr/../boot") 256) = false := by
  decide +kernel

end PigOS.Kernel
