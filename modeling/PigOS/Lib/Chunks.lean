import Mathlib.Algebra.GroupWithZero.Nat
import Mathlib.Data.List.Infix

/-!
# `Lib.Chunks` — streams in chunks and in blocks

A reader takes chunks one at a time and keeps what it did not use of the last one (`Cut`).
`Aligned ns ks` says that no chunk, of sizes `ks`, holds elements of two parts, of sizes `ns`.
`Blocks.absorb` hands whole blocks to a function and leaves the elements behind them, which may as
well be joined with what comes later.
-/

namespace Chunks

open List

variable {α : Type*} {net rest : List (List α)} {left : List α}

/-- Sizes `ks` can be grouped, in order, into groups that add up to the sizes `ns`. -/
def Aligned : List Nat → List Nat → Prop
  | [], ks => ks = []
  | n :: ns, ks => ∃ g rest, ks = g ++ rest ∧ g.sum = n ∧ Aligned ns rest

/-- `left` is what is left of the chunk of `net` that comes before `rest`. -/
def Cut (net : List (List α)) (left : List α) (rest : List (List α)) : Prop :=
  rest <:+ net ∧ (left = [] ∨ ∃ c, c :: rest <:+ net ∧ left.length < c.length)

lemma cut_refl (net : List (List α)) : Cut net [] net := ⟨suffix_refl net, Or.inl rfl⟩

lemma Cut.shrink {left' : List α} (h : Cut net left rest) (hle : left'.length ≤ left.length) : Cut net left' rest := by
  obtain ⟨hsuf, hnil | ⟨c, hc, hlt⟩⟩ := h
  · refine ⟨hsuf, Or.inl (eq_nil_of_length_eq_zero ?_)⟩
    rw [hnil] at hle
    exact Nat.le_zero.mp hle
  · exact ⟨hsuf, Or.inr ⟨c, hc, Nat.lt_of_le_of_lt hle hlt⟩⟩

/-- Taking the next chunk and using a first part of it. -/
lemma Cut.next {left' c : List α} (h : Cut net left (c :: rest)) (hlt : left'.length < c.length) : Cut net left' rest :=
  ⟨(suffix_cons c rest).trans h.1, Or.inr ⟨c, h.1, hlt⟩⟩

/-- A cut of the chunks that come later is a cut of all of them. -/
lemma Cut.of_suffix {net' : List (List α)} (h : Cut net' left rest) (hsuf : net' <:+ net) : Cut net left rest :=
  ⟨h.1.trans hsuf, h.2.imp_right (fun ⟨c, hc, hlt⟩ => ⟨c, hc.trans hsuf, hlt⟩)⟩

lemma length_flatten_of_suffix (h : rest <:+ net) : rest.flatten.length ≤ net.flatten.length := by
  obtain ⟨cs, rfl⟩ := h
  rw [flatten_append, length_append]
  omega

/-- The unused chunks are where the stream goes on: no other cut of `net` leaves as much. -/
lemma Cut.eq_of_flatten {rest' : List (List α)} (hne : ∀ c ∈ net, c ≠ [])
    (h : Cut net left rest) (hsuf : rest' <:+ net) (hflat : rest'.flatten = left ++ rest.flatten) :
    left = [] ∧ rest' = rest := by
  have hlen : rest'.flatten.length = left.length + rest.flatten.length := by
    rw [hflat, length_append]
  obtain ⟨hrest, hleft⟩ := h
  -- a strictly longer suffix of `net` holds strictly more, since no chunk is empty
  have hlonger : ∀ (c : List α) (r : List (List α)), c :: r <:+ net → 0 < c.length := by
    intro c r hc
    exact length_pos_iff.mpr (hne c (hc.subset mem_cons_self))
  rcases suffix_or_suffix_of_suffix hsuf hrest with hle | hge
  · -- `rest'` is inside `rest`
    have hle' := length_flatten_of_suffix hle
    have hnil : left = [] := eq_nil_of_length_eq_zero (by omega)
    refine ⟨hnil, ?_⟩
    obtain ⟨cs, rfl⟩ := hle
    cases cs with
    | nil => rfl
    | cons c cs =>
      have hc := hlonger c (cs ++ rest') hrest
      simp only [hnil, cons_append, flatten_cons, flatten_append, length_append,
        length_nil] at hlen
      omega
  · -- `rest` is inside `rest'`: a further chunk would not fit into `left`
    rcases hleft with hnil | ⟨c, hc, hlt⟩
    · refine ⟨hnil, ?_⟩
      obtain ⟨cs, rfl⟩ := hge
      cases cs with
      | nil => rfl
      | cons c cs =>
        have hc := hlonger c (cs ++ rest) hsuf
        simp only [hnil, cons_append, flatten_cons, flatten_append, length_append,
          length_nil] at hlen
        omega
    · rcases suffix_or_suffix_of_suffix hsuf hc with hin | hout
      · rcases suffix_cons_iff.mp hin with rfl | hin
        · rw [flatten_cons, length_append] at hlen
          omega
        · have hle' := length_flatten_of_suffix hin
          have hnil : left = [] := eq_nil_of_length_eq_zero (by omega)
          exact ⟨hnil, hin.eq_of_length_le hge.length_le⟩
      · have hle' := length_flatten_of_suffix hout
        rw [flatten_cons, length_append] at hle'
        omega

/-- The first part of an aligned stream is a group of whole chunks. -/
lemma aligned_cons_iff {p q : List α} {ns : List Nat} (hflat : net.flatten = p ++ q) :
    Aligned (p.length :: ns) (net.map List.length) ↔
      ∃ cs rest, net = cs ++ rest ∧ cs.flatten = p ∧ Aligned ns (rest.map List.length) := by
  constructor
  · rintro ⟨g, ks, hks, hsum, hrest⟩
    obtain ⟨cs, rest, rfl, hg, rfl⟩ := map_eq_append_iff.mp hks
    refine ⟨cs, rest, rfl, ?_, hrest⟩
    rw [flatten_append] at hflat
    refine (append_inj hflat ?_).1
    rw [length_flatten, hg, hsum]
  · rintro ⟨cs, rest, rfl, rfl, hrest⟩
    refine ⟨cs.map List.length, rest.map List.length, map_append, ?_, hrest⟩
    rw [length_flatten]

/-- **Reading one part.** A stream is aligned when the part leaves nothing over and the rest is. -/
theorem aligned_cons_iff_of_cut {p : List α} {ns : List Nat}
    (hne : ∀ c ∈ net, c ≠ []) (hcut : Cut net left rest) (hflat : net.flatten = p ++ (left ++ rest.flatten)) :
    Aligned (p.length :: ns) (net.map List.length) ↔ left = [] ∧ Aligned ns (rest.map List.length) := by
  rw [aligned_cons_iff hflat]
  constructor
  · rintro ⟨cs, rest', rfl, rfl, hns⟩
    rw [flatten_append] at hflat
    obtain ⟨hnil, rfl⟩ := hcut.eq_of_flatten hne (suffix_append cs rest')
      (append_cancel_left hflat)
    exact ⟨hnil, hns⟩
  · rintro ⟨rfl, hns⟩
    obtain ⟨cs, rfl⟩ := hcut.1
    refine ⟨cs, rest, rfl, ?_, hns⟩
    rw [flatten_append, nil_append] at hflat
    exact append_cancel_right hflat

lemma exists_chunks (ks : List Nat) (l : List α) (h : ks.sum = l.length) :
    ∃ net : List (List α), net.map List.length = ks ∧ net.flatten = l := by
  induction ks generalizing l with
  | nil => exact ⟨[], rfl, (eq_nil_of_length_eq_zero h.symm).symm⟩
  | cons k ks ih =>
    rw [sum_cons] at h
    obtain ⟨net, hnet, hflat⟩ := ih (l.drop k) (by rw [length_drop]; omega)
    refine ⟨l.take k :: net, ?_, ?_⟩
    · rw [map_cons, hnet, length_take, Nat.min_eq_left (by omega)]
    · rw [flatten_cons, hflat, take_append_drop]

end Chunks

/-! ## Blocks of one size -/

namespace Blocks

open List

variable {α σ : Type*} {n : Nat} (f : σ → List α → σ) (s : σ) {b l : List α}

/-- The state after the whole blocks of `n`, and what is left. -/
def absorb (n : Nat) (f : σ → List α → σ) (s : σ) (l : List α) : σ × List α :=
  if 0 < n ∧ n ≤ l.length then absorb n f (f s (l.take n)) (l.drop n) else (s, l)
termination_by l.length
decreasing_by rw [length_drop]; omega

lemma absorb_of_lt (h : l.length < n) : absorb n f s l = (s, l) := by
  rw [absorb, if_neg (by omega)]

lemma absorb_block (hn : 0 < n) (hb : b.length = n) (l : List α) : absorb n f s (b ++ l) = absorb n f (f s b) l := by
  rw [absorb, if_pos ⟨hn, by rw [length_append]; omega⟩, take_left' hb, drop_left' hb]

lemma absorb_self (hn : 0 < n) (hb : b.length = n) : absorb n f s b = (f s b, []) := by
  rw [← append_nil b, absorb_block f s hn hb, absorb_of_lt _ _ hn, append_nil]

lemma absorb_append (hn : 0 < n) (l m : List α) :
    absorb n f s (l ++ m) = absorb n f (absorb n f s l).1 ((absorb n f s l).2 ++ m) := by
  fun_induction absorb n f s l with
  | case1 s l h ih =>
    rw [← ih, ← absorb_block f s hn (length_take_of_le h.2), ← append_assoc, take_append_drop]
  | case2 s l h => rfl

lemma length_absorb (hn : 0 < n) (l : List α) : (absorb n f s l).2.length = l.length % n := by
  fun_induction absorb n f s l with
  | case1 s l h ih => rw [ih, length_drop, Nat.mod_eq_sub_mod h.2]
  | case2 s l h => exact (Nat.mod_eq_of_lt (show l.length < n by omega)).symm

end Blocks
