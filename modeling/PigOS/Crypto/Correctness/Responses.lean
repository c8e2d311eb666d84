import Mathlib.Data.List.TakeWhile
import PigOS.Crypto.Correctness.Requests

/-!
# `Crypto.Correctness.Responses` — what is left of a response

The loop stops as soon as what has arrived ends in `CRLFCRLF` (`Taken`): if a read ends with the
header, the body is never read. The search for the end of the header does not look at the last four
bytes, so that an empty body leaves the header in the buffer. `http_request_sync` writes no
terminator behind the body that it has moved.
-/

namespace PigOS.Crypto

open List

variable {l body h : List UInt8} {n : Nat}

/-! ## What arrives -/

/-- The loop does not go on with these bytes: they end in `CRLFCRLF`, or the buffer is full. -/
def Ended (maxout : Nat) (got : List UInt8) : Prop := endsHeader got = true ∨ maxout - 1 ≤ got.length

/-- From `got` on, the loop takes `k` of the reads, if it can take `i`, as long as it has not
ended. -/
structure TakenFrom (maxout i : Nat) (got : List UInt8) (reads : List (List UInt8)) (k : Nat) : Prop where
  le : k ≤ min i reads.length
  going : ∀ j < k, ¬ Ended maxout (got ++ (reads.take j).flatten)
  ended : k = min i reads.length ∨ Ended maxout (got ++ (reads.take k).flatten)

/-- The loop takes the first `k` reads. -/
abbrev Taken (maxout : Nat) (reads : List (List UInt8)) (k : Nat) : Prop := TakenFrom maxout maxReads [] reads k

variable {i maxout : Nat} {got : List UInt8} {reads : List (List UInt8)}

lemma TakenFrom.unique {k k' : Nat}
    (h : TakenFrom maxout i got reads k) (h' : TakenFrom maxout i got reads k') : k = k' := by
  have hnot : ∀ {k k' : Nat}, TakenFrom maxout i got reads k → TakenFrom maxout i got reads k' → ¬ k < k' := by
    intro k k' h h' hlt
    rcases h.ended with hall | hended
    · have hle := h'.le
      omega
    · exact h'.going k hlt hended
  have hlt := hnot h h'
  have hgt := hnot h' h
  omega

lemma recvResponse_full {out : List UInt8} (h : maxout - 1 ≤ out.length) (i : Nat)
    (cs : List (List UInt8)) : recvResponse maxout i out cs = out := by
  cases i with
  | zero => rfl
  | succ i =>
    cases cs with
    | nil => rfl
    | cons c cs => rw [recvResponse, if_neg (Nat.not_lt.mpr h)]

lemma TakenFrom.cons {c : List UInt8} {k : Nat}
    (hgo : ¬ Ended maxout got) (h : TakenFrom maxout i (got ++ c) reads k) :
    TakenFrom maxout (i + 1) got (c :: reads) (k + 1) := by
  have hflat : ∀ j, got ++ ((c :: reads).take (j + 1)).flatten = (got ++ c) ++ (reads.take j).flatten := by
    intro j
    rw [take_succ_cons, flatten_cons, append_assoc]
  have hle := h.le
  refine ⟨?_, fun j hj => ?_, ?_⟩
  · rw [length_cons]
    omega
  · cases j with
    | zero =>
      rw [take_zero, flatten_nil, append_nil]
      exact hgo
    | succ j =>
      rw [hflat]
      exact h.going j (Nat.lt_of_succ_lt_succ hj)
  · rw [hflat, length_cons]
    rcases h.ended with hall | hended
    · left
      omega
    · exact .inr hended

/-- The run lemma of the loop, from a moment at which it has not seen the end of a header. -/
lemma recvResponse_taken (maxout i : Nat) (out : List UInt8) (cs : List (List UInt8))
    (hlen : out.length ≤ maxout - 1) (hnot : ¬ endsHeader out = true) : ∃ k, TakenFrom maxout i out cs k ∧
      recvResponse maxout i out cs = (out ++ (cs.take k).flatten).take (maxout - 1) := by
  have hstay : (out ++ (cs.take 0).flatten).take (maxout - 1) = out := by
    rw [take_zero, flatten_nil, append_nil, take_of_length_le hlen]
  induction i generalizing out cs with
  | zero => exact ⟨0, ⟨Nat.zero_le _, fun j hj => absurd hj (Nat.not_lt_zero j),
      .inl (Nat.zero_min _).symm⟩, hstay.symm⟩
  | succ i ih =>
    cases cs with
    | nil => exact ⟨0, ⟨Nat.zero_le _, fun j hj => absurd hj (Nat.not_lt_zero j),
        .inl (Nat.min_zero _).symm⟩, hstay.symm⟩
    | cons c cs =>
      by_cases hfull : maxout - 1 ≤ out.length
      · refine ⟨0, ⟨Nat.zero_le _, fun j hj => absurd hj (Nat.not_lt_zero j), .inr (.inr ?_)⟩, ?_⟩
        · rw [take_zero, flatten_nil, append_nil]
          exact hfull
        · rw [hstay, recvResponse_full hfull]
      have hgo : ¬ Ended maxout out := fun h => h.elim hnot hfull
      have hone : ∀ got, got ++ (cs.take 0).flatten = got := fun got => by
        rw [take_zero, flatten_nil, append_nil]
      rw [recvResponse, if_pos (Nat.not_le.mp hfull)]
      simp only
      by_cases hfits : (out ++ c).length ≤ maxout - 1
      · have hwhole : c.take (maxout - out.length - 1) = c := by
          refine take_of_length_le ?_
          rw [length_append] at hfits
          omega
        rw [hwhole]
        by_cases hend : endsHeader (out ++ c) = true
        · rw [if_pos hend]
          refine ⟨1, TakenFrom.cons hgo ⟨Nat.zero_le _, fun j hj => absurd hj (Nat.not_lt_zero j), .inr (.inl ?_)⟩, ?_⟩
          · rw [hone]
            exact hend
          · rw [take_succ_cons, flatten_cons, ← append_assoc, hone, take_of_length_le hfits]
        · rw [if_neg hend]
          obtain ⟨k, htaken, heq⟩ := ih (out ++ c) cs hfits hend (by rw [hone, take_of_length_le hfits])
          refine ⟨k + 1, htaken.cons hgo, ?_⟩
          rw [heq, take_succ_cons, flatten_cons, ← append_assoc]
      · -- the read fills the buffer
        have hcut : out ++ c.take (maxout - out.length - 1) = (out ++ c).take (maxout - 1) := by
          rw [take_append, take_of_length_le hlen, Nat.sub_right_comm]
        have hlast : maxout - 1 ≤ ((out ++ c).take (maxout - 1)).length := by
          rw [length_take]
          omega
        refine ⟨1, TakenFrom.cons hgo ⟨Nat.zero_le _, fun j hj => absurd hj (Nat.not_lt_zero j), .inr (.inr ?_)⟩, ?_⟩
        · rw [hone]
          omega
        · rw [hcut, recvResponse_full hlast, ite_self, take_succ_cons, flatten_cons, ← append_assoc, hone]

/-! ## C strings -/

lemma cText_terminated (l g : List UInt8) : cText (l ++ 0 :: g) = cText l := by
  induction l with
  | nil => rfl
  | cons b l ih =>
    unfold cText at ih ⊢
    rw [cons_append, takeWhile_cons, takeWhile_cons, ih]

lemma cText_ne_zero (l : List UInt8) : ∀ b ∈ cText l, b ≠ 0 := by
  intro b hb
  have h := mem_takeWhile_imp hb
  exact of_decide_eq_true h

lemma ne_zero_of_cText (h : cText l = l) : ∀ b ∈ l, b ≠ 0 :=
  fun b hb => cText_ne_zero l b (h.symm ▸ hb)

lemma cText_eq_self (h : ∀ b ∈ l, b ≠ 0) : cText l = l :=
  takeWhile_eq_self_iff.mpr (fun b hb => decide_eq_true (h b hb))

lemma cText_front (l : List UInt8) : cText l <+: l := takeWhile_prefix _

lemma take_length_cText (l : List UInt8) : l.take (cText l).length = cText l :=
  (prefix_iff_eq_take.mp (cText_front l)).symm

/-- A string and its terminator are at the front exactly if the C string there is that string. -/
lemma terminated_prefix_iff (hbody : ∀ b ∈ body, b ≠ 0) (l g : List UInt8) :
    body ++ [0] <+: l ++ 0 :: g ↔ cText l = body := by
  constructor
  · rintro ⟨rest, hrest⟩
    rw [← cText_terminated l g, ← hrest, append_assoc, cText_append hbody, singleton_append, cText_zero,
      append_nil]
  · rintro rfl
    clear hbody
    induction l with
    | nil => exact cons_prefix_cons.mpr ⟨rfl, nil_prefix⟩
    | cons b l ih =>
      by_cases hb : b = 0
      · rw [hb, cText_zero]
        exact cons_prefix_cons.mpr ⟨rfl, nil_prefix⟩
      · have hcons : cText (b :: l) = b :: cText l := takeWhile_cons_of_pos (decide_eq_true hb)
        rw [hcons]
        exact cons_prefix_cons.mpr ⟨rfl, ih⟩

/-! ## The end of the header -/

def response (h body : List UInt8) : List UInt8 := h ++ (crlf2 ++ body)

/-- How far the first `CRLFCRLF` of a response reaches: one that `h` begins ends earlier. -/
def headLen (h : List UInt8) : Nat := if crlf <:+ h then h.length + 2 else h.length + 4

/-- What follows the first `CRLFCRLF`. -/
def afterHead (h body : List UInt8) : List UInt8 := if crlf <:+ h then crlf ++ body else body

lemma response_split (h body : List UInt8) :
    ∃ p, response h body = p ++ (crlf2 ++ afterHead h body) ∧ p.length + 4 = headLen h := by
  unfold response afterHead headLen
  by_cases hend : crlf <:+ h
  · rw [if_pos hend, if_pos hend]
    obtain ⟨p, rfl⟩ := hend
    refine ⟨p, ?_, ?_⟩
    · rw [append_assoc]
      rfl
    · rw [length_append]
      rfl
  · rw [if_neg hend, if_neg hend]
    exact ⟨h, rfl, rfl⟩

lemma no_earlier_head (hfree : ¬ crlf2 <:+: h) (body : List UInt8) (hi : i + 4 < headLen h) :
    ((response h body).drop i).take 4 ≠ crlf2 := by
  intro hhere
  have hlt : i < h.length := by
    unfold headLen at hi
    split at hi <;> omega
  have hdrop : (response h body).drop i = h.drop i ++ (crlf2 ++ body) := drop_append_of_le_length (Nat.le_of_lt hlt)
  have hsuffix : h.drop i <:+ h := drop_suffix i h
  have hlen : (h.drop i).length = h.length - i := length_drop
  rw [hdrop] at hhere
  -- how much of it lies in `h`
  rcases hu : h.drop i with _ | ⟨a, _ | ⟨b, _ | ⟨c, _ | ⟨d, u⟩⟩⟩⟩
  · rw [hu, length_nil] at hlen
    omega
  · rw [hu] at hhere
    simp [crlf2] at hhere
  · rw [hu] at hhere hlen hsuffix
    have hend : crlf <:+ h := by
      simp only [crlf2, cons_append, nil_append, take_succ_cons, take_zero, cons.injEq] at hhere
      rw [crlf, ← hhere.1, ← hhere.2.1]
      exact hsuffix
    unfold headLen at hi
    rw [if_pos hend] at hi
    simp only [length_cons, length_nil] at hlen
    omega
  · rw [hu] at hhere
    simp [crlf2] at hhere
  · rw [hu] at hhere hsuffix
    have hin : crlf2 <:+: a :: b :: c :: d :: u := by
      rw [← hhere]
      exact ⟨[], u, rfl⟩
    exact hfree (hin.trans hsuffix.isInfix)

lemma take_drop_take (h : i + 4 ≤ n) : ((l.take n).drop i).take 4 = (l.drop i).take 4 := by
  rw [drop_take, take_take, Nat.min_eq_left (by omega)]

lemma length_response (h body : List UInt8) : (response h body).length = headLen h + (afterHead h body).length := by
  obtain ⟨p, hsplit, hp⟩ := response_split h body
  rw [hsplit, length_append, length_append, ← hp]
  show p.length + (4 + _) = _
  omega

/-- **What the search finds** in the first `n` bytes: the end of the header, if bytes are behind
it. -/
theorem findBody_take (hfree : ¬ crlf2 <:+: h) (body : List UInt8) (hn : n ≤ (response h body).length) :
    findBody ((response h body).take n) = if headLen h < n then some (headLen h) else none := by
  obtain ⟨p, hsplit, hp⟩ := response_split h body
  have hlen : ((response h body).take n).length = n := length_take_of_le hn
  have hearlier : ∀ j, j + 4 < n → j + 4 < headLen h → ¬ (((response h body).take n).drop j).take 4 = crlf2 := by
    intro j hjn hj
    rw [take_drop_take (Nat.le_of_lt hjn)]
    exact no_earlier_head hfree body hj
  unfold findBody
  rw [hlen]
  by_cases hfar : headLen h < n
  · have hhere : (((response h body).take n).drop p.length).take 4 = crlf2 := by
      have hfour : crlf2.length = 4 := rfl
      rw [take_drop_take (by omega), hsplit, drop_left, ← hfour, take_left]
    have hfind : (range (n - 4)).find? (fun i => decide ((((response h body).take n).drop i).take 4 = crlf2)) =
        some p.length := by
      rw [find?_range_eq_some]
      refine ⟨decide_eq_true hhere, mem_range.mpr (by omega), fun j hj => ?_⟩
      rw [decide_eq_false (hearlier j (by omega) (by omega))]
      rfl
    rw [hfind, if_pos hfar, ← hp]
    rfl
  · have hfind : (range (n - 4)).find? (fun i => decide ((((response h body).take n).drop i).take 4 = crlf2)) =
        none := by
      rw [find?_range_eq_none]
      intro j hj
      rw [decide_eq_false (hearlier j (by omega) (by omega))]
      rfl
    rw [hfind, if_neg hfar]
    rfl

/-! ## What is left in the buffer -/

section Buffer

variable {maxout : Nat} {reads : List (List UInt8)} (out₀ : List UInt8) {r : List UInt8}
  (hr : recvResponse maxout maxReads [] reads = r) {bod : Nat}
include hr

lemma discResponse_none (hfind : findBody r = none) : cText (discResponse maxout reads out₀) = cText r := by
  unfold discResponse receiveAll
  rw [hr]
  simp only [hfind]
  exact cText_terminated r _

lemma discResponse_some (hfind : findBody r = some bod) (hbod : bod ≤ r.length)
    (hlen : r.length ≤ maxout - 1) (hmax : 0 < maxout) :
    cText (discResponse maxout reads out₀) = cText (r.drop bod) := by
  unfold discResponse receiveAll
  rw [hr]
  simp only [hfind]
  generalize out₀.drop (r.length + 1) = g
  have hdrop : (r ++ 0 :: g).drop bod = r.drop bod ++ 0 :: g := drop_append_of_le_length hbod
  have hstr : cText (r.drop bod ++ 0 :: g) = cText (r.drop bod) := cText_terminated _ _
  have hbl : (cText (r.drop bod)).length ≤ r.length := by
    have hle := (cText_front (r.drop bod)).length_le
    rw [length_drop] at hle
    omega
  have htake := take_length_cText (r.drop bod ++ 0 :: g)
  rw [hdrop, hstr] at *
  rw [hstr] at htake
  rw [Nat.min_eq_left (by omega), if_pos (by omega), htake]
  obtain ⟨b, l, hl⟩ : ∃ b l, (r ++ 0 :: g).drop (cText (r.drop bod)).length = b :: l := by
    refine exists_cons_of_length_pos ?_
    rw [length_drop, length_append, length_cons]
    omega
  rw [hl, set_append_right _ _ (Nat.le_refl _), Nat.sub_self, set_cons_zero,
    cText_append (cText_ne_zero _), cText_zero, append_nil]

lemma httpResponse_none (hfind : findBody r = none) :
    httpResponse maxout reads out₀ = r ++ 0 :: out₀.drop (r.length + 1) := by
  unfold httpResponse receiveAll
  rw [hr]
  simp only [hfind]

/-- The move of `http_request_sync`: the old bytes go on behind it. -/
lemma httpResponse_some (hfind : findBody r = some bod) (hbod : bod ≤ r.length) :
    httpResponse maxout reads out₀ = (r.drop bod ++ r.drop (r.length - bod)) ++ 0 :: out₀.drop (r.length + 1) := by
  unfold httpResponse receiveAll
  rw [hr]
  simp only [hfind]
  generalize out₀.drop (r.length + 1) = g
  have hmoved : ((r ++ 0 :: g).drop bod).take (r.length - bod) = r.drop bod := by
    rw [drop_append_of_le_length hbod, ← length_drop, take_left]
  rw [hmoved, drop_append_of_le_length (Nat.sub_le _ _), append_assoc]

end Buffer

/-! ## The result -/

/-- Only bytes of the header arrived, and those before the first zero happen to be the body. -/
def HeadIsBody (h body : List UInt8) (n : Nat) : Prop := n ≤ headLen h ∧ cText ((response h body).take n) = body

/-- When `disc_http_send` leaves the body, if the first `n` bytes arrive: normally, when all do,
there is a body, and `h` does not begin the `CRLFCRLF`. The other cases are accidents. -/
def DiscKeeps (h body : List UInt8) (n : Nat) : Prop :=
  (n = (response h body).length ∧ body ≠ [] ∧ ¬ crlf <:+ h) ∨
  (n + 2 = (response h body).length ∧ body ≠ [] ∧ crlf <:+ h ∧ body <+: crlf ++ body) ∨
  HeadIsBody h body n

/-- Behind the header is a first part of the body, and the old bytes behind it go on with the rest
and a zero. -/
def MovedIsBody (h body : List UInt8) (n : Nat) : Prop :=
  headLen h < n ∧
    (afterHead h body).take (n - headLen h) ++ cText (((response h body).take n).drop (n - headLen h)) = body

/-- When `http_request_sync` leaves the body and a terminator: normally, when all bytes arrive, only
if the header happens to have a zero in the place behind the body. -/
def HttpKeeps (h body : List UInt8) (n : Nat) : Prop :=
  (n = (response h body).length ∧ body ≠ [] ∧ ¬ crlf <:+ h ∧ h[body.length]? = some 0) ∨
  ((n ≠ (response h body).length ∨ crlf <:+ h) ∧ MovedIsBody h body n) ∨
  HeadIsBody h body n

lemma afterHead_ne_zero (hbody : ∀ b ∈ body, b ≠ 0) : ∀ b ∈ afterHead h body, b ≠ 0 := by
  unfold afterHead
  split
  · rw [forall_mem_append]
    exact ⟨ne_zero_of_cText rfl, hbody⟩
  · exact hbody

lemma drop_take_response (h body : List UInt8) (n : Nat) :
    ((response h body).take n).drop (headLen h) = (afterHead h body).take (n - headLen h) := by
  obtain ⟨p, hsplit, hp⟩ := response_split h body
  have hhead : headLen h = (p ++ crlf2).length := by
    rw [length_append, ← hp]
    rfl
  rw [drop_take, hsplit, ← append_assoc, hhead, drop_left]

/-- The body is what follows the header: either it is, or it looks the same two bytes further on. -/
lemma afterHead_take_eq_iff (hn : n ≤ (response h body).length) (hfar : headLen h < n) :
    (afterHead h body).take (n - headLen h) = body ↔
      (n = (response h body).length ∧ body ≠ [] ∧ ¬ crlf <:+ h) ∨
      (n + 2 = (response h body).length ∧ body ≠ [] ∧ crlf <:+ h ∧ body <+: crlf ++ body) := by
  have hlen := length_response h body
  unfold afterHead at hlen ⊢
  by_cases hend : crlf <:+ h
  · rw [if_pos hend] at hlen ⊢
    have htwo : (crlf ++ body).length = body.length + 2 := by
      rw [length_append, Nat.add_comm]
      rfl
    rw [htwo] at hlen
    constructor
    · intro htake
      have hsize := congrArg length htake
      rw [length_take, htwo] at hsize
      have hpos : 0 < body.length := by omega
      have hpre : (crlf ++ body).take (n - headLen h) <+: crlf ++ body := take_prefix _ _
      rw [htake] at hpre
      exact .inr ⟨by omega, length_pos_iff.mp hpos, hend, hpre⟩
    · rintro (⟨-, -, hnot⟩ | ⟨hall, -, -, hpre⟩)
      · exact absurd hend hnot
      · have hsize : n - headLen h = body.length := by omega
        rw [hsize]
        exact (prefix_iff_eq_take.mp hpre).symm
  · rw [if_neg hend] at hlen ⊢
    constructor
    · intro htake
      have hsize := congrArg length htake
      rw [length_take] at hsize
      have hpos : 0 < body.length := by omega
      exact .inl ⟨by omega, length_pos_iff.mp hpos, hend⟩
    · rintro (⟨hall, -, -⟩ | ⟨-, -, hyes, -⟩)
      · exact take_of_length_le (by omega)
      · exact absurd hyes hend

/-- The normal case of `http_request_sync`. -/
lemma movedIsBody_complete_iff (hbody : ∀ b ∈ body, b ≠ 0) (hne : body ≠ []) (hend : ¬ crlf <:+ h) :
    MovedIsBody h body (response h body).length ↔ h[body.length]? = some 0 := by
  have hsize := length_response h body
  have hafter : afterHead h body = body := if_neg hend
  have hpos : 0 < body.length := length_pos_iff.mpr hne
  rw [hafter] at hsize
  have hfar : headLen h < (response h body).length := by omega
  have hrest : (response h body).length - headLen h = body.length := by omega
  rw [MovedIsBody, and_iff_right hfar, hafter, hrest, List.take_length, List.take_length,
    append_right_eq_self]
  unfold response
  by_cases hin : body.length < h.length
  · rw [drop_append_of_le_length (Nat.le_of_lt hin), drop_eq_getElem_cons hin, getElem?_eq_getElem hin,
      Option.some_inj]
    constructor
    · intro hnil
      by_contra hb
      have hcons : cText (h[body.length] :: (h.drop (body.length + 1) ++ (crlf2 ++ body))) =
          h[body.length] :: cText (h.drop (body.length + 1) ++ (crlf2 ++ body)) :=
        takeWhile_cons_of_pos (decide_eq_true hb)
      rw [cons_append, hcons] at hnil
      exact absurd hnil (cons_ne_nil _ _)
    · intro hb
      rw [hb]
      exact cText_zero _
  · -- from the end of the header on there is no zero
    have hzero : ∀ b ∈ (h ++ (crlf2 ++ body)).drop body.length, b ≠ 0 := by
      intro b hb
      rw [drop_append, drop_eq_nil_of_le (Nat.not_lt.mp hin), nil_append] at hb
      rcases mem_append.mp (mem_of_mem_drop hb) with hb | hb
      · exact ne_zero_of_cText rfl b hb
      · exact hbody b hb
    rw [cText_eq_self hzero, getElem?_eq_none (Nat.not_lt.mp hin)]
    refine iff_of_false (fun hnil => ?_) (by simp)
    have hlen := congrArg length hnil
    rw [length_drop, length_append, length_append, length_nil] at hlen
    have hfour : crlf2.length = 4 := rfl
    omega

lemma httpKeeps_iff (hbody : ∀ b ∈ body, b ≠ 0) :
    HttpKeeps h body n ↔ MovedIsBody h body n ∨ HeadIsBody h body n := by
  by_cases hall : n ≠ (response h body).length ∨ crlf <:+ h
  · rw [HttpKeeps, and_iff_right hall, or_iff_right]
    rintro ⟨heq, -, hend, -⟩
    exact hall.elim (fun hne => hne heq) hend
  · obtain ⟨heq, hend⟩ := not_or.mp hall
    obtain rfl := not_not.mp heq
    rw [HttpKeeps]
    by_cases hne : body = []
    · -- without a body, nothing follows the header
      have hsize := length_response h body
      rw [afterHead, if_neg hend, hne, length_nil] at hsize
      have hmoved : ¬ MovedIsBody h body (response h body).length := fun hh => absurd hh.1 (by rw [hne]; omega)
      simp only [hne, ne_eq, not_true_eq_false, false_and, and_false, false_or, hend, or_self]
      rw [hne] at hmoved
      exact (or_iff_right hmoved).symm
    · rw [movedIsBody_complete_iff hbody hne hend]
      simp only [ne_eq, not_true_eq_false, hend, or_self, false_and, false_or, hne, not_false_eq_true, true_and]

/-- **When the body is extracted.** Let the loop take `k` reads, which put `n` bytes into the
buffer. `disc_http_send` leaves the body exactly when `DiscKeeps`, and `http_request_sync` leaves
the body and a terminator exactly when `HttpKeeps`. -/
theorem response_iff {h body : List UInt8} (hfree : ¬ crlf2 <:+: h) (hbody : ∀ b ∈ body, b ≠ 0) {maxout : Nat}
    (hmax : 0 < maxout) {reads : List (List UInt8)} (hreads : reads.flatten = response h body) {k n : Nat}
    (hk : Taken maxout reads k) (hn : n = min (maxout - 1) (reads.take k).flatten.length) (out₀ : List UInt8) :
    (cText (discResponse maxout reads out₀) = body ↔ DiscKeeps h body n) ∧
    (body ++ [0] <+: httpResponse maxout reads out₀ ↔ HttpKeeps h body n) := by
  obtain ⟨k', hk', hr⟩ := recvResponse_taken maxout maxReads [] reads (Nat.zero_le _) (by decide)
  rw [← hk.unique hk', nil_append] at hr
  -- what arrives is the first `n` bytes
  obtain ⟨hr', hle⟩ : (reads.take k).flatten.take (maxout - 1) = (response h body).take n ∧
      n ≤ (response h body).length := by
    have hpre : (reads.take k).flatten <+: response h body := by
      have hsplit : (reads.take k).flatten ++ (reads.drop k).flatten = response h body := by
        rw [← flatten_append, take_append_drop, hreads]
      rw [← hsplit]
      exact prefix_append _ _
    have hle := hpre.length_le
    refine ⟨?_, by omega⟩
    rw [prefix_iff_eq_take.mp hpre, take_take, hn]
  rw [hr'] at hr
  have hlen : ((response h body).take n).length = n := length_take_of_le hle
  have hfind := findBody_take hfree body hle
  by_cases hfar : headLen h < n
  · rw [if_pos hfar] at hfind
    have hhead : ¬ HeadIsBody h body n := fun hh => absurd hh.1 (by omega)
    have hzero : ∀ b ∈ (afterHead h body).take (n - headLen h), b ≠ 0 :=
      fun b hb => afterHead_ne_zero hbody b (mem_of_mem_take hb)
    have hdrop := drop_take_response h body n
    constructor
    · rw [discResponse_some out₀ hr hfind (by omega) (by omega) hmax, hdrop, cText_eq_self hzero,
        afterHead_take_eq_iff hle hfar, DiscKeeps, or_iff_left hhead]
    · rw [httpResponse_some out₀ hr hfind (by omega), terminated_prefix_iff hbody, hdrop, hlen, cText_append hzero,
        httpKeeps_iff hbody, or_iff_left hhead, MovedIsBody, and_iff_right hfar]
  · rw [if_neg hfar] at hfind
    have hhead : cText ((response h body).take n) = body ↔ HeadIsBody h body n :=
      (and_iff_right (Nat.not_lt.mp hfar)).symm
    constructor
    · rw [discResponse_none out₀ hr hfind, hhead, DiscKeeps]
      refine ⟨fun hh => .inr (.inr hh), ?_⟩
      have hsize := length_response h body
      have hpos : body ≠ [] → 0 < body.length := length_pos_iff.mpr
      unfold afterHead at hsize
      rintro (⟨hall, hne, hend⟩ | ⟨hall, hne, hend, -⟩ | hh)
      · rw [if_neg hend] at hsize
        have := hpos hne
        omega
      · rw [if_pos hend, length_append] at hsize
        have htwo : crlf.length = 2 := rfl
        have := hpos hne
        omega
      · exact hh
    · rw [httpResponse_none out₀ hr hfind, terminated_prefix_iff hbody, hhead, httpKeeps_iff hbody]
      exact ⟨.inr, fun hh => hh.resolve_left (fun hfar' => hfar hfar'.1)⟩

/-- `OK` and a header line, and the body `oink`. -/
def okHead : List UInt8 := [0x4F, 0x4B, 0x0D, 0x0A, 0x61, 0x3A, 0x31]

def oink : List UInt8 := [0x6F, 0x69, 0x6E, 0x6B]

/-- The response in one read: `disc_http_send` leaves `oink`. -/
theorem response_iff_oink : cText (discResponse 100 [response okHead oink] []) = oink ∧
      ¬ oink ++ [0] <+: httpResponse 100 [response okHead oink] [] := by
  have hfree : ¬ crlf2 <:+: okHead := by decide
  have hend : ¬ crlf <:+ okHead := by decide
  have hk : Taken 100 [response okHead oink] 1 := by
    refine ⟨by decide, fun j hj => ?_, .inl (by decide)⟩
    obtain rfl : j = 0 := by omega
    rintro (hh | hh)
    · exact absurd hh (by decide)
    · exact absurd hh (by decide)
  have hn : (response okHead oink).length = min (100 - 1) ([response okHead oink].take 1).flatten.length := by decide
  have hoink : ∀ b ∈ oink, b ≠ 0 := ne_zero_of_cText rfl
  obtain ⟨hdisc, hhttp⟩ := response_iff hfree hoink (by decide) (append_nil _) hk hn []
  refine ⟨hdisc.mpr (.inl ⟨rfl, by decide, hend⟩), hhttp.not.mpr ?_⟩
  rintro (⟨-, -, -, hzero⟩ | ⟨hcut, -⟩ | ⟨hle, -⟩)
  · exact absurd hzero (by decide)
  · exact hcut.elim (fun hne => hne rfl) hend
  · exact absurd hle (by decide)

/-- If the first of two reads ends with the header, `disc_http_send` leaves the header. In one read,
`http_request_sync` leaves `oink:1` and the rest of the response. -/
theorem response_lost_oink : cText (discResponse 100 [okHead ++ crlf2, oink] []) = okHead ++ crlf2 ∧
    cText (discResponse 100 [okHead ++ crlf2, oink] []) ≠ oink ∧
    cText (httpResponse 100 [response okHead oink] []) = oink ++ (response okHead oink).drop 4 ∧
    ¬ oink ++ [0] <+: httpResponse 100 [response okHead oink] [] := by
  have hdisc : cText (discResponse 100 [okHead ++ crlf2, oink] []) = okHead ++ crlf2 := by decide +kernel
  have hhttp : cText (httpResponse 100 [response okHead oink] []) = oink ++ (response okHead oink).drop 4 := by
    decide +kernel
  refine ⟨hdisc, by rw [hdisc]; decide, hhttp, ?_⟩
  decide +kernel

end PigOS.Crypto
