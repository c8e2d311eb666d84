import Mathlib.Data.List.Basic

/-!
# `Lib.Feed` — a byte stream that is read in pieces

A `Feed` is a connection: the elements that are still to come, and how many of them each of the
following reads may deliver. A reader *yields* a value when it returns that value and leaves what
follows, whatever the sizes of the pieces, except that it may fail where a read comes back empty;
`Yields.readThen` composes such readers.

A code is prefix-free when a word and what follows it can be told from their concatenation
(`Codes.PrefixFree`).
-/

structure Feed (α : Type*) where
  bytes : List α
  /-- the most that the following reads deliver -/
  sizes : Nat → Nat

namespace Feed

open List

variable {α β : Type*}

/-- One read. -/
def recv (f : Feed α) (n : Nat) : List α × Feed α :=
  (f.bytes.take (min n (f.sizes 0)), ⟨f.bytes.drop (min n (f.sizes 0)), fun i => f.sizes (i + 1)⟩)

/-- A loop that reads until it has `n` elements, and fails when a read comes back empty. Every round
gets one of them, so that `n` rounds are enough. -/
def readLoop : Nat → Nat → Feed α → Option (List α) × Feed α
  | _, 0, f => (some [], f)
  | 0, _ + 1, f => (none, f)
  | k + 1, n + 1, f =>
    match f.recv (n + 1) with
    | ([], f') => (none, f')
    | (a :: c, f') =>
      let (cs, f'') := readLoop k (n + 1 - (a :: c).length) f'
      (cs.map (a :: c ++ ·), f'')

def readN (n : Nat) (f : Feed α) : Option (List α) × Feed α := readLoop n n f

/-- Read `n` elements and go on, or fail. -/
def readThen (f : Feed α) (n : Nat) (k : List α → Feed α → Option β × Feed α) : Option β × Feed α :=
  match readN n f with
  | (some c, f') => k c f'
  | (none, f') => (none, f')

/-- Every read delivers something, as long as there is something. -/
def Live (f : Feed α) : Prop := ∀ i, 0 < f.sizes i

/-- `f'` is what is left of `f` once only `rest` is still to come. -/
structure Left (f f' : Feed α) (rest : List α) : Prop where
  bytes : f'.bytes = rest
  live : f.Live → f'.Live

lemma recv_append (f : Feed α) (n : Nat) : (f.recv n).1 ++ (f.recv n).2.bytes = f.bytes := take_append_drop _ _

lemma length_recv_le (f : Feed α) (n : Nat) : (f.recv n).1.length ≤ n :=
  Nat.le_trans (length_take_le _ _) (Nat.min_le_left _ _)

lemma Live.recv {f : Feed α} (h : f.Live) (n : Nat) : (f.recv n).2.Live := fun i => h (i + 1)

lemma Live.recv_ne_nil {f : Feed α} (h : f.Live) (n : Nat) (hne : f.bytes ≠ []) : (f.recv (n + 1)).1 ≠ [] := by
  have hsize := h 0
  have hpos : 0 < f.bytes.length := length_pos_iff.mpr hne
  refine length_pos_iff.mp ?_
  show 0 < (f.bytes.take (min (n + 1) (f.sizes 0))).length
  rw [length_take]
  omega

/-- The loop reads its elements and leaves the others, unless a read comes back empty. -/
lemma readLoop_cases {k n : Nat} (hk : n ≤ k) {f : Feed α} {c rest : List α} (hbytes : f.bytes = c ++ rest)
    (hlen : c.length = n) :
    (∃ f', readLoop k n f = (some c, f') ∧ Left f f' rest) ∨ (¬ f.Live ∧ (readLoop k n f).1 = none) := by
  induction k generalizing n f c with
  | zero =>
    obtain rfl : n = 0 := Nat.le_zero.mp hk
    obtain rfl : c = [] := eq_nil_of_length_eq_zero hlen
    exact .inl ⟨f, by rw [readLoop], ⟨hbytes, id⟩⟩
  | succ k ih =>
    cases n with
    | zero =>
      obtain rfl : c = [] := eq_nil_of_length_eq_zero hlen
      exact .inl ⟨f, by rw [readLoop], ⟨hbytes, id⟩⟩
    | succ n =>
      have happ := f.recv_append (n + 1)
      have hle := f.length_recv_le (n + 1)
      have hlive : f.Live → (f.recv (n + 1)).2.Live := fun h => h.recv (n + 1)
      have hne : f.Live → (f.recv (n + 1)).1 ≠ [] := fun h => h.recv_ne_nil n (by
        rw [hbytes]
        exact append_ne_nil_of_left_ne_nil (ne_nil_of_length_eq_add_one hlen) rest)
      rw [readLoop]
      generalize f.recv (n + 1) = p at happ hle hlive hne
      rcases p with ⟨_ | ⟨a, piece⟩, f₁⟩
      · -- a dry read
        exact .inr ⟨fun h => hne h rfl, rfl⟩
      · -- the piece is the front of the part
        obtain ⟨c', rfl⟩ : a :: piece <+: c :=
          prefix_of_prefix_length_le (happ ▸ prefix_append _ _) (hbytes ▸ prefix_append _ _)
            (hlen ▸ hle)
        rw [hbytes, append_assoc] at happ
        have hrest : f₁.bytes = c' ++ rest := append_cancel_left happ
        rw [length_append] at hlen
        have hmore : c'.length = n + 1 - (a :: piece).length := by omega
        have hfuel : n + 1 - (a :: piece).length ≤ k := by
          rw [length_cons]
          omega
        simp only
        rcases ih hfuel hrest hmore with ⟨f', hloop, hleft⟩ | ⟨hdry, hloop⟩
        · rw [hloop]
          exact .inl ⟨f', rfl, ⟨hleft.bytes, fun h => hleft.live (hlive h)⟩⟩
        · refine .inr ⟨fun h => hdry (hlive h), ?_⟩
          rw [hloop, Option.map_none]

lemma readLoop_short {k n : Nat} {f : Feed α} (hn : f.bytes.length < n) : (readLoop k n f).1 = none := by
  induction k generalizing n f with
  | zero =>
    cases n with
    | zero => exact absurd hn (Nat.not_lt_zero _)
    | succ n => rfl
  | succ k ih =>
    cases n with
    | zero => exact absurd hn (Nat.not_lt_zero _)
    | succ n =>
      have happ := congrArg length (f.recv_append (n + 1))
      rw [length_append] at happ
      rw [readLoop]
      generalize f.recv (n + 1) = p at happ
      rcases p with ⟨_ | ⟨a, piece⟩, f₁⟩
      · rfl
      · simp only at happ ⊢
        rw [ih (by omega), Option.map_none]

/-- The reader whose outcome on `f` is `r` yields `b` and leaves `rest`. -/
def Yields (f : Feed α) (r : Option β × Feed α) (b : β) (rest : List α) : Prop :=
  (∃ f', r = (some b, f') ∧ Left f f' rest) ∨ (¬ f.Live ∧ r.1 = none)

lemma yields_pure {f : Feed α} (b : β) : Yields f (some b, f) b f.bytes := .inl ⟨f, rfl, ⟨rfl, id⟩⟩

variable {f : Feed α} {n : Nat} {k : List α → Feed α → Option β × Feed α}

/-- **Reading a part.** When the part `c` comes next and what is done with it yields `b`, so does
the whole. -/
theorem Yields.readThen {c rest rest' : List α} {b : β} (hbytes : f.bytes = c ++ rest) (hlen : c.length = n)
    (hk : ∀ f', f'.bytes = rest → Yields f' (k c f') b rest') : Yields f (f.readThen n k) b rest' := by
  unfold Feed.readThen readN
  rcases readLoop_cases (Nat.le_refl n) hbytes hlen with ⟨f', hloop, hleft⟩ | ⟨hdry, hloop⟩
  · rw [hloop]
    rcases hk f' hleft.bytes with ⟨f'', heq, hleft'⟩ | ⟨hdry, hnone⟩
    · exact .inl ⟨f'', heq, ⟨hleft'.bytes, fun h => hleft'.live (hleft.live h)⟩⟩
    · exact .inr ⟨fun h => hdry (hleft.live h), hnone⟩
  · right
    refine ⟨hdry, ?_⟩
    split
    · rename_i heq
      rw [heq] at hloop
      exact absurd hloop (by simp)
    · rfl

lemma readThen_short (hn : f.bytes.length < n) : (f.readThen n k).1 = none := by
  have hnone := readLoop_short (k := n) hn
  unfold Feed.readThen readN
  split
  · rename_i heq
    rw [heq] at hnone
    exact absurd hnone (by simp)
  · rfl

end Feed

/-! ## Codes that can be read from the front -/

namespace Codes

open List

variable {α β : Type*} {enc : α → List β}

def PrefixFree (enc : α → List β) : Prop := ∀ ⦃a b r r'⦄, enc a ++ r = enc b ++ r' → a = b ∧ r = r'

lemma prefixFree_of_width (hinj : Function.Injective enc) (hwidth : ∀ a b, (enc a).length = (enc b).length) :
    PrefixFree enc := by
  intro a b r r' h
  obtain ⟨hab, hr⟩ := append_inj h (hwidth a b)
  exact ⟨hinj hab, hr⟩

/-- A list behind its length. -/
def vector (len : Nat → List β) (body : List β) : List β := len body.length ++ body

/-- A vector can be read when lengths as far as its own can. -/
lemma prefixFree_vector {len : Nat → List β} {bound : Nat} (hlen : PrefixFree fun n : { n // n < bound } => len n)
    {S : List β → Prop} (hS : ∀ l, S l → l.length < bound) :
    PrefixFree fun l : { l : List β // S l } => vector len l := by
  intro a b r r' h
  simp only [vector, append_assoc] at h
  obtain ⟨hn, hrest⟩ := @hlen ⟨_, hS _ a.property⟩ ⟨_, hS _ b.property⟩ _ _ h
  obtain ⟨hab, hr⟩ := append_inj hrest (congrArg Subtype.val hn)
  exact ⟨Subtype.ext hab, hr⟩

/-- A concatenation of words that are not empty determines them. -/
lemma PrefixFree.flatMap_inj (h : PrefixFree enc) (hne : ∀ a, enc a ≠ []) {as bs : List α}
    (heq : as.flatMap enc = bs.flatMap enc) : as = bs := by
  induction as generalizing bs with
  | nil =>
    cases bs with
    | nil => rfl
    | cons b bs => exact absurd (append_eq_nil_iff.mp heq.symm).1 (hne b)
  | cons a as ih =>
    cases bs with
    | nil => exact absurd (append_eq_nil_iff.mp heq).1 (hne a)
    | cons b bs =>
      obtain ⟨rfl, hrest⟩ := h heq
      rw [ih hrest]

end Codes
