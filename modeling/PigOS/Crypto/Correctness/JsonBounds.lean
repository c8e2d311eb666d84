import PigOS.Crypto.Correctness.JsonParse

/-!
# `Crypto.Correctness.JsonBounds` — what the parser leaves of any input

The input may be cut off, or no JSON at all. A call leaves a rest of its input, adds slots behind
those in use and never more than there are, and no node claims more children than there are slots
behind it: `ValueBounds`, and `LoopBounds` for the loops over children.
-/

namespace PigOS.Crypto

open Kernel List

variable {n : JsonNode} {out : List UInt8 × JsonTree} {o : Option Nat}

/-! ## What is left of the input -/

lemma jsonSkipWs_suffix (rest : List UInt8) : jsonSkipWs rest <:+ rest := dropWhile_suffix isWs

lemma skipChar_suffix (c : UInt8) (rest : List UInt8) : skipChar c rest <:+ rest := by
  cases rest with
  | nil => exact suffix_rfl
  | cons x xs =>
    rw [skipChar]
    split
    · exact suffix_cons x xs
    · exact suffix_rfl

lemma skipWord_suffix (word rest : List UInt8) : skipWord word rest <:+ rest := by
  rw [skipWord]
  split
  · exact drop_suffix _ _
  · exact suffix_rfl

lemma stringLoop_suffix (rest buf : List UInt8) : (stringLoop rest buf).2 <:+ rest := by
  fun_induction stringLoop rest buf with
  | case1 buf => exact suffix_rfl
  | case2 rest buf => exact suffix_cons _ _
  | case3 buf => exact nil_suffix
  | case4 buf ec rest hq ih => exact ih.trans ((suffix_cons ec rest).trans (suffix_cons _ _))
  | case5 c rest buf hq hb ih => exact ih.trans (suffix_cons c rest)

lemma jsonParseStringRaw_suffix (rest : List UInt8) : (jsonParseStringRaw rest).2 <:+ rest := by
  cases rest with
  | nil => exact suffix_rfl
  | cons c xs =>
    rw [jsonParseStringRaw]
    split
    · exact suffix_rfl
    · exact (stringLoop_suffix xs []).trans (suffix_cons c xs)

lemma key_suffix (rest : List UInt8) : skipChar chColon (jsonSkipWs (jsonParseStringRaw (jsonSkipWs rest)).2) <:+ rest :=
  (skipChar_suffix _ _).trans ((jsonSkipWs_suffix _).trans ((jsonParseStringRaw_suffix _).trans (jsonSkipWs_suffix rest)))

/-! ## The table -/

/-- No node has more children than there are slots. -/
def Fits (t : JsonTree) : Prop := ∀ n ∈ t, n.childStart + n.children ≤ t.length

variable {t : JsonTree}

lemma Fits.push (h : Fits t) (hn : n.childStart + n.children ≤ t.length + 1) : Fits (t ++ [n]) := by
  intro m hm
  rw [length_append, length_singleton]
  rcases mem_append.mp hm with hm | hm
  · exact Nat.le_succ_of_le (h m hm)
  · rw [mem_singleton.mp hm]
    exact hn

variable {idx : Nat}

lemma Fits.setNode (h : Fits t) {f : JsonNode → JsonNode}
    (hf : ∀ n, t[idx]? = some n → (f n).childStart + (f n).children ≤ t.length) : Fits (setNode t idx f) := by
  intro n hn
  rw [length_setNode]
  obtain ⟨j, hj⟩ := mem_iff_getElem?.mp hn
  by_cases hij : idx = j
  · subst hij
    rw [Crypto.setNode, getElem?_modify_eq] at hj
    obtain ⟨m, hm, rfl⟩ := Option.map_eq_some_iff.mp hj
    exact hf m hm
  · rw [Crypto.setNode, getElem?_modify_ne f t hij] at hj
    exact h n (mem_of_getElem? hj)

lemma prefix_setNode {s : JsonTree} (h : s <+: t) (hidx : s.length ≤ idx) (f : JsonNode → JsonNode) :
    s <+: setNode t idx f := by
  rw [prefix_iff_getElem?] at h ⊢
  intro i hi
  rw [setNode, getElem?_modify_ne f t (by omega)]
  exact h i hi

/-! ## One call, on lists -/

/-- What a call on the input `rest` and the table `t` leaves. -/
structure ValueBounds (rest : List UInt8) (t : JsonTree) (r : Option Nat × List UInt8 × JsonTree) : Prop where
  rest : r.2.1 <:+ rest
  before : t <+: r.2.2
  slots : r.2.2.length ≤ jsonMaxNodes
  index : ∀ ci, r.1 = some ci → t.length ≤ ci ∧ ci < r.2.2.length
  fits : Fits t → Fits r.2.2

/-- The same for a loop, which also counts the children of the node in slot `idx`. -/
structure LoopBounds (idx : Nat) (rest : List UInt8) (t : JsonTree) (r : List UInt8 × JsonTree) : Prop where
  rest : r.1 <:+ rest
  length : t.length ≤ r.2.length
  before : t.take idx <+: r.2
  slots : r.2.length ≤ jsonMaxNodes
  fits : Fits t → Fits r.2

lemma LoopBounds.refl (idx : Nat) (rest : List UInt8) (ht : t.length ≤ jsonMaxNodes) :
    LoopBounds idx rest t (rest, t) where
  rest := suffix_rfl
  length := Nat.le_refl _
  before := take_prefix idx t
  slots := ht
  fits := id

variable {rest : List UInt8}

lemma LoopBounds.trans {rest₁ rest₂ : List UInt8} {t₁ : JsonTree}
    (h : LoopBounds idx rest t (rest₁, t₁)) (hrest : rest₂ <:+ rest₁) (h' : LoopBounds idx rest₂ t₁ out) :
    LoopBounds idx rest t out where
  rest := h'.rest.trans (hrest.trans h.rest)
  length := Nat.le_trans h.length h'.length
  before := (prefix_take_iff.mpr ⟨h.before, length_take_le idx t⟩).trans h'.before
  slots := h'.slots
  fits := fun hf => h'.fits (h.fits hf)

namespace ValueBounds

variable {rest rest₁ : List UInt8} {t t₁ : JsonTree} {ci idx : Nat}

lemma skip (h : ValueBounds rest t (o, rest₁, t₁)) (idx : Nat) :
    LoopBounds idx rest t (rest₁, t₁) where
  rest := h.rest
  length := h.before.length_le
  before := .trans ⟨_, take_append_drop idx t⟩ h.before
  slots := h.slots
  fits := h.fits

lemma setKey (h : ValueBounds rest t (some ci, rest₁, t₁)) (k : Option CStr) :
    ValueBounds rest t (some ci, rest₁, setNode t₁ ci (JsonNode.setKey k)) where
  rest := h.rest
  before := prefix_setNode h.before (h.index ci rfl).1 _
  slots := by
    rw [length_setNode]
    exact h.slots
  index := by
    rw [length_setNode]
    exact h.index
  fits := fun hf => (h.fits hf).setNode fun n hn => h.fits hf n (mem_of_getElem? hn)

/-- A child is counted: the call has taken a slot for it, and has not touched the node that
counts. -/
lemma count (h : ValueBounds rest t (some ci, rest₁, t₁)) (hidx : idx < t.length) :
    LoopBounds idx rest t (rest₁, setNode t₁ idx JsonNode.addChild) where
  rest := h.rest
  length := by
    rw [length_setNode]
    exact h.before.length_le
  before := prefix_setNode (.trans ⟨_, take_append_drop idx t⟩ h.before) (length_take_le idx t) _
  slots := by
    rw [length_setNode]
    exact h.slots
  fits := by
    intro hf
    refine (h.fits hf).setNode fun n hn => ?_
    obtain ⟨hle, hlt⟩ : t.length ≤ ci ∧ ci < t₁.length := h.index ci rfl
    have hold : t[idx]? = some n := by
      rw [getElem?_eq_getElem hidx, h.before.getElem hidx, ← getElem?_eq_getElem]
      exact hn
    have hfit := hf n (mem_of_getElem? hold)
    show n.childStart + (n.children + 1) ≤ t₁.length
    omega

end ValueBounds

/-- An object or an array: the node, the loop, and the closing bracket. -/
lemma LoopBounds.value {r : List UInt8} {c : UInt8}
    (h : LoopBounds t.length (jsonSkipWs r) (t ++ [n]) out) (hn : n.childStart + n.children ≤ t.length + 1)
    (hr : jsonSkipWs rest = c :: r) (close : UInt8) :
    ValueBounds rest t (some t.length, skipChar close out.1, out.2) where
  rest := (skipChar_suffix close out.1).trans (h.rest.trans ((jsonSkipWs_suffix r).trans
    ((suffix_cons c r).trans (hr ▸ jsonSkipWs_suffix rest))))
  before := by
    have hbefore := h.before
    rwa [take_left] at hbefore
  slots := h.slots
  index := by
    rintro ci ⟨⟩
    have hlen := h.length
    rw [length_append, length_singleton] at hlen
    exact ⟨Nat.le_refl _, hlen⟩
  fits := fun hf => h.fits (hf.push hn)

lemma ValueBounds.leaf {rest₁ : List UInt8} (ht : t.length < jsonMaxNodes)
    (hrest : rest₁ <:+ rest) (hn : n.childStart = 0 ∧ n.children = 0) (ho : ∀ ci, o = some ci → ci = t.length) :
    ValueBounds rest t (o, rest₁, t ++ [n]) where
  rest := hrest
  before := prefix_append t [n]
  slots := by
    rw [length_append, length_singleton]
    exact ht
  index := by
    intro ci hci
    rw [length_append, length_singleton, ho ci hci]
    exact ⟨Nat.le_refl _, Nat.lt_succ_self _⟩
  fits := fun hf => hf.push (by rw [hn.1, hn.2]; exact Nat.zero_le _)

end PigOS.Crypto
