import Mathlib.Data.Nat.Find
import PigOS.Crypto.Correctness.JsonParse

/-!
# `Crypto.Correctness.JsonTree` — walking a parsed document

The accessors take the children of a node to be in the slots right behind it. The parser writes the
nodes in pre-order, so that the second child is there only when the first one has no children of its
own. `Walkable` is the condition on a value under which walking its table yields the value again
(`jsonParse_faithful_iff`).
-/

namespace PigOS.Crypto

open Kernel PreOrder List

/-! ## What a walk is to yield -/

/-- A node says of its own value what the label does. -/
def Shows (n : JsonNode) (l : JsonLabel) : Prop :=
  n.type = l.type ∧ n.key = l.key ∧ n.strVal = l.str ∧ n.numVal = some l.num ∧ n.boolVal = l.bool

/-- The first member with a key. -/
def firstMember (cs : List (RoseTree JsonLabel)) (k : CStr) : Option Nat :=
  cs.findIdx? (fun c => c.label.key = some k)

/-- The node in slot `x` and what the accessors make of it, when it is to be the root of `s`. -/
def NodeFaithful (t : JsonTree) (x : Nat) (s : RoseTree JsonLabel) : Prop :=
  (∃ n, t[x]? = some n ∧ Shows n s.label) ∧
  (s.label.type = .array →
    jsonArrayLen t (some x) = s.children.length ∧
    ∀ i < s.children.length, jsonArrayGet t (some x) i = some (x + 1 + RoseTree.offset s.children i)) ∧
  (s.label.type = .object →
    ∀ k, jsonFindKey t (some x) k = (firstMember s.children k).map (fun i => x + 1 + RoseTree.offset s.children i))

/-- Walking the table yields the value. -/
def Faithful (t : JsonTree) (v : Json) : Prop :=
  ∀ p ∈ (v.tree none).subtrees 0, NodeFaithful t p.1 p.2

/-! ## When it does -/

/-- The key of the `p`-th node below some siblings, in pre-order. -/
def keyAt (cs : List (RoseTree JsonLabel)) (p : Nat) : Option CStr :=
  ((RoseTree.nodes cs)[p]?).bind (fun c => c.label.key)

/-- The first member with a key is among the first `n` nodes below the object, and none of these
before it has that key. -/
structure MembersReach (cs : List (RoseTree JsonLabel)) : Prop where
  reach : ∀ k i, firstMember cs k = some i → RoseTree.offset cs i < cs.length
  own : ∀ k p, p < cs.length → keyAt cs p = some k → ∃ i, firstMember cs k = some i ∧ RoseTree.offset cs i ≤ p

def NodeWalkable (s : RoseTree JsonLabel) : Prop :=
  s.label.num ≠ Int64.minValue ∧
  (s.label.type = .array → ∀ c ∈ s.children.dropLast, c.children = []) ∧
  (s.label.type = .object → MembersReach s.children)

/-- Every element of an array but the last is a scalar or empty, members are within reach, and no
number is the smallest one. -/
def Walkable (v : Json) : Prop :=
  ∀ p ∈ (v.tree none).subtrees 0, NodeWalkable p.2

/-! ## Reading the table -/

section Table

variable {T s : RoseTree JsonLabel} {x : Nat} (h : (x, s) ∈ T.subtrees 0)
include h

lemma key_table {p : Nat} (hp : p < s.children.length) :
    ((RoseTree.table toNode 0 T)[x + 1 + p]?).bind JsonNode.key = keyAt s.children p := by
  have hsizes := RoseTree.length_le_sizes s.children
  obtain ⟨c, hc, hnode⟩ := RoseTree.getElem?_below h (Nat.lt_of_lt_of_le hp hsizes)
  unfold RoseTree.table keyAt
  rw [getElem?_map, Nat.add_assoc, hc, hnode]
  rfl

lemma shows_table_iff :
    (∃ n, (RoseTree.table toNode 0 T)[x]? = some n ∧ Shows n s.label) ↔ s.label.num ≠ Int64.minValue := by
  rw [RoseTree.getElem?_table toNode h]
  unfold Shows toNode readNum
  constructor
  · rintro ⟨n, hn, -, -, -, hnum, -⟩ hmin
    rw [Option.some.injEq] at hn
    rw [← hn] at hnum
    simp only at hnum
    rw [if_pos hmin] at hnum
    exact absurd hnum (by simp)
  · intro hmin
    refine ⟨_, rfl, rfl, rfl, rfl, ?_, rfl⟩
    simp only
    rw [if_neg hmin]

lemma jsonArrayLen_table (hty : s.label.type = .array) :
    jsonArrayLen (RoseTree.table toNode 0 T) (some x) = s.children.length := by
  unfold jsonArrayLen
  rw [Option.bind_some, RoseTree.getElem?_table toNode h]
  exact if_neg (not_not_intro hty)

lemma jsonArrayGet_table (hty : s.label.type = .array) {i : Nat} (hi : i < s.children.length) :
    jsonArrayGet (RoseTree.table toNode 0 T) (some x) i = some (x + 1 + i) := by
  have hnot : ¬ (s.label.type ≠ .array ∨ (i : Int) < 0 ∨ (s.children.length : Int) ≤ i) := by
    rintro (hne | hneg | hbig)
    · exact hne hty
    · omega
    · omega
  unfold jsonArrayGet
  rw [Option.bind_some, RoseTree.getElem?_table toNode h]
  unfold toNode
  simp only
  rw [if_neg hnot, if_pos (Or.inl hty), Int.toNat_natCast]

lemma array_faithful_iff (hty : s.label.type = .array) :
    (jsonArrayLen (RoseTree.table toNode 0 T) (some x) = s.children.length ∧
      ∀ i < s.children.length,
        jsonArrayGet (RoseTree.table toNode 0 T) (some x) i = some (x + 1 + RoseTree.offset s.children i)) ↔
    ∀ c ∈ s.children.dropLast, c.children = [] := by
  rw [← RoseTree.offsets_eq_iff]
  constructor
  · rintro ⟨-, hget⟩ i hi
    have hi' := hget i hi
    rw [jsonArrayGet_table h hty hi, Option.some.injEq] at hi'
    omega
  · intro hoff
    refine ⟨jsonArrayLen_table h hty, fun i hi => ?_⟩
    rw [jsonArrayGet_table h hty hi, hoff i hi]

/-- `json_find_key` finds the first node with the key among as many nodes as the object has
members. -/
lemma jsonFindKey_eq_some_iff (hty : s.label.type = .object) (k : CStr) (y : Nat) :
    jsonFindKey (RoseTree.table toNode 0 T) (some x) k = some y ↔
      ∃ p, x + 1 + p = y ∧ p < s.children.length ∧ keyAt s.children p = some k ∧
        ∀ q < p, keyAt s.children q ≠ some k := by
  have hkey : ∀ p < s.children.length,
      (((RoseTree.table toNode 0 T)[x + 1 + p]?).bind JsonNode.key).any (fun k' => ksc k' k = 0) = true ↔
        keyAt s.children p = some k := by
    intro p hp
    rw [key_table h hp, Option.any_eq_true_iff_get]
    constructor
    · rintro ⟨hsome, heq⟩
      rw [decide_eq_true_eq, ksc_eq_zero] at heq
      rw [← heq, Option.some_get]
    · intro heq
      refine ⟨by rw [heq]; rfl, ?_⟩
      simp only [heq, Option.get_some, decide_eq_true_eq]
      exact ksc_eq_zero.mpr rfl
  unfold jsonFindKey
  rw [Option.bind_some, RoseTree.getElem?_table toNode h]
  simp only [toNode, hty, or_true, if_true, ne_eq, not_true_eq_false, if_false]
  rw [find?_map, Option.map_eq_some_iff]
  constructor
  · rintro ⟨p, hp, hy⟩
    rw [find?_range_eq_some] at hp
    obtain ⟨hkp, hlt, hbefore⟩ := hp
    rw [mem_range] at hlt
    refine ⟨p, hy, hlt, (hkey p hlt).mp hkp, fun q hq heq => ?_⟩
    have hq' := hbefore q hq
    rw [Bool.not_eq_true'] at hq'
    have hpos := (hkey q (by omega)).mpr heq
    exact absurd (hq'.symm.trans hpos) (by simp)
  · rintro ⟨p, hy, hlt, hkp, hbefore⟩
    refine ⟨p, ?_, hy⟩
    rw [find?_range_eq_some]
    refine ⟨(hkey p hlt).mpr hkp, mem_range.mpr hlt, fun q hq => ?_⟩
    rw [Bool.not_eq_true', ← Bool.not_eq_true]
    exact fun hpos => hbefore q hq ((hkey q (by omega)).mp hpos)

end Table

/-! ## Members -/

lemma firstMember_eq_some_iff (cs : List (RoseTree JsonLabel)) (k : CStr) (i : Nat) : firstMember cs k = some i ↔
      ∃ c, cs[i]? = some c ∧ c.label.key = some k ∧ ∀ j < i, ∀ c', cs[j]? = some c' → c'.label.key ≠ some k := by
  unfold firstMember
  rw [findIdx?_eq_some_iff_getElem]
  constructor
  · rintro ⟨hi, hkey, hbefore⟩
    refine ⟨_, getElem?_eq_getElem hi, of_decide_eq_true hkey, ?_⟩
    intro j hj c' hc' heq
    rw [getElem?_eq_getElem (by omega), Option.some.injEq] at hc'
    refine hbefore j hj (decide_eq_true ?_)
    rw [hc', heq]
  · rintro ⟨c, hc, hkey, hbefore⟩
    obtain ⟨hi, hget⟩ := List.getElem?_eq_some_iff.mp hc
    refine ⟨hi, ?_, ?_⟩
    · rw [hget, hkey]
      exact decide_eq_true rfl
    · intro j hj heq
      exact hbefore j hj _ (getElem?_eq_getElem (by omega)) (of_decide_eq_true heq)

lemma keyAt_offset {cs : List (RoseTree JsonLabel)} {i : Nat} {c : RoseTree JsonLabel} (h : cs[i]? = some c) :
    keyAt cs (RoseTree.offset cs i) = c.label.key := by
  unfold keyAt
  rw [RoseTree.getElem?_nodes_offset h, Option.bind_some]

variable {T s : RoseTree JsonLabel}

lemma object_faithful_iff {x : Nat} (h : (x, s) ∈ T.subtrees 0) (hty : s.label.type = .object) :
    (∀ k, jsonFindKey (RoseTree.table toNode 0 T) (some x) k =
      (firstMember s.children k).map (fun i => x + 1 + RoseTree.offset s.children i)) ↔
    MembersReach s.children := by
  constructor
  · intro hfind
    refine ⟨fun k i hi => ?_, fun k p hp hkey => ?_⟩
    · have hk := hfind k
      rw [hi, Option.map_some] at hk
      obtain ⟨p, hxp, hp, -, -⟩ := (jsonFindKey_eq_some_iff h hty k _).mp hk
      omega
    · -- some node has the key, so the loop stops at the first one that does
      have hex : ∃ q, keyAt s.children q = some k := ⟨p, hkey⟩
      have hle : Nat.find hex ≤ p := Nat.find_min' hex hkey
      have hk := (jsonFindKey_eq_some_iff h hty k (x + 1 + Nat.find hex)).mpr
        ⟨Nat.find hex, rfl, by omega, Nat.find_spec hex, fun q hq => Nat.find_min hex hq⟩
      rw [hfind k, Option.map_eq_some_iff] at hk
      obtain ⟨i, hi, hoff⟩ := hk
      exact ⟨i, hi, by omega⟩
  · intro hreach k
    refine Option.ext fun y => ?_
    rw [jsonFindKey_eq_some_iff h hty, Option.map_eq_some_iff]
    constructor
    · rintro ⟨p, hxp, hp, hkey, hbefore⟩
      obtain ⟨i, hi, hle⟩ := hreach.own k p hp hkey
      obtain ⟨c, hc, hck, -⟩ := (firstMember_eq_some_iff _ _ _).mp hi
      have hnot : ¬ RoseTree.offset s.children i < p := by
        intro hlt
        exact hbefore _ hlt ((keyAt_offset hc).trans hck)
      exact ⟨i, hi, by omega⟩
    · rintro ⟨i, hi, hxi⟩
      obtain ⟨c, hc, hck, -⟩ := (firstMember_eq_some_iff _ _ _).mp hi
      refine ⟨_, hxi, hreach.reach k i hi, (keyAt_offset hc).trans hck, fun q hq heq => ?_⟩
      obtain ⟨j, hj, hle⟩ := hreach.own k q (Nat.lt_trans hq (hreach.reach k i hi)) heq
      rw [hi, Option.some.injEq] at hj
      rw [← hj] at hle
      omega

lemma nodeFaithful_iff {x : Nat} (h : (x, s) ∈ T.subtrees 0) :
    NodeFaithful (RoseTree.table toNode 0 T) x s ↔ NodeWalkable s := by
  unfold NodeFaithful NodeWalkable
  refine and_congr (shows_table_iff h) (and_congr ?_ ?_)
  · exact forall_congr' fun hty => array_faithful_iff h hty
  · exact forall_congr' fun hty => object_faithful_iff h hty

/-- **When walking a parsed document yields the value**: every array has no children below its
elements but the last, every object has its members within reach, and the smallest number does not
occur. -/
theorem jsonParse_faithful_iff {v : Json} {text : List UInt8} (h : Document v text)
    (hsize : (v.tree none).size ≤ jsonMaxNodes) : (∃ t, jsonParse text = some t ∧ Faithful t v) ↔ Walkable v := by
  have hiff : Faithful (RoseTree.table toNode 0 (v.tree none)) v ↔ Walkable v := by
    unfold Faithful Walkable
    exact forall₂_congr fun p hp => nodeFaithful_iff hp
  rw [jsonParse_document h hsize]
  constructor
  · rintro ⟨t, ht, hfaithful⟩
    rw [Option.some.injEq] at ht
    rw [← ht] at hfaithful
    exact hiff.mp hfaithful
  · intro hwalk
    exact ⟨_, rfl, hiff.mpr hwalk⟩

/-! Texts without white space. -/

variable {b x : List UInt8} {v : Json}

lemma Renders.document (h : Renders v x) : Document v x :=
  ⟨[], x, [], by simp [Ws], by simp [Ws], h, by simp⟩

lemma renders_digit {d : UInt8} (hd : isDigit d = true) {z : Int64} (hz : z.toInt = decimal [d]) :
    Renders (.num z) [d] := by
  rw [Renders]
  exact ⟨[d], ⟨by simp, by simpa using hd, fun _ => rfl⟩, Or.inl ⟨rfl, hz⟩⟩

lemma rendersElems_one (h : Renders v x) : RendersElems [v] x := by
  rw [RendersElems]
  exact ⟨[], x, [], by simp [Ws], by simp [Ws], h, by simp⟩

variable {es : List Json}

lemma rendersElems_cons {u : Json} (hx : Renders v x)
    (hb : RendersElems (u :: es) b) : RendersElems (v :: u :: es) (x ++ chComma :: b) := by
  rw [RendersElems]
  exact ⟨[], x, [], b, by simp [Ws], by simp [Ws], hx, by simp, hb⟩

lemma renders_arr (hb : RendersElems es b) :
    Renders (.arr es) (chLBracket :: (b ++ [chRBracket])) := by
  rw [Renders]
  exact ⟨b, rfl, hb⟩

/-- The document `[1,[2]]`: the nested array is the last element. -/
theorem jsonParse_faithful_last : Document (.arr [.num 1, .arr [.num 2]]) [0x5B, 0x31, 0x2C, 0x5B, 0x32, 0x5D, 0x5D] ∧
    ((∃ t, jsonParse [0x5B, 0x31, 0x2C, 0x5B, 0x32, 0x5D, 0x5D] = some t ∧
      Faithful t (.arr [.num 1, .arr [.num 2]])) ↔ Walkable (.arr [.num 1, .arr [.num 2]])) := by
  have h1 : Renders (.num 1) [0x31] := renders_digit (by decide) (by decide)
  have h2 : Renders (.num 2) [0x32] := renders_digit (by decide) (by decide)
  have hdoc := (renders_arr (rendersElems_cons h1 (rendersElems_one (renders_arr (rendersElems_one h2))))).document
  exact ⟨hdoc, jsonParse_faithful_iff hdoc (by decide)⟩

/-- In `[[1],2]` the element with index 1 is taken to be the `1` inside the first element. -/
theorem jsonParse_nested_first : Document (.arr [.arr [.num 1], .num 2]) [0x5B, 0x5B, 0x31, 0x5D, 0x2C, 0x32, 0x5D] ∧
    ∃ t, jsonParse [0x5B, 0x5B, 0x31, 0x5D, 0x2C, 0x32, 0x5D] = some t ∧
      jsonArrayLen t (some 0) = 2 ∧ jsonArrayGet t (some 0) 1 = some 2 ∧
      (t[2]?).map JsonNode.numVal = some (some 1) ∧ (t[3]?).map JsonNode.numVal = some (some 2) := by
  have h1 : Renders (.num 1) [0x31] := renders_digit (by decide) (by decide)
  have h2 : Renders (.num 2) [0x32] := renders_digit (by decide) (by decide)
  have hdoc := (renders_arr (rendersElems_cons (renders_arr (rendersElems_one h1)) (rendersElems_one h2))).document
  exact ⟨hdoc, _, rfl, by decide, by decide, by decide, by decide⟩

end PigOS.Crypto
