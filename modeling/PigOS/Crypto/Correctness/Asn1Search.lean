import PigOS.Crypto.Correctness.Asn1Bounds

/-!
# `Crypto.Correctness.Asn1Search` — what the DER parser uses up, and searches in its table

The children that a node claims lie in the table (`acceptedFrom_le`), behind the node itself
(`Forward`), although they need not be the node's children. So searches go to larger indices only,
end, and stay inside (`asn1FindTagDeep_ends`). `asn1ParseNested` counts the calls that are inside
each other; there are at most sixteen (`nested_le`).
-/

namespace PigOS.Crypto

open PreOrder List

/-! ## Room -/

/-- Every node claims slots of the table behind its own. -/
structure Forward (t : Asn1Tree) : Prop where
  inside : ∀ i < t.nodes.length, (t.node i).childStart + (t.node i).children ≤ t.nodes.length
  behind : ∀ i < t.nodes.length, ∀ j < (t.node i).children, i < (t.node i).childStart + j

lemma acceptedFrom_le (cs : List (RoseTree Tlv)) (n : Nat) :
    acceptedFrom n cs ≤ asn1MaxNodes - n ∧ acceptedFrom n cs ≤ RoseTree.sizes cs := by
  induction cs generalizing n with
  | nil => exact ⟨Nat.zero_le _, Nat.zero_le _⟩
  | cons c cs ih =>
    have hpos := c.size_pos
    obtain ⟨hfree, hsizes⟩ := ih (n + c.size)
    rw [acceptedFrom, RoseTree.sizes_cons]
    split <;> omega

variable {data fuel i len : Nat}

section
variable {mem : Nat → UInt8}

lemma met_closed {q : Nat × RoseTree Tlv} (h : q ∈ met mem data len)
    (hopens : q.2.label.opens = false) : q.2.children = [] := by
  unfold met at h
  cases hT : walk mem asn1MaxDepth data len with
  | none =>
    rw [hT] at h
    exact absurd h not_mem_nil
  | some T =>
    rw [hT] at h
    obtain ⟨levels, pos, room, hs⟩ := walk_subtree hT (mem_of_mem_take h)
    obtain ⟨hlabel, hroom⟩ := walk_label hs
    cases levels with
    | zero => exact nomatch hs
    | succ levels =>
      rw [walk_succ mem levels pos hroom, ← hlabel, hopens] at hs
      rw [← Option.some.inj hs]
      rfl

lemma met_length_le (data len : Nat) : (met mem data len).length ≤ asn1MaxNodes := by
  unfold met
  split
  · exact Nat.zero_le _
  · exact length_take_le ..

lemma met_slot (hi : i < (met mem data len).length) :
    ∃ s, (i, s) ∈ met mem data len ∧ (met mem data len)[i]? = some (i, s) ∧
      min asn1MaxNodes (i + s.size) ≤ (met mem data len).length := by
  unfold met at hi ⊢
  cases hT : walk mem asn1MaxDepth data len with
  | none =>
    rw [hT] at hi
    exact absurd hi (Nat.not_lt_zero i)
  | some T =>
    rw [hT] at hi
    obtain ⟨q, hq⟩ : ∃ q, ((T.subtrees 0).take asn1MaxNodes)[i]? = some q := ⟨_, getElem?_eq_getElem hi⟩
    obtain ⟨y, s⟩ := q
    have hmem := mem_of_getElem? hq
    have hget : (T.subtrees 0)[i]? = some (y, s) := by
      rw [length_take] at hi
      rwa [getElem?_take_of_lt (by omega)] at hq
    obtain rfl : y = i := (RoseTree.getElem?_subtrees 0 T hget).trans (Nat.zero_add i)
    refine ⟨s, hmem, hq, ?_⟩
    have hsize := RoseTree.slot_add_size_le (mem_of_mem_take hmem)
    rw [length_take, RoseTree.length_subtrees]
    omega

lemma forward_met (data len : Nat) (reads : List Nat) : Forward ⟨(met mem data len).map asn1Entry, reads⟩ := by
  have hnode : ∀ i < (met mem data len).length, ∃ s,
      Asn1Tree.node ⟨(met mem data len).map asn1Entry, reads⟩ i = asn1Entry (i, s) ∧
        min asn1MaxNodes (i + s.size) ≤ (met mem data len).length ∧ (s.label.opens = false → s.children = []) := by
    intro i hi
    obtain ⟨s, hs, hget, hend⟩ := met_slot hi
    refine ⟨s, ?_, hend, met_closed hs⟩
    rw [Asn1Tree.node, getD_eq_getElem?_getD, getElem?_map, hget]
    rfl
  have hlen : ((met mem data len).map asn1Entry).length = (met mem data len).length := length_map ..
  constructor
  · intro i hi
    rw [hlen] at hi ⊢
    obtain ⟨s, hs, hend, hclosed⟩ := hnode i hi
    obtain ⟨hfree, hsizes⟩ := acceptedFrom_le s.children (i + 1)
    have hsize : s.size = 1 + RoseTree.sizes s.children := by
      cases s with
      | node a cs => exact RoseTree.size_node a cs
    rw [hs]
    show (if s.label.opens then i + 1 else 0) + acceptedFrom (i + 1) s.children ≤ (met mem data len).length
    split
    · omega
    · next hopens =>
      rw [hclosed (Bool.eq_false_iff.mpr hopens)]
      exact Nat.zero_le _
  · intro i hi j hj
    rw [hlen] at hi
    obtain ⟨s, hs, -, hclosed⟩ := hnode i hi
    rw [hs] at hj ⊢
    have hopens : s.label.opens = true := by
      by_contra hopens
      have hj : j < acceptedFrom (i + 1) s.children := hj
      rw [hclosed (Bool.eq_false_iff.mpr hopens)] at hj
      exact Nat.not_lt_zero j hj
    show i < (if s.label.opens then i + 1 else 0) + j
    rw [if_pos hopens]
    omega

end

/-! ## Depth -/

mutual

/-- `asn1ParseNode`, and how many calls of it there are inside this one, one inside the other. -/
def asn1ParseNested (mem : Nat → UInt8) :
    Nat → Asn1Tree → Nat → Nat → Nat → Option (Option Nat × Asn1Tree) × Nat
  | 0, _, _, _, _ => (none, 0)
  | fuel + 1, t, p, max, depth =>
    if asn1MaxNodes ≤ t.nodes.length ∨ asn1MaxDepth ≤ depth ∨ max < 2 then (some (none, t), 0)
    else
      let idx := t.nodes.length
      let tag := mem p
      let l := asn1ParseLen mem (p + 1) (max - 1)
      let t := (t.add ⟨tag, l.len, p + 1 + l.consumed, 0, 0, false⟩).log (p :: l.reads)
      let total := (1 + l.consumed + l.len) % 2 ^ 32
      if max < total then (some (none, t), 0)
      else if tag &&& 0x20 ≠ 0 ∧ 0 < l.len then
        let t := t.set idx (Asn1Node.setChildStart t.nodes.length)
        let r := childLoopNested mem fuel t idx (p + 1 + l.consumed) l.len depth
        (r.1.map (fun t => (some idx, t.set idx Asn1Node.accept)), r.2)
      else (some (some idx, t.set idx Asn1Node.accept), 0)

/-- The same for `childLoop`. -/
def childLoopNested (mem : Nat → UInt8) : Nat → Asn1Tree → Nat → Nat → Nat → Nat → Option Asn1Tree × Nat
  | 0, _, _, _, _, _ => (none, 0)
  | fuel + 1, t, idx, cp, rem, depth =>
    if rem = 0 then (some t, 0)
    else
      let inside := asn1ParseNested mem fuel t cp rem (depth + 1)
      match inside.1 with
      | none => (none, 1 + inside.2)
      | some (none, t) => (some t, 1 + inside.2)
      | some (some ci, t) =>
        let t := t.set idx Asn1Node.addChild
        let clen := (t.node ci).len
        let l := if 2 ≤ rem then asn1ParseLen mem (cp + 1) (rem - 1) else ⟨0, 0, []⟩
        let t := t.log l.reads
        let ctot := (1 + l.consumed + clen) % 2 ^ 32
        if ctot = 0 then (some t, 1 + inside.2)
        else
          let r := childLoopNested mem fuel t idx (cp + ctot) (rem - ctot) depth
          (r.1, max (1 + inside.2) r.2)

end

/-- How many calls of `asn1_parse_node` there are inside a call of it, one inside the other. -/
def asn1Nesting (mem : Nat → UInt8) (fuel : Nat) (t : Asn1Tree) (p max depth : Nat) : Nat :=
  (asn1ParseNested mem fuel t p max depth).2

/-- The count does not change what is parsed. -/
lemma nested_fst (mem : Nat → UInt8) (fuel : Nat) :
    (∀ t p max depth, (asn1ParseNested mem fuel t p max depth).1 = asn1ParseNode mem fuel t p max depth) ∧
      ∀ t idx cp rem depth, (childLoopNested mem fuel t idx cp rem depth).1 =
        childLoop mem fuel t idx cp rem depth := by
  induction fuel with
  | zero =>
    refine ⟨fun t p max depth => ?_, fun t idx cp rem depth => ?_⟩
    · rw [asn1ParseNested, asn1ParseNode]
    · rw [childLoopNested, childLoop]
  | succ fuel ih =>
    obtain ⟨hnode, hloop⟩ := ih
    refine ⟨fun t p max depth => ?_, fun t idx cp rem depth => ?_⟩
    · rw [asn1ParseNested, asn1ParseNode]
      dsimp only
      split
      · rfl
      · split
        · rfl
        · split
          · rw [hloop]
            cases childLoop mem fuel _ _ _ _ _ <;> rfl
          · rfl
    · rw [childLoopNested, childLoop]
      dsimp only
      rw [hnode]
      split
      · rfl
      · rcases asn1ParseNode mem fuel t cp rem (depth + 1) with _ | ⟨_ | ci, t'⟩
        · rfl
        · rfl
        · dsimp only
          generalize (if 2 ≤ rem then asn1ParseLen mem (cp + 1) (rem - 1) else ⟨0, 0, []⟩) = l
          split
          · rfl
          · exact hloop _ _ _ _ _

/-- Each call is one level deeper, and the calls of the last level return at once. -/
lemma nested_le (mem : Nat → UInt8) (fuel : Nat) :
    (∀ t p max depth, (asn1ParseNested mem fuel t p max depth).2 ≤ asn1MaxDepth - depth) ∧
      ∀ t idx cp rem depth, depth < asn1MaxDepth →
        (childLoopNested mem fuel t idx cp rem depth).2 ≤ asn1MaxDepth - depth := by
  induction fuel with
  | zero =>
    constructor
    · intro t p max depth
      rw [asn1ParseNested]
      exact Nat.zero_le _
    · intro t idx cp rem depth _
      rw [childLoopNested]
      exact Nat.zero_le _
  | succ fuel ih =>
    obtain ⟨hnode, hloop⟩ := ih
    constructor
    · intro t p max depth
      rw [asn1ParseNested]
      split
      · exact Nat.zero_le _
      · next hgo =>
        dsimp only
        split
        · exact Nat.zero_le _
        · split
          · exact hloop _ _ _ _ _ (by omega)
          · exact Nat.zero_le _
    · intro t idx cp rem depth hdepth
      have hinside := hnode t cp rem (depth + 1)
      rw [childLoopNested]
      split
      · exact Nat.zero_le _
      · dsimp only
        split
        · dsimp only
          omega
        · dsimp only
          omega
        · generalize (if 2 ≤ rem then asn1ParseLen mem (cp + 1) (rem - 1) else ⟨0, 0, []⟩) = l
          split
          · dsimp only
            omega
          · exact Nat.max_le.mpr ⟨by omega, hloop _ _ _ _ _ hdepth⟩

/-! ## Searches -/

/-- A search comes to an end and has looked at nodes of the table only. -/
def Ends (t : Asn1Tree) (r : Option (Option Nat × List Nat)) : Prop :=
  ∃ found seen, r = some (found, seen) ∧ ∀ i ∈ seen, i < t.nodes.length

section
variable {t : Asn1Tree} {tag : UInt8}

lemma childSearch_ends {below : Asn1Node → Option (Option Nat × List Nat)} {parent : Asn1Node}
    (hinside : parent.childStart + parent.children ≤ t.nodes.length)
    (hbelow : ∀ j < parent.children, Ends t (below (t.node (parent.childStart + j)))) {k : Nat}
    (hk : i + k = parent.children) : Ends t (childSearch t tag below parent k i) := by
  induction k generalizing i with
  | zero => exact ⟨none, [], rfl, fun _ h => absurd h not_mem_nil⟩
  | succ k ih =>
    have hi : i < parent.children := by omega
    have hchild : asn1Child parent i = some (parent.childStart + i) := by
      rw [asn1Child, if_neg (by omega), Int.toNat_natCast]
    have hslot : parent.childStart + i < t.nodes.length := by omega
    rw [childSearch, hchild]
    dsimp only
    split
    · exact ⟨_, _, rfl, fun j hj => mem_singleton.mp hj ▸ hslot⟩
    · obtain ⟨found, seen, hfound, hseen⟩ := hbelow i hi
      rw [hfound]
      cases found with
      | some r =>
        refine ⟨_, _, rfl, fun j hj => ?_⟩
        rcases mem_cons.mp hj with rfl | hj
        · exact hslot
        · exact hseen j hj
      | none =>
        obtain ⟨found, rest, hrest, hseen'⟩ := ih (i := i + 1) (by omega)
        rw [hrest]
        refine ⟨found, _, rfl, fun j hj => ?_⟩
        rcases mem_cons.mp hj with rfl | hj
        · exact hslot
        · exact (mem_append.mp hj).elim (hseen j) (hseen' j)

lemma asn1FindTag_ends (h : Forward t) (hi : i < t.nodes.length) : Ends t (asn1FindTag t (t.node i) tag) :=
  childSearch_ends (h.inside i hi) (fun _ _ => ⟨none, [], rfl, fun _ h => absurd h not_mem_nil⟩) (Nat.zero_add _)

/-- A search from slot `i` is in slots behind it only, and no deeper than there are slots. -/
lemma asn1FindTagDeep_ends (h : Forward t) (hi : i < t.nodes.length) (hfuel : t.nodes.length ≤ fuel + i) :
    Ends t (asn1FindTagDeep t tag fuel (t.node i)) := by
  induction fuel generalizing i with
  | zero => omega
  | succ fuel ih =>
    rw [asn1FindTagDeep]
    refine childSearch_ends (h.inside i hi) (fun j hj => ?_) (Nat.zero_add _)
    have hinside := h.inside i hi
    have hbehind := h.behind i hi j hj
    exact ih (by omega) (by omega)

end

/-- **What the parser uses up, and the searches in its table.** For every buffer. -/
theorem asn1Parse_resources (mem : Nat → UInt8) (data len : Nat) :
    (∀ fuel, (asn1ParseNested mem fuel Asn1Tree.empty data len 0).1 = asn1ParseNode mem fuel Asn1Tree.empty data len 0 ∧
      asn1Nesting mem fuel Asn1Tree.empty data len 0 ≤ asn1MaxDepth) ∧
      ∃ r t, asn1Parse mem data len = some (r, t) ∧ t.nodes.length ≤ asn1MaxNodes ∧ Forward t ∧
        ∀ i < t.nodes.length, ∀ tag, Ends t (asn1FindTag t (t.node i) tag) ∧
          Ends t (asn1FindTagDeep t tag t.nodes.length (t.node i)) := by
  refine ⟨fun fuel => ⟨(nested_fst mem fuel).1 _ _ _ 0, (nested_le mem fuel).1 _ _ _ 0⟩, ?_⟩
  obtain ⟨reads, hparse, -⟩ := asn1Parse_met mem data len
  have hforward : Forward ⟨(met mem data len).map asn1Entry, reads⟩ := forward_met data len reads
  refine ⟨_, _, hparse, ?_, hforward, fun i hi tag => ⟨?_, ?_⟩⟩
  · rw [metTable, length_map]
    exact met_length_le data len
  · exact asn1FindTag_ends hforward hi
  · exact asn1FindTagDeep_ends hforward hi (Nat.le_add_right _ _)

end PigOS.Crypto
