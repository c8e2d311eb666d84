import PigOS.Crypto.Asn1
import PigOS.Lib.PreOrder

/-!
# `Crypto.Correctness.Asn1Walk` — what the DER parser does with any bytes

`walk` is the tree of headers that the length octets of any buffer describe, down to sixteen levels.
`asn1Parse_walk` is the refinement: the parser ends, and the table holds the first 256 nodes of the
tree in pre-order, each with the number of its children that were accepted.
-/

namespace PigOS.Crypto

open PreOrder List
open RoseTree (table_eq subtrees_eq tables_nil length_table)

variable {n room : Nat} {qs : List (Nat × RoseTree Tlv)} {i levels pos p max depth : Nat} {mem : Nat → UInt8}

/-! ## Headers -/

/-- A header: where it is, how many bytes follow from there, its tag, and what its length octets
say. -/
structure Tlv where
  pos : Nat
  room : Nat
  tag : UInt8
  len : Nat
  lc : Nat
  deriving DecidableEq

namespace Tlv

/-- Where the content starts. -/
def val (h : Tlv) : Nat := h.pos + 1 + h.lc

/-- Where the part of the header ends that is read. -/
def headerEnd (h : Tlv) : Nat := h.pos + 1 + Max.max 1 h.lc

/-- The size of the whole element. -/
def size (h : Tlv) : Nat := 1 + h.lc + h.len

/-- The size of the whole element, in 32 bits. -/
def total (h : Tlv) : Nat := h.size % 2 ^ 32

/-- The header is accepted. -/
def fits (h : Tlv) : Bool := h.total ≤ h.room

/-- The content is searched for headers. -/
def opens (h : Tlv) : Bool := h.fits && h.tag &&& 0x20 ≠ 0 && 0 < h.len

end Tlv

def tlvAt (mem : Nat → UInt8) (pos room : Nat) : Tlv :=
  let l := asn1ParseLen mem (pos + 1) (room - 1)
  ⟨pos, room, mem pos, l.len, l.consumed⟩

/-- Headers one after the other in `rem` bytes, at most `k`, up to one that is not accepted. -/
def walkItems (f : Nat → Nat → Option (RoseTree Tlv)) : Nat → Nat → Nat → List (RoseTree Tlv)
  | 0, _, _ => []
  | k + 1, p, rem =>
    match f p rem with
    | none => []
    | some c =>
      c :: (if c.label.fits ∧ c.label.total ≠ 0 then
        walkItems f k (p + c.label.total) (rem - c.label.total) else [])

/-- The tree of the headers in `room` bytes from `pos` on. -/
def walk (mem : Nat → UInt8) : Nat → Nat → Nat → Option (RoseTree Tlv)
  | 0, _, _ => none
  | levels + 1, pos, room =>
    if room < 2 then none
    else
      let h := tlvAt mem pos room
      some (.node h (if h.opens then walkItems (walk mem levels) h.len h.val h.len else []))

/-! ## The table of a walk -/

/-- How many of some siblings, the first one in slot `n`, are accepted. -/
def acceptedFrom (n : Nat) : List (RoseTree Tlv) → Nat
  | [] => 0
  | c :: cs => (if n < asn1MaxNodes ∧ c.label.fits then 1 else 0) + acceptedFrom (n + c.size) cs

/-- The node that the parser leaves in a slot. -/
def asn1Entry (p : Nat × RoseTree Tlv) : Asn1Node where
  tag := p.2.label.tag
  len := p.2.label.len
  val := p.2.label.val
  children := acceptedFrom (p.1 + 1) p.2.children
  childStart := if p.2.label.opens then p.1 + 1 else 0
  accepted := p.2.label.fits

/-- An offset in one of some headers that were met: at its tag, or at its length octets. -/
def ReadBy (qs : List (Nat × RoseTree Tlv)) (i : Nat) : Prop :=
  ∃ q ∈ qs, q.2.label.pos ≤ i ∧ i < q.2.label.headerEnd

lemma readBy_nil : ¬ReadBy [] i := by
  rintro ⟨q, hq, -⟩
  exact absurd hq not_mem_nil

lemma readBy_cons {q : Nat × RoseTree Tlv} :
    ReadBy (q :: qs) i ↔ (q.2.label.pos ≤ i ∧ i < q.2.label.headerEnd) ∨ ReadBy qs i := by
  unfold ReadBy
  rw [exists_mem_cons_iff]

lemma readBy_append {rs : List (Nat × RoseTree Tlv)} : ReadBy (qs ++ rs) i ↔ ReadBy qs i ∨ ReadBy rs i := by
  unfold ReadBy
  simp only [mem_append, or_and_right, exists_or]

lemma acceptedFrom_of_full (cs : List (RoseTree Tlv)) (h : asn1MaxNodes ≤ n) : acceptedFrom n cs = 0 := by
  induction cs generalizing n with
  | nil => rfl
  | cons c cs ih =>
    rw [acceptedFrom, if_neg (fun hn => absurd hn.1 (Nat.not_lt.mpr h)), ih (Nat.le_trans h (Nat.le_add_right _ _))]

lemma walk_eq_none (h : levels = 0 ∨ room < 2) : walk mem levels pos room = none := by
  cases levels with
  | zero => rfl
  | succ levels =>
    rw [walk, if_pos (h.resolve_left (Nat.succ_ne_zero levels))]

lemma walk_succ (mem : Nat → UInt8) (levels pos : Nat) (h : 2 ≤ room) : walk mem (levels + 1) pos room =
      some (.node (tlvAt mem pos room) (if (tlvAt mem pos room).opens then
        walkItems (walk mem levels) (tlvAt mem pos room).len (tlvAt mem pos room).val (tlvAt mem pos room).len
      else [])) := by
  rw [walk, if_neg (Nat.not_lt.mpr h)]

variable {T : RoseTree Tlv}

lemma walk_label
    (h : walk mem levels pos room = some T) : T.label = tlvAt mem pos room ∧ 2 ≤ room := by
  cases levels with
  | zero => exact absurd h (by rw [walk]; simp)
  | succ levels =>
    by_cases hroom : 2 ≤ room
    · rw [walk_succ mem levels pos hroom, Option.some.injEq] at h
      rw [← h]
      exact ⟨rfl, hroom⟩
    · rw [walk_eq_none (Or.inr (by omega))] at h
      exact absurd h (by simp)

lemma walkItems_succ (f : Nat → Nat → Option (RoseTree Tlv)) (k p rem : Nat) {c : RoseTree Tlv} (h : f p rem = some c) :
    walkItems f (k + 1) p rem = c :: (if c.label.fits ∧ c.label.total ≠ 0 then
        walkItems f k (p + c.label.total) (rem - c.label.total) else []) := by
  rw [walkItems, h]

lemma walkItems_none (f : Nat → Nat → Option (RoseTree Tlv)) (k p rem : Nat) (h : f p rem = none) :
    walkItems f k p rem = [] := by
  cases k with
  | zero => rfl
  | succ k => rw [walkItems, h]

/-! ## Length octets -/

lemma mem_span {k : Nat} : i ∈ span p k ↔ p ≤ i ∧ i < p + k := by
  unfold span
  rw [mem_map]
  constructor
  · rintro ⟨j, hj, rfl⟩
    rw [mem_range] at hj
    omega
  · rintro ⟨hle, hlt⟩
    exact ⟨i - p, mem_range.mpr (by omega), by omega⟩

/-- The length octets lie in the room that is given, all are read, and the length fits in 32
bits. -/
lemma asn1ParseLen_spec (mem : Nat → UInt8) (p : Nat) (hmax : 1 ≤ max) :
    (asn1ParseLen mem p max).len < 2 ^ 32 ∧ (asn1ParseLen mem p max).consumed ≤ max ∧
    ∀ i, i ∈ (asn1ParseLen mem p max).reads ↔ p ≤ i ∧ i < p + Max.max 1 (asn1ParseLen mem p max).consumed := by
  unfold asn1ParseLen
  rw [if_neg (by omega)]
  simp only
  by_cases hshort : mem p < 0x80
  · rw [if_pos hshort]
    have hb := (mem p).toNat_lt
    refine ⟨by simp only; omega, hmax, fun i => ?_⟩
    rw [mem_singleton]
    show _ ↔ _ ∧ i < p + 1
    omega
  · rw [if_neg hshort]
    by_cases hbad : 4 < (mem p &&& 0x7F).toNat ∨ max < 1 + (mem p &&& 0x7F).toNat
    · rw [if_pos hbad]
      refine ⟨Nat.two_pow_pos 32, Nat.zero_le _, fun i => ?_⟩
      rw [mem_singleton]
      show _ ↔ _ ∧ i < p + 1
      omega
    · rw [if_neg hbad]
      refine ⟨?_, by simp only; omega, fun i => ?_⟩
      · generalize range (mem p &&& 0x7F).toNat = is
        have hfold : ∀ v, v < 2 ^ 32 →
            is.foldl (fun len i => (len * 256 + (mem (p + 1 + i)).toNat) % 2 ^ 32) v < 2 ^ 32 := by
          induction is with
          | nil => exact fun v hv => hv
          | cons i is ih => exact fun v _ => ih _ (Nat.mod_lt _ (by decide))
        exact hfold 0 (by decide)
      · rw [mem_cons, mem_span, Nat.max_eq_right (Nat.le_add_right 1 _)]
        omega

/-! ## The parser -/

def Asn1Node.addChildren (k : Nat) (n : Asn1Node) : Asn1Node := { n with children := n.children + k }

section Refinement

variable {mem : Nat → UInt8} {fuel : Nat} {t : Asn1Tree} {reads : List Nat} {rem : Nat}

/-- The node of a header, before its content is searched. -/
def Tlv.entry (h : Tlv) : Asn1Node := ⟨h.tag, h.len, h.val, 0, 0, false⟩

/-- What the parser reads of a header. -/
def headerReads (mem : Nat → UInt8) (pos room : Nat) : List Nat :=
  pos :: (asn1ParseLen mem (pos + 1) (room - 1)).reads

lemma mem_headerReads (h : 2 ≤ room) :
    i ∈ headerReads mem pos room ↔ pos ≤ i ∧ i < (tlvAt mem pos room).headerEnd := by
  have hroom : 1 ≤ room - 1 := by omega
  rw [headerReads, mem_cons, (asn1ParseLen_spec mem (pos + 1) hroom).2.2]
  show _ ↔ _ ∧ i < pos + 1 + Max.max 1 (asn1ParseLen mem (pos + 1) (room - 1)).consumed
  omega

/-- The parser at a header, with a free slot, above the deepest level and with room for a header. -/
lemma asn1ParseNode_header (hfree : t.nodes.length < asn1MaxNodes)
    (hdepth : depth < asn1MaxDepth) (hmax : 2 ≤ max) :
    asn1ParseNode mem (fuel + 1) t p max depth =
      let h := tlvAt mem p max
      let n := t.nodes.length
      let reads := t.reads ++ headerReads mem p max
      if h.fits then
        if h.opens then
          (childLoop mem fuel ⟨t.nodes ++ [Asn1Node.setChildStart (n + 1) h.entry], reads⟩ n h.val h.len depth).map
            (fun t => (some n, t.set n Asn1Node.accept))
        else some (some n, ⟨t.nodes ++ [h.entry.accept], reads⟩)
      else some (none, ⟨t.nodes ++ [h.entry], reads⟩) := by
  have hgo : ¬ (asn1MaxNodes ≤ t.nodes.length ∨ asn1MaxDepth ≤ depth ∨ max < 2) := by omega
  have hset : ∀ f : Asn1Node → Asn1Node, (t.nodes ++ [(tlvAt mem p max).entry]).modify t.nodes.length f =
      t.nodes ++ [f (tlvAt mem p max).entry] := fun f => modify_length_append f t.nodes [] _
  have htotal : (max < (1 + (asn1ParseLen mem (p + 1) (max - 1)).consumed +
      (asn1ParseLen mem (p + 1) (max - 1)).len) % 2 ^ 32) ↔ ¬ (tlvAt mem p max).fits = true := by
    unfold Tlv.fits
    rw [decide_eq_true_eq, Nat.not_le]
    rfl
  have hopens : (tlvAt mem p max).fits = true →
      ((mem p &&& 0x20 ≠ 0 ∧ 0 < (asn1ParseLen mem (p + 1) (max - 1)).len) ↔ (tlvAt mem p max).opens = true) := by
    intro hfits
    unfold Tlv.opens
    rw [hfits, Bool.true_and, Bool.and_eq_true, decide_eq_true_eq, decide_eq_true_eq]
    rfl
  rw [asn1ParseNode, if_neg hgo]
  simp only
  by_cases hfits : (tlvAt mem p max).fits = true
  · rw [if_neg (fun hlt => htotal.mp hlt hfits), if_pos hfits]
    by_cases hopen : (tlvAt mem p max).opens = true
    · have hlen : (t.nodes ++ [(tlvAt mem p max).entry]).length = t.nodes.length + 1 := length_append
      rw [if_pos ((hopens hfits).mpr hopen), if_pos hopen, ← hset, ← hlen]
      split
      · rename_i hchildren
        exact (congrArg (Option.map _) hchildren).symm
      · rename_i t' hchildren
        exact (congrArg (Option.map fun t' : Asn1Tree => (some t.nodes.length, t'.set t.nodes.length Asn1Node.accept))
          hchildren).symm
    · rw [if_neg (fun h => hopen ((hopens hfits).mp h)), if_neg hopen, ← hset]
      rfl
  · rw [if_pos (htotal.mpr hfits), if_neg hfits]
    rfl

/-- The parser at a node of the walk: it appends what the table has room for. -/
def NodeSpec (mem : Nat → UInt8) (fuel : Nat) : Prop :=
  ∀ (t : Asn1Tree) n p max depth, t.nodes.length = n → 2 * (asn1MaxNodes - n) + 1 ≤ fuel →
    (walk mem (asn1MaxDepth - depth) p max = none → asn1ParseNode mem fuel t p max depth = some (none, t)) ∧
    ∀ T, walk mem (asn1MaxDepth - depth) p max = some T → ∃ reads,
      asn1ParseNode mem fuel t p max depth =
        some (if n < asn1MaxNodes ∧ T.label.fits then some n else none,
          ⟨t.nodes ++ (T.table asn1Entry n).take (asn1MaxNodes - n), reads⟩) ∧
      ∀ i, i ∈ reads ↔ i ∈ t.reads ∨ ReadBy ((T.subtrees n).take (asn1MaxNodes - n)) i

/-- The loop at the content of the node in slot `idx` appends what the table has room for and counts
the children. -/
def LoopSpec (mem : Nat → UInt8) (fuel : Nat) : Prop :=
  ∀ (t : Asn1Tree) n idx cp rem depth k, t.nodes.length = n → idx < n → rem ≤ k →
    2 * (asn1MaxNodes - n) + 2 ≤ fuel →
    let cs := walkItems (walk mem (asn1MaxDepth - (depth + 1))) k cp rem
    ∃ reads,
      childLoop mem fuel t idx cp rem depth =
        some ⟨t.nodes.modify idx (Asn1Node.addChildren (acceptedFrom n cs)) ++
          (RoseTree.tables asn1Entry n cs).take (asn1MaxNodes - n), reads⟩ ∧
      ∀ i, i ∈ reads ↔ i ∈ t.reads ∨ ReadBy ((RoseTree.forest n cs).take (asn1MaxNodes - n)) i

/-- What has been read once the header `T` is met, if nothing but its children is read besides. -/
lemma reads_header (hmax : 2 ≤ max) (hT : T.label = tlvAt mem p max)
    (h : ∀ i, i ∈ reads ↔ i ∈ t.reads ++ headerReads mem p max ∨ ReadBy qs i) :
    ∀ i, i ∈ reads ↔ i ∈ t.reads ∨ ReadBy ((n, T) :: qs) i := by
  intro i
  rw [h, mem_append, mem_headerReads hmax, readBy_cons, hT, or_assoc]
  rfl

lemma Tlv.fits_of_opens {h : Tlv} (ho : h.opens = true) : h.fits = true := by
  unfold Tlv.opens at ho
  simp only [Bool.and_eq_true] at ho
  exact ho.1.1

lemma asn1Entry_opened (ho : T.label.opens = true) (n : Nat) :
    Asn1Node.accept (Asn1Node.addChildren (acceptedFrom (n + 1) T.children)
      (Asn1Node.setChildStart (n + 1) T.label.entry)) = asn1Entry (n, T) := by
  unfold asn1Entry
  simp only [ho, Tlv.fits_of_opens ho, if_true]
  show Asn1Node.mk _ _ _ (0 + _) _ true = _
  rw [Nat.zero_add]
  rfl

lemma asn1Entry_closed (ho : T.label.opens = false) (hc : T.children = []) (n : Nat) :
    asn1Entry (n, T) = if T.label.fits then T.label.entry.accept else T.label.entry := by
  unfold asn1Entry
  simp only [ho, hc]
  cases hf : T.label.fits <;> rfl

lemma nodeSpec_succ (hL : LoopSpec mem fuel) : NodeSpec mem (fuel + 1) := by
  intro t n p max depth hn hfuel
  by_cases hgo : depth < asn1MaxDepth ∧ 2 ≤ max
  · obtain ⟨hdepth, hmax⟩ := hgo
    have hlevels : asn1MaxDepth - depth = (asn1MaxDepth - (depth + 1)) + 1 := by omega
    rw [hlevels, walk_succ mem _ p hmax]
    refine ⟨fun h => absurd h (by simp), ?_⟩
    intro T hT
    rw [Option.some.injEq] at hT
    by_cases hfree : n < asn1MaxNodes
    · have hroom : asn1MaxNodes - n = (asn1MaxNodes - (n + 1)) + 1 := by omega
      have hlabel : T.label = tlvAt mem p max := by rw [← hT]; rfl
      have hchildren : T.children = if (tlvAt mem p max).opens then
          walkItems (walk mem (asn1MaxDepth - (depth + 1))) (tlvAt mem p max).len (tlvAt mem p max).val
            (tlvAt mem p max).len else [] := by rw [← hT]; rfl
      rw [asn1ParseNode_header (hn ▸ hfree) hdepth hmax, table_eq, subtrees_eq, hroom,
        take_succ_cons, take_succ_cons, hlabel]
      simp only [hn, hfree, true_and]
      by_cases hfits : (tlvAt mem p max).fits = true
      · rw [if_pos hfits, if_pos hfits]
        by_cases hopen : (tlvAt mem p max).opens = true
        · rw [if_pos hopen] at hchildren ⊢
          have hlen : (t.nodes ++ [Asn1Node.setChildStart (n + 1) (tlvAt mem p max).entry]).length = n + 1 := by
            rw [length_append, hn]
            rfl
          obtain ⟨reads, hloop, hreads⟩ := hL
            ⟨t.nodes ++ [Asn1Node.setChildStart (n + 1) (tlvAt mem p max).entry], t.reads ++ headerReads mem p max⟩
            (n + 1) n (tlvAt mem p max).val (tlvAt mem p max).len depth (tlvAt mem p max).len hlen
            (Nat.lt_succ_self n) (Nat.le_refl _) (by omega)
          rw [← hchildren] at hloop hreads
          refine ⟨reads, ?_, reads_header hmax hlabel hreads⟩
          rw [hloop, Option.map_some, ← hn, modify_length_append, hn, ← hlabel]
          rw [← hlabel] at hopen
          unfold Asn1Tree.set
          simp only
          rw [append_assoc, singleton_append, ← hn, modify_length_append, hn, asn1Entry_opened hopen]
        · rw [if_neg hopen] at hchildren ⊢
          rw [hchildren, tables_nil, take_nil, RoseTree.forest_nil, take_nil]
          refine ⟨_, ?_, reads_header hmax hlabel (fun i => (or_iff_left readBy_nil).symm)⟩
          rw [← hlabel] at hopen hfits ⊢
          rw [asn1Entry_closed (Bool.eq_false_iff.mpr hopen) hchildren, if_pos hfits]
      · have hopen : ¬ (tlvAt mem p max).opens = true := fun ho => hfits (Tlv.fits_of_opens ho)
        rw [if_neg hopen] at hchildren
        rw [if_neg hfits, if_neg hfits]
        rw [hchildren, tables_nil, take_nil, RoseTree.forest_nil, take_nil]
        refine ⟨_, ?_, reads_header hmax hlabel (fun i => (or_iff_left readBy_nil).symm)⟩
        rw [← hlabel] at hopen hfits ⊢
        rw [asn1Entry_closed (Bool.eq_false_iff.mpr hopen) hchildren, if_neg hfits]
    · have hfull : asn1MaxNodes - n = 0 := by omega
      rw [hfull]
      refine ⟨t.reads, ?_, fun i => (or_iff_left readBy_nil).symm⟩
      rw [asn1ParseNode, if_pos (Or.inl (by omega)), if_neg (fun h => hfree h.1), take_zero, append_nil]
  · have hnone : walk mem (asn1MaxDepth - depth) p max = none := walk_eq_none (by omega)
    rw [hnone]
    refine ⟨fun _ => ?_, fun T hT => absurd hT (by simp)⟩
    rw [asn1ParseNode, if_pos (by omega)]

lemma addChildren_zero : Asn1Node.addChildren 0 = id := rfl

lemma addChildren_addChild (k : Nat) : Asn1Node.addChildren k ∘ Asn1Node.addChild = Asn1Node.addChildren (1 + k) := by
  funext n
  show { n with children := n.children + 1 + k } = { n with children := n.children + (1 + k) }
  rw [Nat.add_assoc]

/-- One sibling and the rest, in a table with limited room. -/
lemma tables_take_cons (n : Nat) (c : RoseTree Tlv) (cs : List (RoseTree Tlv)) :
    let n' := n + ((c.table asn1Entry n).take (asn1MaxNodes - n)).length
    (RoseTree.tables asn1Entry n (c :: cs)).take (asn1MaxNodes - n) =
        (c.table asn1Entry n).take (asn1MaxNodes - n) ++ (RoseTree.tables asn1Entry n' cs).take (asn1MaxNodes - n') ∧
      acceptedFrom (n + c.size) cs = acceptedFrom n' cs ∧
      (RoseTree.forest n (c :: cs)).take (asn1MaxNodes - n) =
        (c.subtrees n).take (asn1MaxNodes - n) ++ (RoseTree.forest n' cs).take (asn1MaxNodes - n') := by
  intro n'
  have hn' : n' = n + min (asn1MaxNodes - n) c.size := by
    show n + _ = _
    rw [length_take, length_table]
  rw [RoseTree.tables_cons, RoseTree.forest_cons, take_append, take_append, length_table,
    RoseTree.length_subtrees]
  by_cases hfits : c.size ≤ asn1MaxNodes - n
  · have heq : n' = n + c.size := by omega
    have hsub : asn1MaxNodes - n - c.size = asn1MaxNodes - n' := by omega
    rw [heq, hsub, heq]
    exact ⟨rfl, rfl, rfl⟩
  · have hsub : asn1MaxNodes - n - c.size = 0 := by omega
    have hsub' : asn1MaxNodes - n' = 0 := by omega
    rw [hsub, hsub', acceptedFrom_of_full cs (by omega), acceptedFrom_of_full cs (by omega)]
    exact ⟨rfl, rfl, rfl⟩

/-- A round of the loop reads the length octets of its header a second time. -/
lemma reads_again {cp : Nat} (hfree : n < asn1MaxNodes) (hrem : 2 ≤ rem) (hlabel : T.label = tlvAt mem cp rem)
    (h : ∀ i, i ∈ reads ↔ i ∈ t.reads ∨ ReadBy ((T.subtrees n).take (asn1MaxNodes - n)) i) :
    ∀ i, i ∈ reads ++ (asn1ParseLen mem (cp + 1) (rem - 1)).reads ↔
      i ∈ t.reads ∨ ReadBy ((T.subtrees n).take (asn1MaxNodes - n)) i := by
  intro i
  rw [mem_append, h, or_iff_left_of_imp]
  intro hi
  have hroom : asn1MaxNodes - n = (asn1MaxNodes - (n + 1)) + 1 := by omega
  refine Or.inr ?_
  rw [subtrees_eq, hroom, take_succ_cons, readBy_cons, hlabel]
  exact Or.inl ((mem_headerReads hrem).mp (mem_cons_of_mem _ hi))

lemma childLoop_accepted {idx cp : Nat}
    (hn : t.nodes.length = n) (hidx : idx < n) (hfree : n < asn1MaxNodes) (hrem : 2 ≤ rem)
    (hlabel : T.label = tlvAt mem cp rem) (hparse : asn1ParseNode mem fuel t cp rem (depth + 1) =
      some (some n, ⟨t.nodes ++ (T.table asn1Entry n).take (asn1MaxNodes - n), reads⟩)) :
    childLoop mem (fuel + 1) t idx cp rem depth =
      let t' : Asn1Tree := ⟨t.nodes.modify idx Asn1Node.addChild ++ (T.table asn1Entry n).take (asn1MaxNodes - n),
        reads ++ (asn1ParseLen mem (cp + 1) (rem - 1)).reads⟩
      if T.label.total = 0 then some t'
      else childLoop mem fuel t' idx (cp + T.label.total) (rem - T.label.total) depth := by
  have hset : (t.nodes ++ (T.table asn1Entry n).take (asn1MaxNodes - n)).modify idx Asn1Node.addChild =
      t.nodes.modify idx Asn1Node.addChild ++ (T.table asn1Entry n).take (asn1MaxNodes - n) :=
    modify_append _ _ (by omega)
  have hnode : ((t.nodes.modify idx Asn1Node.addChild ++ (T.table asn1Entry n).take (asn1MaxNodes - n)).getD n
      Asn1Node.zero).len = T.label.len := by
    have hroom : asn1MaxNodes - n = (asn1MaxNodes - (n + 1)) + 1 := by omega
    have hlen : (t.nodes.modify idx Asn1Node.addChild).length = n := by rw [length_modify, hn]
    rw [table_eq, hroom, take_succ_cons, getD_eq_getElem?_getD,
      getElem?_append_right (by omega), hlen, Nat.sub_self]
    rfl
  have htotal : (1 + (asn1ParseLen mem (cp + 1) (rem - 1)).consumed + T.label.len) % 2 ^ 32 = T.label.total := by
    rw [hlabel]
    rfl
  rw [childLoop, if_neg (by omega), hparse]
  simp only [Asn1Tree.set, Asn1Tree.node, Asn1Tree.log, hset, hnode, if_pos hrem, htotal]

lemma loopSpec_succ (hN : NodeSpec mem fuel) (hL : LoopSpec mem fuel) : LoopSpec mem (fuel + 1) := by
  intro t n idx cp rem depth k hn hidx hk hfuel cs
  obtain ⟨hnone, hsome⟩ := hN t n cp rem (depth + 1) hn (by omega)
  cases hwalk : walk mem (asn1MaxDepth - (depth + 1)) cp rem with
  | none =>
    have hcs : cs = [] := walkItems_none _ k cp rem hwalk
    rw [hcs, tables_nil, take_nil, append_nil, acceptedFrom, addChildren_zero, modify_id, RoseTree.forest_nil, take_nil]
    refine ⟨t.reads, ?_, fun i => (or_iff_left readBy_nil).symm⟩
    by_cases hrem : rem = 0
    · rw [childLoop, if_pos hrem]
    · rw [childLoop, if_neg hrem, hnone hwalk]
  | some T =>
    obtain ⟨hlabel, hrem⟩ := walk_label hwalk
    obtain ⟨reads, hparse, hreads⟩ := hsome T hwalk
    obtain ⟨k, rfl⟩ : ∃ k', k = k' + 1 := ⟨k - 1, by omega⟩
    obtain ⟨rest, hrest⟩ : ∃ rest, rest = if T.label.fits ∧ T.label.total ≠ 0 then
      walkItems (walk mem (asn1MaxDepth - (depth + 1))) k (cp + T.label.total) (rem - T.label.total) else [] :=
      ⟨_, rfl⟩
    have hcs : cs = T :: rest := hrest ▸ walkItems_succ _ k cp rem hwalk
    rw [hcs]
    obtain ⟨htables, hcount, hforest⟩ := tables_take_cons n T rest
    rw [acceptedFrom, htables, hcount, hforest]
    by_cases hacc : n < asn1MaxNodes ∧ T.label.fits = true
    · rw [if_pos hacc] at hparse ⊢
      have hround := childLoop_accepted hn hidx hacc.1 hrem hlabel hparse
      have hreads' := reads_again hacc.1 hrem hlabel hreads
      by_cases hzero : T.label.total = 0
      · rw [if_neg (fun h => h.2 hzero)] at hrest
        rw [hround, if_pos hzero, hrest, tables_nil, take_nil, append_nil, RoseTree.forest_nil,
          take_nil, append_nil]
        exact ⟨_, rfl, hreads'⟩
      · rw [if_pos ⟨hacc.2, hzero⟩] at hrest
        have hpos := T.size_pos
        have hlen : (t.nodes.modify idx Asn1Node.addChild ++
            (T.table asn1Entry n).take (asn1MaxNodes - n)).length =
              n + ((T.table asn1Entry n).take (asn1MaxNodes - n)).length := by
          rw [length_append, length_modify, hn]
        have hgrow : 1 ≤ ((T.table asn1Entry n).take (asn1MaxNodes - n)).length := by
          rw [length_take, length_table]
          omega
        obtain ⟨reads', hloop, hreads''⟩ := hL ⟨_, reads ++ (asn1ParseLen mem (cp + 1) (rem - 1)).reads⟩ _ idx
          (cp + T.label.total) (rem - T.label.total) depth k hlen (by omega) (by omega) (by omega)
        rw [← hrest] at hloop hreads''
        refine ⟨reads', ?_, ?_⟩
        · rw [hround, if_neg hzero, hloop, modify_append _ _ (by rw [length_modify]; omega),
            modify_modify_eq, addChildren_addChild, append_assoc]
        · intro i
          rw [hreads'', hreads', readBy_append, or_assoc]
    · rw [if_neg hacc] at hparse ⊢
      -- either the table is full, or the walk ends at this header as well
      obtain ⟨n', hn'⟩ : ∃ n', n' = n + ((T.table asn1Entry n).take (asn1MaxNodes - n)).length := ⟨_, rfl⟩
      have hdone : acceptedFrom n' rest = 0 ∧ (RoseTree.tables asn1Entry n' rest).take (asn1MaxNodes - n') = [] ∧
          (RoseTree.forest n' rest).take (asn1MaxNodes - n') = [] := by
        by_cases hfree : n < asn1MaxNodes
        · rw [if_neg (fun h => hacc ⟨hfree, h.1⟩)] at hrest
          rw [hrest, tables_nil, take_nil, RoseTree.forest_nil, take_nil]
          exact ⟨rfl, rfl, rfl⟩
        · rw [Nat.sub_eq_zero_of_le (show asn1MaxNodes ≤ n' by omega), take_zero, take_zero]
          exact ⟨acceptedFrom_of_full rest (by omega), rfl, rfl⟩
      rw [← hn', hdone.1, hdone.2.1, hdone.2.2, append_nil, append_nil, Nat.zero_add, addChildren_zero, modify_id]
      refine ⟨reads, ?_, hreads⟩
      rw [childLoop, if_neg (by omega), hparse]

/-- Both descriptions, by induction on the bound: each level and each round takes a node. -/
lemma walkSpecs (mem : Nat → UInt8) (fuel : Nat) : NodeSpec mem fuel ∧ LoopSpec mem fuel := by
  induction fuel with
  | zero =>
    refine ⟨?_, ?_⟩
    · intro t n p max depth _ hfuel
      exact absurd hfuel (by omega)
    · intro t n idx cp rem depth k _ _ _ hfuel
      exact absurd hfuel (by omega)
  | succ fuel ih => exact ⟨nodeSpec_succ ih.2, loopSpec_succ ih.1 ih.2⟩

end Refinement

/-- **The parser refines the walk.** It fills the table with the first 256 nodes of the walk,
accepts the root if its header fits, and reads the headers in the table and nothing else. -/
theorem asn1Parse_walk (mem : Nat → UInt8) (data len : Nat) :
    (len < 2 → asn1Parse mem data len = some (none, Asn1Tree.empty)) ∧
    (2 ≤ len → ∃ T reads, walk mem asn1MaxDepth data len = some T ∧
      asn1Parse mem data len = some (if T.label.fits then some 0 else none,
        ⟨(T.table asn1Entry 0).take asn1MaxNodes, reads⟩) ∧
      ∀ i, i ∈ reads ↔ ReadBy ((T.subtrees 0).take asn1MaxNodes) i) := by
  obtain ⟨hnone, hsome⟩ :=
    (walkSpecs mem (2 * asn1MaxNodes + 1)).1 Asn1Tree.empty 0 data len 0 rfl (Nat.le_refl _)
  refine ⟨fun hlen => hnone (walk_eq_none (Or.inr hlen)), fun hlen => ?_⟩
  obtain ⟨reads, hparse, hreads⟩ := hsome _ (walk_succ mem 15 data hlen)
  refine ⟨_, reads, walk_succ mem 15 data hlen, ?_, ?_⟩
  · unfold asn1Parse
    rw [hparse, if_congr (and_iff_right (by decide)) rfl rfl]
    rfl
  · intro i
    rw [hreads]
    exact or_iff_right not_mem_nil

end PigOS.Crypto
