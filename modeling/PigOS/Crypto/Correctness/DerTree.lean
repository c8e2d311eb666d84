import PigOS.Crypto.Correctness.Der

/-!
# `Crypto.Correctness.DerTree` — the table of a DER value

`DerFaithful` says that a table shows a value: every element in its slot, and `asn1_child` leads to
the components. A component that has components of its own moves the ones behind it away from where
`asn1_child` looks (`asn1Parse_faithful_iff`).
-/

namespace PigOS.Crypto

open PreOrder List
open RoseTree (label_node forest_cons subtrees_eq children_node forest_nil sizes_cons size_node getElem?_table)

variable {room pos : Nat} {ds : List Der} {P : Der → Prop} {L₁ L₂ D₁ D₂ : List (Nat × RoseTree Tlv)}

/-! ## Values as trees -/

mutual

/-- The headers of a value that starts at `pos`, with `room` bytes from there on. -/
def Der.tree : Der → Nat → Nat → RoseTree Tlv
  | .prim id content, pos, room => .node ((Der.prim id content).tlv pos room) []
  | .constr id items, pos, room =>
    .node ((Der.constr id items).tlv pos room)
      (itemTrees items (pos + (Der.constr id items).headerLen) (encodeItems items).length)

def itemTrees : List Der → Nat → Nat → List (RoseTree Tlv)
  | [], _, _ => []
  | d :: ds, pos, rem => d.tree pos rem :: itemTrees ds (pos + d.encode.length) (rem - d.encode.length)

end

mutual

/-- A value and all that is in it. -/
def Der.elements : Der → List Der
  | .prim id content => [.prim id content]
  | .constr id items => .constr id items :: elementsOf items

def elementsOf : List Der → List Der
  | [] => []
  | d :: ds => d.elements ++ elementsOf ds

end

mutual

/-- The nesting depth: zero without components. -/
def Der.depth : Der → Nat
  | .prim _ _ => 0
  | .constr _ items => depthOf items

def depthOf : List Der → Nat
  | [] => 0
  | d :: ds => max (d.depth + 1) (depthOf ds)

end

/-- The parser finds every header. -/
def Der.HeadersRead (d : Der) : Prop := ∀ e ∈ d.elements, e.HeaderReads

variable {d : Der}

namespace Der

lemma tree_eq (d : Der) (pos room : Nat) :
    d.tree pos room = .node (d.tlv pos room) (itemTrees d.items (pos + d.headerLen) d.content.length) := by
  cases d with
  | prim id content => rw [tree, items.eq_def, itemTrees]
  | constr id cs => rw [tree, items.eq_def, content.eq_def]

lemma elements_eq (d : Der) : d.elements = d :: elementsOf d.items := by
  cases d with
  | prim id content => rw [elements, items.eq_def, elementsOf]
  | constr id cs => rw [elements, items.eq_def]

lemma depth_eq (d : Der) : d.depth = depthOf d.items := by
  cases d with
  | prim id content => rw [depth, items.eq_def, depthOf]
  | constr id cs => rw [depth, items.eq_def]

mutual

/-- Induction over the components. -/
theorem induction (h : ∀ d : Der, (∀ c ∈ d.items, P c) → P d) : ∀ d, P d
  | .prim id content => h _ (fun c hc => absurd hc (by simp [items]))
  | .constr id items => h (.constr id items) (induction_items h items)

theorem induction_items (h : ∀ d : Der, (∀ c ∈ d.items, P c) → P d) : ∀ ds : List Der, ∀ d ∈ ds, P d
  | [] => fun d hd => absurd hd (by simp)
  | d :: ds => forall_mem_cons.mpr ⟨induction h d, induction_items h ds⟩

end

/-- Induction over a value together with the lists of components in it. -/
theorem list_induction {Q : List Der → Prop} (value : ∀ d : Der, Q d.items → P d) (nil : Q [])
    (cons : ∀ c cs, P c → Q cs → Q (c :: cs)) (d : Der) : P d := by
  induction d using induction with
  | h d ih =>
    apply value
    generalize d.items = ds at ih
    induction ds with
    | nil => exact nil
    | cons c cs ihcs =>
      rw [forall_mem_cons] at ih
      exact cons c cs ih.1 (ihcs ih.2)

lemma headersRead_iff (d : Der) : d.HeadersRead ↔ d.HeaderReads ∧ ∀ c ∈ d.items, c.HeadersRead := by
  have hitems : ∀ ds : List Der, (∀ e ∈ elementsOf ds, e.HeaderReads) ↔ ∀ c ∈ ds, c.HeadersRead := by
    intro ds
    induction ds with
    | nil => simp [elementsOf]
    | cons c ds ih => rw [elementsOf, forall_mem_append, forall_mem_cons, ih, HeadersRead]
  unfold HeadersRead at *
  rw [elements_eq, forall_mem_cons, hitems]

lemma depth_lt_of_mem {c : Der} (h : c ∈ d.items) : c.depth < d.depth := by
  have hitems : ∀ ds : List Der, c ∈ ds → c.depth + 1 ≤ depthOf ds := by
    intro ds
    induction ds with
    | nil => exact fun hc => absurd hc (by simp)
    | cons e ds ih =>
      intro hc
      rw [depthOf]
      rcases mem_cons.mp hc with rfl | hc
      · exact Nat.le_max_left _ _
      · exact Nat.le_trans (ih hc) (Nat.le_max_right _ _)
  rw [depth_eq d]
  exact hitems _ h

lemma encodeItems_items (h : d.items ≠ []) : encodeItems d.items = d.content := by
  cases d with
  | prim id content => exact absurd rfl h
  | constr id items => rfl

lemma label_tree (d : Der) (pos room : Nat) : (d.tree pos room).label = d.tlv pos room := by
  rw [tree_eq, label_node]

lemma val_tlv (d : Der) (pos room : Nat) : (d.tlv pos room).val = pos + d.headerLen := by
  show pos + 1 + d.headerRest.length = pos + (1 + d.headerRest.length)
  rw [Nat.add_assoc]

lemma total_tlv (pos room : Nat) (hlen : d.encode.length < 2 ^ 32) :
    (d.tlv pos room).total = d.encode.length := by
  unfold Tlv.total
  rw [size_tlv, Nat.mod_eq_of_lt hlen]

lemma opens_tlv (pos : Nat) (hlen : d.encode.length < 2 ^ 32) (hroom : d.encode.length ≤ room) :
    (d.tlv pos room).fits = true ∧ ((d.tlv pos room).opens = true ↔ d.items ≠ []) := by
  have hfits : (d.tlv pos room).fits = true := by
    unfold Tlv.fits
    rw [total_tlv pos room hlen]
    exact decide_eq_true hroom
  refine ⟨hfits, ?_⟩
  unfold Tlv.opens
  rw [hfits, Bool.true_and, Bool.and_eq_true, decide_eq_true_eq, decide_eq_true_eq]
  have hform := d.lead_constructed
  show (d.lead &&& 0x20 ≠ 0 ∧ 0 < d.content.length) ↔ _
  rw [hform]
  cases d with
  | prim id content => simp [constructed, items]
  | constr id items =>
    cases items with
    | nil => simp [content, Der.items, encodeItems]
    | cons c cs =>
      have hpos := c.two_le_length_encode
      simp only [constructed, content, Der.items, encodeItems, length_append, true_and]
      refine iff_of_true ?_ (by simp)
      omega

end Der

/-! ## The walk of a value -/

section Walk

variable {mem : Nat → UInt8} {levels : Nat}

lemma Holds.content (h : Holds mem pos d.encode) : Holds mem (pos + d.headerLen) d.content := by
  rw [Der.encode_eq, ← cons_append] at h
  have hright := h.append.2
  rwa [length_cons, Nat.add_comm _ 1] at hright

/-- A value at some place in the buffer, with room for it and levels for its depth. -/
structure At (mem : Nat → UInt8) (d : Der) (levels pos room : Nat) : Prop where
  holds : Holds mem pos d.encode
  fits : d.encode.length ≤ room
  small : d.encode.length < 2 ^ 32
  depth : d.depth < levels

/-- Components one after the other, which fill their room. -/
structure ItemsAt (mem : Nat → UInt8) (ds : List Der) (levels pos : Nat) : Prop where
  holds : Holds mem pos (encodeItems ds)
  small : (encodeItems ds).length < 2 ^ 32
  depth : ∀ d ∈ ds, d.depth < levels

lemma At.items (h : At mem d (levels + 1) pos room) : ItemsAt mem d.items levels (pos + d.headerLen) := by
  have hdepth : ∀ c ∈ d.items, c.depth < levels := by
    intro c hc
    have h1 := Der.depth_lt_of_mem hc
    have h2 := h.depth
    omega
  by_cases hne : d.items = []
  · rw [hne] at hdepth ⊢
    refine ⟨?_, ?_, hdepth⟩
    · intro i hi
      rw [encodeItems] at hi
      exact absurd hi (Nat.not_lt_zero i)
    · rw [encodeItems]
      decide
  · have hlen := d.length_encode
    have hsmall := h.small
    refine ⟨?_, ?_, hdepth⟩
    · rw [Der.encodeItems_items hne]
      exact h.holds.content
    · rw [Der.encodeItems_items hne]
      omega

lemma ItemsAt.cons {ds : List Der} {levels pos : Nat} (h : ItemsAt mem (d :: ds) levels pos) :
    At mem d levels pos (encodeItems (d :: ds)).length ∧ ItemsAt mem ds levels (pos + d.encode.length) := by
  obtain ⟨hholds, hsmall, hdepth⟩ := h
  rw [encodeItems] at hholds hsmall ⊢
  rw [length_append] at hsmall ⊢
  rw [forall_mem_cons] at hdepth
  exact ⟨⟨hholds.append.1, by omega, by omega, hdepth.1⟩, ⟨hholds.append.2, by omega, hdepth.2⟩⟩

lemma walkItems_der
    (hds : ∀ d ∈ ds, ∀ pos room, At mem d levels pos room → walk mem levels pos room = some (d.tree pos room))
    {k : Nat} (hk : (encodeItems ds).length ≤ k) (h : ItemsAt mem ds levels pos) :
    walkItems (walk mem levels) k pos (encodeItems ds).length = itemTrees ds pos (encodeItems ds).length := by
  induction ds generalizing k pos with
  | nil =>
    rw [encodeItems, itemTrees]
    exact walkItems_none _ _ _ _ (walk_eq_none (Or.inr (by decide)))
  | cons d ds ih =>
    rw [forall_mem_cons] at hds
    obtain ⟨hd, hrest⟩ := h.cons
    have hpos := d.two_le_length_encode
    have hlen : (encodeItems (d :: ds)).length = d.encode.length + (encodeItems ds).length := by
      rw [encodeItems, length_append]
    obtain ⟨k, rfl⟩ : ∃ k', k = k' + 1 := ⟨k - 1, by omega⟩
    have hsub : (encodeItems (d :: ds)).length - d.encode.length = (encodeItems ds).length := by omega
    rw [walkItems_succ _ _ _ _ (hds.1 pos _ hd), Der.label_tree, Der.total_tlv pos _ hd.small,
      if_pos ⟨(Der.opens_tlv pos hd.small hd.fits).1, by omega⟩, hsub, ih hds.2 (by omega) hrest, itemTrees, hsub]

/-- **The walk of a value.** It finds the headers of the value, if it finds each of them. -/
theorem walk_der (d : Der) : ∀ levels pos room, At mem d levels pos room → d.HeadersRead →
    walk mem levels pos room = some (d.tree pos room) := by
  induction d using Der.induction with
  | h d ih =>
    intro levels pos room h hread
    rw [Der.headersRead_iff] at hread
    obtain ⟨hhead, hitems⟩ := hread
    obtain ⟨levels, rfl⟩ : ∃ l, levels = l + 1 := ⟨levels - 1, by have := h.depth; omega⟩
    have hroom : 2 ≤ room := Nat.le_trans d.two_le_length_encode h.fits
    have hopens := (Der.opens_tlv pos h.small h.fits).2
    rw [walk_succ mem levels pos hroom, Der.tlvAt_of_headerReads h.holds h.fits hhead, Der.tree_eq]
    by_cases hne : d.items = []
    · rw [if_neg (fun ho => hopens.mp ho hne), hne, itemTrees]
    · have hcontent := Der.encodeItems_items hne
      rw [if_pos (hopens.mpr hne)]
      have hwalk := walkItems_der (fun c hc pos room hc' => ih c hc _ pos room hc' (hitems c hc))
        (Nat.le_refl _) h.items
      rw [hcontent] at hwalk
      rw [Der.val_tlv, ← hwalk]
      rfl

/-! ## Where the walk goes wrong

If the parser misses a header, the first one that it misses is met in its place, and the node in its
slot has another length or another content. -/

/-- Two pre-orders show the same contents as far as both of them go. -/
def Agree (L D : List (Nat × RoseTree Tlv)) : Prop :=
  ∀ (i : Nat) (a b : Nat × RoseTree Tlv), L[i]? = some a → D[i]? = some b →
    a.2.label.len = b.2.label.len ∧ a.2.label.val = b.2.label.val

lemma Agree.left (h : Agree (L₁ ++ L₂) (D₁ ++ D₂)) : Agree L₁ D₁ := by
  intro i a b ha hb
  obtain ⟨hi, -⟩ := List.getElem?_eq_some_iff.mp ha
  obtain ⟨hj, -⟩ := List.getElem?_eq_some_iff.mp hb
  exact h i a b (by rw [getElem?_append_left hi, ha]) (by rw [getElem?_append_left hj, hb])

lemma Agree.right (h : Agree (L₁ ++ L₂) (D₁ ++ D₂)) (hlen : L₁.length = D₁.length) : Agree L₂ D₂ := by
  intro i a b ha hb
  refine h (L₁.length + i) a b ?_ ?_
  · rw [getElem?_append_right (by omega), Nat.add_sub_cancel_left, ha]
  · rw [getElem?_append_right (by omega), hlen, Nat.add_sub_cancel_left, hb]

lemma Agree.cons {a b : Nat × RoseTree Tlv} {L D : List (Nat × RoseTree Tlv)} (h : Agree (a :: L) (b :: D)) :
    (a.2.label.len = b.2.label.len ∧ a.2.label.val = b.2.label.val) ∧ Agree L D := by
  refine ⟨h 0 a b rfl rfl, ?_⟩
  intro i c e hc he
  exact h (i + 1) c e (by rw [getElem?_cons_succ, hc]) (by rw [getElem?_cons_succ, he])

lemma At.walk_isSome (h : At mem d levels pos room) : ∃ T, walk mem levels pos room = some T := by
  obtain ⟨levels, rfl⟩ : ∃ l, levels = l + 1 := ⟨levels - 1, by have := h.depth; omega⟩
  exact ⟨_, walk_succ mem levels pos (Nat.le_trans d.two_le_length_encode h.fits)⟩

lemma headersRead_items (hds : ∀ d ∈ ds, ∀ pos room x T, At mem d levels pos room → walk mem levels pos room = some T →
      Agree (T.subtrees x) ((d.tree pos room).subtrees x) → d.HeadersRead)
    {k x : Nat} (hk : (encodeItems ds).length ≤ k) (h : ItemsAt mem ds levels pos)
    (hagree : Agree (RoseTree.forest x (walkItems (walk mem levels) k pos (encodeItems ds).length))
      (RoseTree.forest x (itemTrees ds pos (encodeItems ds).length))) : ∀ d ∈ ds, d.HeadersRead := by
  induction ds generalizing k pos x with
  | nil => exact fun d hd => absurd hd (by simp)
  | cons d ds ih =>
    rw [forall_mem_cons] at hds
    obtain ⟨hd, hrest⟩ := h.cons
    have hpos := d.two_le_length_encode
    have hlen : (encodeItems (d :: ds)).length = d.encode.length + (encodeItems ds).length := by
      rw [encodeItems, length_append]
    have hsub : (encodeItems (d :: ds)).length - d.encode.length = (encodeItems ds).length := by omega
    obtain ⟨k, rfl⟩ : ∃ k', k = k' + 1 := ⟨k - 1, by omega⟩
    obtain ⟨T, hT⟩ := hd.walk_isSome
    rw [walkItems_succ _ _ _ _ hT, itemTrees, forest_cons, forest_cons] at hagree
    have hread := hds.1 pos _ x T hd hT hagree.left
    -- the first component is found, so the walk goes on behind it
    rw [walk_der d levels pos _ hd hread, Option.some.injEq] at hT
    rw [← hT] at hagree
    have hnext := hagree.right rfl
    rw [Der.label_tree, Der.total_tlv pos _ hd.small, if_pos ⟨(Der.opens_tlv pos hd.small hd.fits).1, by omega⟩,
      hsub] at hnext
    exact forall_mem_cons.mpr ⟨hread, ih hds.2 (by omega) hrest hnext⟩

lemma headersRead_of_agree (d : Der) : ∀ levels pos room x T, At mem d levels pos room →
    walk mem levels pos room = some T → Agree (T.subtrees x) ((d.tree pos room).subtrees x) → d.HeadersRead := by
  induction d using Der.induction with
  | h d ih =>
    intro levels pos room x T h hT hagree
    obtain ⟨levels, rfl⟩ : ∃ l, levels = l + 1 := ⟨levels - 1, by have := h.depth; omega⟩
    have hroom : 2 ≤ room := Nat.le_trans d.two_le_length_encode h.fits
    rw [walk_succ mem levels pos hroom, Option.some.injEq] at hT
    rw [subtrees_eq x T, subtrees_eq x (d.tree pos room)] at hagree
    obtain ⟨⟨hlen, hval⟩, hbelow⟩ := hagree.cons
    rw [← hT, Der.label_tree, label_node] at hlen hval
    have hlc : (tlvAt mem pos room).lc = d.headerRest.length := by
      have : pos + 1 + (tlvAt mem pos room).lc = pos + 1 + d.headerRest.length := hval
      omega
    have hhead := (Der.tlvAt_eq_iff h.holds h.fits).mp ⟨hlen, hlc⟩
    rw [Der.headersRead_iff]
    refine ⟨hhead, ?_⟩
    by_cases hne : d.items = []
    · rw [hne]
      exact fun c hc => absurd hc (by simp)
    · have hcontent := Der.encodeItems_items hne
      have hopens := (Der.opens_tlv pos h.small h.fits).2.mpr hne
      rw [← hT, children_node, Der.tlvAt_of_headerReads h.holds h.fits hhead, if_pos hopens, Der.val_tlv,
        Der.tree_eq, children_node] at hbelow
      rw [← hcontent] at hbelow
      refine headersRead_items (fun c hc pos room x T => ih c hc levels pos room x T)
        (Nat.le_refl _) h.items (x := x + 1) ?_
      have hlen' : (d.tlv pos room).len = (encodeItems d.items).length := by
        rw [hcontent]
        rfl
      rw [hlen'] at hbelow
      exact hbelow

end Walk

/-! ## The table of a value -/

lemma length_itemTrees (ds : List Der) (pos rem : Nat) : (itemTrees ds pos rem).length = ds.length := by
  induction ds generalizing pos rem with
  | nil => rw [itemTrees]; rfl
  | cons d ds ih => rw [itemTrees, length_cons, length_cons, ih]

lemma fits_itemTrees {rem : Nat} (hrem : (encodeItems ds).length ≤ rem)
    (hsmall : (encodeItems ds).length < 2 ^ 32) : ∀ c ∈ itemTrees ds pos rem, c.label.fits = true := by
  induction ds generalizing pos rem with
  | nil =>
    rw [itemTrees]
    exact fun c hc => absurd hc (by simp)
  | cons d ds ih =>
    rw [encodeItems, length_append] at hrem hsmall
    rw [itemTrees, forall_mem_cons, Der.label_tree]
    exact ⟨(Der.opens_tlv pos (by omega) (by omega)).1, ih (by omega) (by omega)⟩

lemma mem_subtrees_tree (d : Der) : ∀ pos room x (q : Nat × RoseTree Tlv), d.encode.length ≤ room →
    d.encode.length < 2 ^ 32 → q ∈ (d.tree pos room).subtrees x →
    ∃ e p r, q.2 = Der.tree e p r ∧ e.encode.length ≤ r ∧ e.encode.length < 2 ^ 32 := by
  induction d using Der.list_induction (Q := fun ds => ∀ pos rem x (q : Nat × RoseTree Tlv),
    (encodeItems ds).length ≤ rem →
    (encodeItems ds).length < 2 ^ 32 → q ∈ RoseTree.forest x (itemTrees ds pos rem) →
    ∃ e p r, q.2 = Der.tree e p r ∧ e.encode.length ≤ r ∧ e.encode.length < 2 ^ 32) with
  | value d ih =>
    intro pos room x q hroom hsmall hq
    rw [subtrees_eq, mem_cons] at hq
    rcases hq with rfl | hq
    · exact ⟨d, pos, room, rfl, hroom, hsmall⟩
    · rw [Der.tree_eq, children_node] at hq
      by_cases hne : d.items = []
      · rw [hne, itemTrees, forest_nil] at hq
        exact absurd hq (by simp)
      · have hcontent := Der.encodeItems_items hne
        have hlen := d.length_encode
        rw [← hcontent] at hq hlen
        exact ih _ _ _ _ (Nat.le_refl _) (by omega) hq
  | nil pos rem x q _ _ hq =>
    rw [itemTrees, forest_nil] at hq
    exact absurd hq (by simp)
  | cons c cs ih ihcs pos rem x q hrem hsmall hq =>
    rw [encodeItems, length_append] at hrem hsmall
    rw [itemTrees, forest_cons, mem_append] at hq
    rcases hq with hq | hq
    · exact ih _ _ _ _ (by omega) (by omega) hq
    · exact ihcs _ _ _ _ (by omega) (by omega) hq

lemma acceptedFrom_eq_length {cs : List (RoseTree Tlv)} {n : Nat} (hfits : ∀ c ∈ cs, c.label.fits = true)
    (hroom : n + RoseTree.sizes cs ≤ asn1MaxNodes) : acceptedFrom n cs = cs.length := by
  induction cs generalizing n with
  | nil => rfl
  | cons c cs ih =>
    have hpos := c.size_pos
    rw [forall_mem_cons] at hfits
    rw [sizes_cons] at hroom
    rw [acceptedFrom, if_pos ⟨by omega, hfits.1⟩, ih hfits.2 (by omega), length_cons, Nat.add_comm]

/-- What holds of all parts of a tree, in terms of the elements of the value. -/
lemma forall_subtrees_tree {S : RoseTree Tlv → Prop} {S' : Der → Prop} (h : ∀ e p r, S (Der.tree e p r) ↔ S' e)
    (d : Der) : ∀ pos room x, (∀ q ∈ (d.tree pos room).subtrees x, S q.2) ↔ ∀ e ∈ d.elements, S' e := by
  induction d using Der.list_induction (Q := fun ds => ∀ pos rem x,
    (∀ q ∈ RoseTree.forest x (itemTrees ds pos rem), S q.2) ↔ ∀ e ∈ elementsOf ds, S' e) with
  | value d ih =>
    intro pos room x
    rw [subtrees_eq, Der.elements_eq, forall_mem_cons, forall_mem_cons, h, Der.tree_eq, children_node, ih]
  | nil =>
    rw [itemTrees, forest_nil, elementsOf]
    simp
  | cons c cs ih ihcs =>
    rw [itemTrees, forest_cons, elementsOf, forall_mem_append, forall_mem_append, ih, ihcs]

lemma Der.children_tree (d : Der) (pos room : Nat) : (d.tree pos room).children = [] ↔ d.items = [] := by
  rw [tree_eq, children_node, ← length_eq_zero_iff, length_itemTrees, length_eq_zero_iff]

lemma dropLast_itemTrees (ds : List Der) (pos rem : Nat) :
    (∀ c ∈ (itemTrees ds pos rem).dropLast, c.children = []) ↔ ∀ c ∈ ds.dropLast, c.items = [] := by
  induction ds generalizing pos rem with
  | nil => rw [itemTrees]; simp
  | cons d ds ih =>
    cases ds with
    | nil => rw [itemTrees, itemTrees]; simp
    | cons e ds =>
      have hih := ih (pos + d.encode.length) (rem - d.encode.length)
      rw [itemTrees] at hih
      rw [itemTrees, itemTrees, dropLast_cons_cons, dropLast_cons_cons, forall_mem_cons,
        forall_mem_cons, hih, d.children_tree]

/-! ## Faithfulness -/

/-- Every element has its tag, length and content in its slot, and `asn1_child` leads to its
components. -/
def DerFaithful (t : Asn1Tree) (d : Der) : Prop :=
  ∀ q ∈ (d.tree 0 d.encode.length).subtrees 0, ∃ n, t.nodes[q.1]? = some n ∧
    n.tag = q.2.label.tag ∧ n.len = q.2.label.len ∧ n.val = q.2.label.val ∧
    (n.tag &&& 0x20 ≠ 0 → n.children = q.2.children.length ∧
      ∀ i < n.children, asn1Child n i = some (q.1 + 1 + RoseTree.offset q.2.children i))

/-- The parser finds every header, and only last components have components of their own. -/
def DerWalkable (d : Der) : Prop :=
  ∀ e ∈ d.elements, e.HeaderReads ∧ ∀ c ∈ e.items.dropLast, c.items = []

lemma asn1Child_entry {y i : Nat} {s : RoseTree Tlv} (hopens : s.label.opens = true)
    (hi : i < (asn1Entry (y, s)).children) : asn1Child (asn1Entry (y, s)) i = some (y + 1 + i) := by
  have hstart : (asn1Entry (y, s)).childStart = y + 1 := if_pos hopens
  unfold asn1Child
  rw [if_neg (by omega), hstart, Int.toNat_natCast]

lemma entry_faithful_iff (hsmall : d.encode.length < 2 ^ 32) {q : Nat × RoseTree Tlv}
    (hq : q ∈ (d.tree 0 d.encode.length).subtrees 0) (hsize : (d.tree 0 d.encode.length).size ≤ asn1MaxNodes) :
    ((asn1Entry q).tag &&& 0x20 ≠ 0 → (asn1Entry q).children = q.2.children.length ∧
      ∀ i < (asn1Entry q).children, asn1Child (asn1Entry q) i = some (q.1 + 1 + RoseTree.offset q.2.children i)) ↔
    ∀ c ∈ q.2.children.dropLast, c.children = [] := by
  obtain ⟨y, s⟩ := q
  obtain ⟨e, p, r, rfl, hr, hesmall⟩ := mem_subtrees_tree d 0 _ 0 _ (Nat.le_refl _) hsmall hq
  have hslot := RoseTree.slot_add_size_le hq
  by_cases hne : e.items = []
  · have hleaf := (e.children_tree p r).mpr hne
    have hzero : (asn1Entry (y, e.tree p r)).children = 0 := by
      show acceptedFrom (y + 1) (e.tree p r).children = 0
      rw [hleaf]
      rfl
    simp only [hleaf, hzero, length_nil, Nat.not_lt_zero, false_implies, implies_true, and_self,
      dropLast_nil, not_mem_nil]
  · have hopens : (e.tree p r).label.opens = true := by
      rw [e.label_tree]
      exact (Der.opens_tlv p hesmall hr).2.mpr hne
    have hcount : (asn1Entry (y, e.tree p r)).children = (e.tree p r).children.length := by
      show acceptedFrom (y + 1) (e.tree p r).children = _
      refine acceptedFrom_eq_length ?_ ?_
      · have hlen := e.length_encode
        rw [e.tree_eq, children_node, ← Der.encodeItems_items hne]
        refine fits_itemTrees (Nat.le_refl _) ?_
        rw [Der.encodeItems_items hne]
        omega
      · have hnode : (e.tree p r).size = 1 + RoseTree.sizes (e.tree p r).children := by
          rw [e.tree_eq, size_node, children_node]
        omega
    have htag : (asn1Entry (y, e.tree p r)).tag &&& 0x20 ≠ 0 := by
      unfold Tlv.opens at hopens
      simp only [Bool.and_eq_true, decide_eq_true_eq] at hopens
      exact hopens.1.2
    rw [← RoseTree.offsets_eq_iff, hcount]
    constructor
    · intro h i hi
      have hchild := (h htag).2 i hi
      rw [asn1Child_entry hopens (by rw [hcount]; exact hi), Option.some.injEq] at hchild
      omega
    · intro hoff _
      refine ⟨rfl, fun i hi => ?_⟩
      rw [asn1Child_entry hopens (by rw [hcount]; exact hi), hoff i hi]

lemma Der.size_tree (d : Der) : ∀ pos room, (d.tree pos room).size = d.elements.length := by
  induction d using Der.list_induction (Q := fun ds => ∀ pos rem,
    RoseTree.sizes (itemTrees ds pos rem) = (elementsOf ds).length) with
  | value d ih =>
    intro pos room
    rw [tree_eq, size_node, elements_eq, length_cons, ih, Nat.add_comm]
  | nil =>
    rw [itemTrees, elementsOf]
    exact RoseTree.sizes_nil
  | cons c cs ih ihcs =>
    rw [itemTrees, sizes_cons, elementsOf, length_append, ih, ihcs]

section Parse

variable {mem : Nat → UInt8} {d : Der}

lemma asn1Parse_der {data : Nat} (h : At mem d asn1MaxDepth data d.encode.length)
    (hsize : d.elements.length ≤ asn1MaxNodes) (hread : d.HeadersRead) : ∃ reads, asn1Parse mem data d.encode.length =
        some (some 0, ⟨(d.tree data d.encode.length).table asn1Entry 0, reads⟩) := by
  obtain ⟨T, reads, hT, hparse, -⟩ := (asn1Parse_walk mem data d.encode.length).2 d.two_le_length_encode
  rw [walk_der d _ _ _ h hread, Option.some.injEq] at hT
  rw [← hT, d.label_tree, if_pos (Der.opens_tlv data h.small h.fits).1, take_of_length_le] at hparse
  · exact ⟨reads, hparse⟩
  · rw [RoseTree.length_table, d.size_tree]
    exact hsize

lemma headersRead_of_faithful (h : At mem d asn1MaxDepth 0 d.encode.length)
    (hsize : d.elements.length ≤ asn1MaxNodes) {r : Option Nat} {t : Asn1Tree}
    (hparse : asn1Parse mem 0 d.encode.length = some (r, t)) (hfaithful : DerFaithful t d) : d.HeadersRead := by
  obtain ⟨T, reads, hT, hparse', -⟩ := (asn1Parse_walk mem 0 d.encode.length).2 d.two_le_length_encode
  rw [hparse, Option.some.injEq, Prod.mk.injEq] at hparse'
  refine headersRead_of_agree d _ _ _ 0 T h hT ?_
  intro i a b ha hb
  have hslot : b.1 = i := by
    have := RoseTree.getElem?_subtrees 0 (d.tree 0 d.encode.length) hb
    omega
  have hi : i < asn1MaxNodes := by
    obtain ⟨hlt, -⟩ := List.getElem?_eq_some_iff.mp hb
    rw [RoseTree.length_subtrees, d.size_tree] at hlt
    omega
  obtain ⟨n, hn, -, hlen, hval, -⟩ := hfaithful b (mem_of_getElem? hb)
  have hentry : t.nodes[i]? = some (asn1Entry a) := by
    rw [hparse'.2]
    unfold RoseTree.table
    rw [getElem?_take_of_lt hi, getElem?_map, ha, Option.map_some]
  rw [hslot, hentry, Option.some.injEq] at hn
  rw [← hlen, ← hval, ← hn]
  exact ⟨rfl, rfl⟩

/-- **Which values `asn1_parse` shows.** `asn1_child` leads to the components of each element
exactly when the parser finds every header and only last components have components of their own. -/
theorem asn1Parse_faithful_iff (hmem : Holds mem 0 d.encode) (hlen : d.encode.length < 2 ^ 32)
    (hsize : d.elements.length ≤ asn1MaxNodes) (hdepth : d.depth < asn1MaxDepth) :
    (∃ t, asn1Parse mem 0 d.encode.length = some (some 0, t) ∧ DerFaithful t d) ↔ DerWalkable d := by
  have hat : At mem d asn1MaxDepth 0 d.encode.length := ⟨hmem, Nat.le_refl _, hlen, hdepth⟩
  have hleaves : (∀ q ∈ (d.tree 0 d.encode.length).subtrees 0, ∀ c ∈ q.2.children.dropLast, c.children = []) ↔
      ∀ e ∈ d.elements, ∀ c ∈ e.items.dropLast, c.items = [] := by
    refine forall_subtrees_tree (S := fun s => ∀ c ∈ s.children.dropLast, c.children = []) ?_ d 0 _ 0
    intro e p r
    rw [e.tree_eq, children_node]
    exact dropLast_itemTrees _ _ _
  have htree : (d.tree 0 d.encode.length).size ≤ asn1MaxNodes := by
    rw [d.size_tree]
    exact hsize
  unfold DerWalkable
  constructor
  · rintro ⟨t, hparse, hfaithful⟩
    have hread := headersRead_of_faithful hat hsize hparse hfaithful
    obtain ⟨reads, hparse'⟩ := asn1Parse_der hat hsize hread
    rw [hparse, Option.some.injEq, Prod.mk.injEq] at hparse'
    refine fun e he => ⟨hread e he, hleaves.mp ?_ e he⟩
    intro q hq
    obtain ⟨n, hn, -, -, -, hchildren⟩ := hfaithful q hq
    have hentry : t.nodes[q.1]? = some (asn1Entry q) := by
      rw [hparse'.2]
      exact getElem?_table asn1Entry hq
    rw [hentry, Option.some.injEq] at hn
    rw [← hn] at hchildren
    exact (entry_faithful_iff hlen hq htree).mp hchildren
  · intro hwalk
    obtain ⟨reads, hparse⟩ := asn1Parse_der hat hsize (fun e he => (hwalk e he).1)
    refine ⟨_, hparse, ?_⟩
    intro q hq
    have hleaf := hleaves.mpr (fun e he => (hwalk e he).2) q hq
    exact ⟨asn1Entry q, getElem?_table asn1Entry hq, rfl, rfl, rfl,
      (entry_faithful_iff hlen hq htree).mpr hleaf⟩

end Parse

/-- A SEQUENCE of the INTEGER 5 and a SEQUENCE of the INTEGER 1. -/
theorem asn1Parse_faithful_last :
    let d : Der := .constr ⟨0, 16⟩ [.prim ⟨0, 2⟩ [5], .constr ⟨0, 16⟩ [.prim ⟨0, 2⟩ [1]]]
    DerWalkable d ∧ ∃ t, asn1Parse (asBuffer d.encode) 0 d.encode.length = some (some 0, t) ∧ DerFaithful t d := by
  intro d
  have hwalk : DerWalkable d := by
    unfold DerWalkable Der.HeaderReads
    decide +kernel
  have hmem : Holds (asBuffer d.encode) 0 d.encode := by
    intro i _
    rw [Nat.zero_add]
  exact ⟨hwalk, (asn1Parse_faithful_iff hmem (by decide +kernel) (by decide +kernel) (by decide +kernel)).mpr hwalk⟩

/-- A SEQUENCE of a SEQUENCE of the INTEGER 1 and the INTEGER 2: component 1 is taken to be in slot
2, which is the INTEGER 1. -/
theorem asn1Parse_nested_first :
    let d : Der := .constr ⟨0, 16⟩ [.constr ⟨0, 16⟩ [.prim ⟨0, 2⟩ [1]], .prim ⟨0, 2⟩ [2]]
    d.encode = [0x30, 0x08, 0x30, 0x03, 0x02, 0x01, 0x01, 0x02, 0x01, 0x02] ∧
    (asn1Parse (asBuffer d.encode) 0 10).map
      (fun r => (r.1, (r.2.node 0).children, asn1Child (r.2.node 0) 1, (r.2.node 2).val, (r.2.node 3).val)) =
      some (some 0, 2, some 2, 6, 9) := by
  intro d
  exact ⟨by decide +kernel, by decide +kernel⟩

end PigOS.Crypto
