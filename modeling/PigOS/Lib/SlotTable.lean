import Mathlib.Data.Finmap

/-!
# `Lib.SlotTable` — a fixed table of slots against a finite map

A new name takes the next slot while there is one, and removing a name *blanks* its slot, which
stays in use. `Represents` says that the table stands for a finite map of at most `cap` names; the
operations keep it, `put` as long as the slots in use are not fewer names. Where that fails, the
name is lost at once (`Represents.get_put_lost`).
-/

namespace SlotTable

open List

variable {κ ν : Type*} [DecidableEq κ]

def get (t : List (κ × ν)) (n : κ) : Option ν := (t.find? (fun s => s.1 = n)).map Prod.snd

/-- Write the slot with a name, or a new one while there are fewer than `cap`. -/
def put (cap : Nat) (t : List (κ × ν)) (n : κ) (v : ν) : List (κ × ν) :=
  match t.findIdx? (fun s => s.1 = n) with
  | some i => t.modify i (fun s => (s.1, v))
  | none => if t.length < cap then t ++ [(n, v)] else t

/-- Blank the first slot with a name. -/
def clearFirst (b : κ × ν) (t : List (κ × ν)) (n : κ) : List (κ × ν) :=
  match t.findIdx? (fun s => s.1 = n) with
  | some i => t.modify i (fun _ => b)
  | none => t

/-- Blank every slot with a name. -/
def clearAll (b : κ × ν) (t : List (κ × ν)) (n : κ) : List (κ × ν) := t.map (fun s => if s.1 = n then b else s)

/-- The names in a table, slot by slot. -/
def names (t : List (κ × ν)) : List κ := t.map Prod.fst

/-! ## The first slot with a name -/

omit [DecidableEq κ] in
@[simp] lemma names_append (l r : List (κ × ν)) : names (l ++ r) = names l ++ names r := map_append

omit [DecidableEq κ] in
@[simp] lemma names_cons (s : κ × ν) (t : List (κ × ν)) : names (s :: t) = s.1 :: names t := rfl

lemma exists_split {t : List (κ × ν)} {n : κ} (h : n ∈ names t) : ∃ l w r, t = l ++ (n, w) :: r ∧ n ∉ names l := by
  induction t with
  | nil => exact absurd h not_mem_nil
  | cons s t ih =>
    by_cases hs : s.1 = n
    · exact ⟨[], s.2, t, by rw [← hs]; rfl, not_mem_nil⟩
    · obtain ⟨l, w, r, rfl, hl⟩ := ih ((mem_cons.mp h).resolve_left (fun heq => hs heq.symm))
      refine ⟨s :: l, w, r, rfl, ?_⟩
      rw [names_cons, mem_cons, not_or]
      exact ⟨fun heq => hs heq.symm, hl⟩

section Split

variable {l r t : List (κ × ν)} {n : κ} {v w : ν}

lemma find?_eq_none_of_not_mem (h : n ∉ names t) : t.find? (fun s => s.1 = n) = none := by
  rw [find?_eq_none]
  intro s hs
  simpa using fun heq : s.1 = n => h (heq ▸ mem_map_of_mem hs)

lemma findIdx?_eq_none_of_not_mem (h : n ∉ names t) : t.findIdx? (fun s => s.1 = n) = none := by
  rw [findIdx?_eq_none_iff]
  intro s hs
  simpa using fun heq : s.1 = n => h (heq ▸ mem_map_of_mem hs)

lemma findIdx?_split (h : n ∉ names l) : (l ++ (n, w) :: r).findIdx? (fun s => s.1 = n) = some l.length := by
  rw [findIdx?_append, findIdx?_eq_none_of_not_mem h, findIdx?_cons]
  simp

omit [DecidableEq κ] in
lemma modify_split (s : κ × ν) (f : κ × ν → κ × ν) : (l ++ s :: r).modify l.length f = l ++ f s :: r := by
  induction l with
  | nil => rfl
  | cons x l ih => rw [cons_append, length_cons, modify_succ_cons, ih, cons_append]

lemma get_eq_none_iff : get t n = none ↔ n ∉ names t := by
  constructor
  · intro h hmem
    obtain ⟨l, w, r, rfl, hl⟩ := exists_split hmem
    rw [get, find?_append, find?_eq_none_of_not_mem hl, Option.none_or, find?_cons_of_pos (by simp)] at h
    exact absurd h (by simp)
  · intro h
    rw [get, find?_eq_none_of_not_mem h]
    rfl

lemma get_split (h : n ∉ names l) : get (l ++ (n, v) :: r) n = some v := by
  rw [get, find?_append, find?_eq_none_of_not_mem h, Option.none_or, find?_cons_of_pos (by simp)]
  rfl

/-- A slot that has another name before and after does not matter. -/
lemma get_split_of_ne {s s' : κ × ν} (h : s.1 ≠ n) (h' : s'.1 ≠ n) : get (l ++ s :: r) n = get (l ++ s' :: r) n := by
  rw [get, get, find?_append, find?_append, find?_cons_of_neg (by simpa using h),
    find?_cons_of_neg (by simpa using h')]

lemma get_append_singleton (s : κ × ν) (h : s.1 ≠ n) : get (t ++ [s]) n = get t n := by
  rw [get, get, find?_append, find?_cons_of_neg (by simpa using h), find?_nil, Option.or_none]

lemma put_split (cap : Nat) (h : n ∉ names l) : put cap (l ++ (n, w) :: r) n v = l ++ (n, v) :: r := by
  rw [put, findIdx?_split h]
  exact modify_split (n, w) _

lemma put_of_not_mem (cap : Nat) (h : n ∉ names t) : put cap t n v = if t.length < cap then t ++ [(n, v)] else t := by
  rw [put, findIdx?_eq_none_of_not_mem h]

/-- Two values leave the same table only if they are equal, or the name is new and the table
full. -/
lemma put_eq_put_iff (cap : Nat) : put cap t n v = put cap t n w ↔ v = w ∨ get t n = none ∧ cap ≤ t.length := by
  rw [get_eq_none_iff]
  by_cases h : n ∈ names t
  · obtain ⟨l, u, r, rfl, hl⟩ := exists_split h
    rw [put_split cap hl, put_split cap hl, append_cancel_left_eq]
    simp
  · rw [put_of_not_mem cap h, put_of_not_mem cap h]
    by_cases hroom : t.length < cap
    · rw [if_pos hroom, if_pos hroom, append_cancel_left_eq]
      simp [Nat.not_le.mpr hroom]
    · rw [if_neg hroom, if_neg hroom]
      simp [h, Nat.not_lt.mp hroom]

lemma clearFirst_split (b : κ × ν) (h : n ∉ names l) : clearFirst b (l ++ (n, w) :: r) n = l ++ b :: r := by
  rw [clearFirst, findIdx?_split h]
  exact modify_split (n, w) _

lemma clearFirst_of_not_mem (b : κ × ν) (h : n ∉ names t) : clearFirst b t n = t := by
  rw [clearFirst, findIdx?_eq_none_of_not_mem h]

/-- An assignment leaves the other names alone. -/
lemma get_put_of_ne (cap : Nat) {k : κ} (hk : k ≠ n) : get (put cap t n v) k = get t k := by
  by_cases hmem : n ∈ names t
  · obtain ⟨l, w, r, rfl, hl⟩ := exists_split hmem
    rw [put_split cap hl]
    exact get_split_of_ne (Ne.symm hk) (Ne.symm hk)
  · rw [put_of_not_mem cap hmem]
    split
    · exact get_append_singleton _ (Ne.symm hk)
    · rfl

/-- So does removing a name; only the blank name is found anew. -/
lemma get_clearFirst_of_ne {b : κ × ν} {k : κ} (hk : k ≠ n) (hb : k ≠ b.1) :
    get (clearFirst b t n) k = get t k := by
  by_cases hmem : n ∈ names t
  · obtain ⟨l, w, r, rfl, hl⟩ := exists_split hmem
    rw [clearFirst_split b hl]
    exact get_split_of_ne (Ne.symm hb) (Ne.symm hk)
  · rw [clearFirst_of_not_mem b hmem]

lemma clearAll_of_not_mem (b : κ × ν) (h : n ∉ names t) : clearAll b t n = t := by
  unfold clearAll
  rw [map_congr_left (g := id), map_id]
  intro s hs
  have hne : s.1 ≠ n := fun heq => h (heq ▸ mem_map_of_mem hs)
  exact if_neg hne

end Split

/-! ## The map -/

/-- An assignment to a map that holds at most `cap` names. -/
def insertWithin (cap : Nat) (m : Finmap (fun _ : κ => ν)) (n : κ) (v : ν) : Finmap (fun _ : κ => ν) :=
  if n ∈ m ∨ m.keys.card < cap then m.insert n v else m

/-- The table stands for the map. What a lookup of the blank name gives is not said. -/
structure Represents (cap : Nat) (blank : κ) (t : List (κ × ν)) (m : Finmap (fun _ : κ => ν)) : Prop where
  once : ((names t).filter (· ≠ blank)).Nodup
  lookup : ∀ n, n ≠ blank → get t n = m.lookup n
  unnamed : blank ∉ m
  fits : t.length ≤ cap

lemma represents_nil (cap : Nat) (blank : κ) : Represents cap blank ([] : List (κ × ν)) ∅ where
  once := nodup_nil
  lookup := fun _ _ => rfl
  unnamed := Finmap.notMem_empty
  fits := Nat.zero_le cap

section Represents

variable {cap : Nat} {blank n : κ} {t : List (κ × ν)} {m : Finmap (fun _ : κ => ν)} {v : ν}
  (h : Represents cap blank t m)

include h

lemma Represents.mem_iff (hn : n ≠ blank) : n ∈ names t ↔ n ∈ m := by
  rw [← not_iff_not, ← get_eq_none_iff, h.lookup n hn, Finmap.lookup_eq_none]

lemma Represents.keys_eq : m.keys = ((names t).filter (· ≠ blank)).toFinset := by
  ext n
  rw [Finmap.mem_keys, mem_toFinset, mem_filter]
  constructor
  · intro hmem
    have hn : n ≠ blank := fun heq => h.unnamed (heq ▸ hmem)
    exact ⟨(h.mem_iff hn).mpr hmem, by simpa using hn⟩
  · rintro ⟨hmem, hn⟩
    exact (h.mem_iff (by simpa using hn)).mp hmem

lemma Represents.card_eq : m.keys.card = ((names t).filter (· ≠ blank)).length := by
  rw [h.keys_eq, toFinset_card_of_nodup h.once]

lemma Represents.card_le : m.keys.card ≤ t.length := by
  rw [h.card_eq, ← length_map (f := Prod.fst)]
  exact length_filter_le _ _

/-- Every slot in use is a name exactly when none is blank. -/
lemma Represents.card_eq_length_iff : m.keys.card = t.length ↔ get t blank = none := by
  have hlen : (names t).length = t.length := length_map _
  rw [h.card_eq, ← hlen, length_filter_eq_length_iff, get_eq_none_iff]
  constructor
  · intro hall hmem
    simpa using hall blank hmem
  · intro hmem n hn
    simpa using fun heq : n = blank => hmem (heq ▸ hn)

lemma Represents.append (hn : n ≠ blank) (hnew : n ∉ names t) (hroom : t.length < cap) :
    Represents cap blank (t ++ [(n, v)]) (m.insert n v) := by
  refine ⟨?_, ?_, ?_, ?_⟩
  · rw [names_append, filter_append, nodup_append]
    refine ⟨h.once, (nodup_singleton n).filter _, ?_⟩
    intro a ha b hb heq
    have hbn : b = n := mem_singleton.mp (mem_of_mem_filter hb)
    exact hnew (hbn ▸ heq ▸ mem_of_mem_filter ha)
  · intro k hk
    by_cases hkn : k = n
    · rw [hkn, Finmap.lookup_insert]
      exact get_split hnew
    · rw [Finmap.lookup_insert_of_ne m hkn, ← h.lookup k hk]
      exact get_append_singleton _ (fun heq => hkn heq.symm)
  · rw [Finmap.mem_insert, not_or]
    exact ⟨fun heq => hn heq.symm, h.unnamed⟩
  · rw [length_append, length_singleton]
    exact hroom

/-- **An assignment**, if its name is there already, or a slot is, or every slot has a name. -/
theorem Represents.put (hn : n ≠ blank) (hok : n ∈ m ∨ t.length < cap ∨ m.keys.card = cap) :
    Represents cap blank (put cap t n v) (insertWithin cap m n v) := by
  have hcard := h.card_le
  by_cases hmem : n ∈ m
  · obtain ⟨l, w, r, rfl, hl⟩ := exists_split ((h.mem_iff hn).mpr hmem)
    rw [put_split cap hl, insertWithin, if_pos (.inl hmem)]
    refine ⟨?_, ?_, ?_, ?_⟩
    · have honce := h.once
      rwa [names_append, names_cons] at honce ⊢
    · intro k hk
      by_cases hkn : k = n
      · rw [hkn, get_split hl, Finmap.lookup_insert]
      · rw [Finmap.lookup_insert_of_ne m hkn, ← h.lookup k hk]
        exact get_split_of_ne (fun heq => hkn heq.symm) (fun heq => hkn heq.symm)
    · rw [Finmap.mem_insert, not_or]
      exact ⟨fun heq => hn heq.symm, h.unnamed⟩
    · have hfits := h.fits
      rw [length_append, length_cons] at hfits ⊢
      exact hfits
  · have hnew : n ∉ names t := fun hin => hmem ((h.mem_iff hn).mp hin)
    rw [put_of_not_mem cap hnew, insertWithin]
    by_cases hroom : t.length < cap
    · rw [if_pos hroom, if_pos (.inr (Nat.lt_of_le_of_lt hcard hroom))]
      exact h.append hn hnew hroom
    · have hfull : m.keys.card = cap := (hok.resolve_left hmem).resolve_left hroom
      have hno : ¬ (n ∈ m ∨ m.keys.card < cap) := by
        rintro (hin | hlt)
        · exact hmem hin
        · omega
      rw [if_neg hroom, if_neg hno]
      exact h

/-- Otherwise the name is lost at once, though the map takes it. -/
lemma Represents.get_put_lost (hn : n ≠ blank)
    (hbad : ¬ (n ∈ m ∨ t.length < cap ∨ m.keys.card = cap)) :
    get (SlotTable.put cap t n v) n ≠ (insertWithin cap m n v).lookup n := by
  rw [not_or, not_or] at hbad
  obtain ⟨hmem, hroom, hcard⟩ := hbad
  have hle := h.card_le
  have hfits := h.fits
  have hnew : n ∉ names t := fun hin => hmem ((h.mem_iff hn).mp hin)
  have hlt : m.keys.card < cap := by omega
  rw [put_of_not_mem cap hnew, if_neg hroom, get_eq_none_iff.mpr hnew, insertWithin, if_pos (.inr hlt),
    Finmap.lookup_insert]
  exact fun heq => absurd heq (by simp)

omit h in
/-- Behind the first slot with a name there is no other. -/
lemma Represents.not_mem_right {l r : List (κ × ν)} {w : ν} (h : Represents cap blank (l ++ (n, w) :: r) m)
    (hn : n ≠ blank) : n ∉ names r := by
  intro hr
  have honce := h.once
  rw [names_append, names_cons, filter_append, filter_cons_of_pos (by simpa using hn), nodup_append,
    nodup_cons] at honce
  exact honce.2.1.1 (mem_filter.mpr ⟨hr, by simpa using hn⟩)

/-- **Removing a name.** -/
theorem Represents.clearFirst (hn : n ≠ blank) (w : ν) :
    Represents cap blank (clearFirst (blank, w) t n) (m.erase n) := by
  have hunnamed : blank ∉ m.erase n := fun hin => h.unnamed (Finmap.mem_erase.mp hin).2
  by_cases hmem : n ∈ m
  · obtain ⟨l, u, r, rfl, hl⟩ := exists_split ((h.mem_iff hn).mpr hmem)
    have hr := h.not_mem_right hn
    rw [clearFirst_split _ hl]
    refine ⟨?_, ?_, hunnamed, ?_⟩
    · have honce := h.once
      rw [names_append, names_cons, filter_append, filter_cons_of_pos (by simpa using hn)] at honce
      rw [names_append, names_cons, filter_append, filter_cons_of_neg (by simp)]
      exact honce.sublist (List.Sublist.append_left (sublist_cons_self _ _) _)
    · intro k hk
      by_cases hkn : k = n
      · rw [hkn, Finmap.lookup_erase, get_eq_none_iff, names_append, names_cons, mem_append, mem_cons]
        rintro (hin | heq | hin)
        · exact hl hin
        · exact hn heq
        · exact hr hin
      · rw [Finmap.lookup_erase_ne hkn, ← h.lookup k hk]
        exact get_split_of_ne (fun heq => hk heq.symm) (fun heq => hkn heq.symm)
    · have hfits := h.fits
      rw [length_append, length_cons] at hfits ⊢
      exact hfits
  · rw [clearFirst_of_not_mem _ (fun hin => hmem ((h.mem_iff hn).mp hin))]
    refine ⟨h.once, ?_, hunnamed, h.fits⟩
    intro k hk
    by_cases hkn : k = n
    · rw [h.lookup k hk, hkn, Finmap.lookup_erase, Finmap.lookup_eq_none]
      exact hmem
    · rw [Finmap.lookup_erase_ne hkn, h.lookup k hk]

/-- A name has one slot, so that blanking all of its slots blanks the first one. -/
lemma Represents.clearAll_eq (hn : n ≠ blank) (b : κ × ν) :
    clearAll b t n = SlotTable.clearFirst b t n := by
  by_cases hmem : n ∈ names t
  · obtain ⟨l, w, r, rfl, hl⟩ := exists_split hmem
    have hleft : clearAll b l n = l := clearAll_of_not_mem b hl
    have hright : clearAll b r n = r := clearAll_of_not_mem b (h.not_mem_right hn)
    unfold clearAll at hleft hright ⊢
    rw [clearFirst_split b hl, map_append, map_cons, hleft, hright, if_pos rfl]
  · rw [clearAll_of_not_mem b hmem, clearFirst_of_not_mem b hmem]

/-- Where a name was removed, the blank name is found. -/
lemma Represents.get_blank_clearFirst (hn : n ≠ blank) (hmem : n ∈ m) (w : ν) :
    get (SlotTable.clearFirst (blank, w) t n) blank ≠ none := by
  obtain ⟨l, u, r, rfl, hl⟩ := exists_split ((h.mem_iff hn).mpr hmem)
  rw [clearFirst_split _ hl, ne_eq, get_eq_none_iff, not_not, names_append, names_cons]
  exact mem_append_right _ mem_cons_self

end Represents

end SlotTable
