import Mathlib.Data.List.Pairwise
import Mathlib.Data.List.TakeWhile
import PigOS.Lib.Buffer

/-!
# `Lib.Records` — an array of records that is filled field by field

Each field that is there is copied into the array of the record, without a look at its length, and a
field that is not there is left as it was. Input that is no record is passed over. `faithful_iff`
says when the array shows the records of the input and nothing else, whatever it held before.
-/

namespace Records

open List

variable {α : Type*}

/-- A field of a record: where it begins, its size, and whether what it shows ends at a
terminator. -/
structure Field where
  off : Nat
  size : Nat
  text : Bool

/-- What is stored to the fields of a record, in order. A field without a value is left. -/
abbrev Row (α : Type*) := List (Field × Option (List α))

/-- The stores of one row, for the record with index `i`. -/
def fill (stride i : Nat) (row : Row α) (b : Buffer α) : Buffer α :=
  row.foldl (fun b p => p.2.elim b (b.writeAll (i * stride + p.1.off))) b

/-- The stores of the rows from index `i` on. An input without a row has an index, too. -/
def fillAll (stride : Nat) : Nat → List (Option (Row α)) → Buffer α → Buffer α
  | _, [], b => b
  | i, none :: rows, b => fillAll stride (i + 1) rows b
  | i, some row :: rows, b => fillAll stride (i + 1) rows (fill stride i row b)

section Stores

variable {stride i a : Nat} {row : Row α} {rows : List (Option (Row α))}

lemma fill_cons (p : Field × Option (List α)) (row : Row α) (b : Buffer α) :
    fill stride i (p :: row) b = fill stride i row (p.2.elim b (b.writeAll (i * stride + p.1.off))) := rfl

lemma fill_append (row row' : Row α) (b : Buffer α) :
    fill stride i (row ++ row') b = fill stride i row' (fill stride i row b) := foldl_append

lemma fillAll_append (rows rows' : List (Option (Row α))) (b : Buffer α) :
    fillAll stride i (rows ++ rows') b = fillAll stride (i + rows.length) rows' (fillAll stride i rows b) := by
  induction rows generalizing i b with
  | nil => rfl
  | cons o rows ih =>
    rw [length_cons, ← Nat.add_assoc, Nat.add_right_comm]
    cases o with
    | none => exact ih b
    | some row => exact ih (fill stride i row b)

/-! ## What the stores leave alone -/

/-- The store of `p` to the record with index `i` does not meet the cell `a`. -/
def Clear (stride i a : Nat) (p : Field × Option (List α)) : Prop :=
  ∀ xs, p.2 = some xs → a < i * stride + p.1.off ∨ i * stride + p.1.off + xs.length ≤ a

lemma read_fill_of_clear (h : ∀ p ∈ row, Clear stride i a p) (b : Buffer α) :
    (fill stride i row b).read a = b.read a := by
  induction row generalizing b with
  | nil => rfl
  | cons p row ih =>
    rw [forall_mem_cons] at h
    rw [fill_cons, ih h.2]
    cases hp : p.2 with
    | none => rfl
    | some xs => exact b.read_writeAll_of_clear (h.1 xs hp)

lemma read_fillAll_of_clear (h : ∀ j row, rows[j]? = some (some row) → ∀ p ∈ row,
    Clear stride (i + j) a p) (b : Buffer α) :
    (fillAll stride i rows b).read a = b.read a := by
  induction rows generalizing i b with
  | nil => rfl
  | cons o rows ih =>
    have htail : ∀ j row, rows[j]? = some (some row) → ∀ p ∈ row, Clear stride (i + 1 + j) a p := by
      intro j row hj
      rw [Nat.add_right_comm]
      exact h (j + 1) row hj
    cases o with
    | none => exact ih htail b
    | some row =>
      rw [fillAll, ih htail]
      exact read_fill_of_clear (h 0 row rfl) b

/-! ## How far the stores go -/

lemma top_fill_le_iff (hne : ∀ p ∈ row, ∀ xs, p.2 = some xs → xs ≠ []) (b : Buffer α) (n : Nat) :
    (fill stride i row b).top ≤ n ↔
      b.top ≤ n ∧ ∀ p ∈ row, ∀ xs, p.2 = some xs → i * stride + p.1.off + xs.length ≤ n := by
  induction row generalizing b with
  | nil => simp [fill]
  | cons p row ih =>
    rw [forall_mem_cons] at hne
    rw [fill_cons, ih hne.2, forall_mem_cons]
    cases hp : p.2 with
    | none => simp
    | some xs =>
      have hone : (∀ ys, some xs = some ys → i * stride + p.1.off + ys.length ≤ n) ↔
          i * stride + p.1.off + xs.length ≤ n := by
        constructor
        · exact fun h => h xs rfl
        · rintro h ys ⟨⟩
          exact h
      show (b.writeAll _ xs).top ≤ n ∧ _ ↔ _
      rw [b.top_writeAll_le_iff _ (hne.1 xs hp), hone, and_assoc]

lemma top_fillAll_le_iff (hne : ∀ row, some row ∈ rows → ∀ p ∈ row, ∀ xs, p.2 = some xs → xs ≠ [])
    (b : Buffer α) (n : Nat) :
    (fillAll stride i rows b).top ≤ n ↔
      b.top ≤ n ∧ ∀ (j : Nat) (row : Row α), rows[j]? = some (some row) → ∀ p ∈ row, ∀ xs, p.2 = some xs →
        (i + j) * stride + p.1.off + xs.length ≤ n := by
  induction rows generalizing i b with
  | nil => simp [fillAll]
  | cons o rows ih =>
    have hne' := fun row hrow => hne row (mem_cons_of_mem o hrow)
    -- the first row, and the rows behind it
    have hsplit (P : Nat → Row α → Prop) : (∀ (j : Nat) (row : Row α), (o :: rows)[j]? = some (some row) → P j row) ↔
        (∀ row, o = some row → P 0 row) ∧ ∀ (j : Nat) (row : Row α), rows[j]? = some (some row) → P (j + 1) row := by
      constructor
      · exact fun h => ⟨fun row hrow => h 0 row (congrArg some hrow), fun j row hj => h (j + 1) row hj⟩
      · rintro ⟨h₀, h₁⟩ j row hj
        cases j with
        | zero => exact h₀ row (Option.some.inj hj)
        | succ j => exact h₁ j row hj
    rw [hsplit]
    have hshift (j : Nat) : i + 1 + j = i + (j + 1) := by omega
    cases o with
    | none =>
      rw [fillAll, ih hne']
      simp [hshift]
    | some row =>
      rw [fillAll, ih hne', top_fill_le_iff (hne row mem_cons_self), and_assoc]
      simp [hshift]

end Stores

/-! ## Layouts -/

/-- Two fields have no cell in common. -/
def Apart (f g : Field) : Prop := f.off + f.size ≤ g.off ∨ g.off + g.size ≤ f.off

/-- The fields lie apart from each other in a record of `stride` cells. -/
structure Layout (stride : Nat) (fields : List Field) : Prop where
  inside : ∀ f ∈ fields, f.off + f.size ≤ stride
  size_pos : ∀ f ∈ fields, 0 < f.size
  apart : fields.Pairwise Apart
  ne_nil : fields ≠ []

/-- A value of the field: a text has its terminator `z`, and anything else takes the whole field. -/
def Field.Takes (z : α) (f : Field) (xs : List α) : Prop := if f.text then z ∈ xs else xs.length = f.size

/-- The row has a value for every field at most, in the order of the fields. -/
structure Row.For (z : α) (fields : List Field) (row : Row α) : Prop where
  fields : row.map Prod.fst = fields
  takes : ∀ p ∈ row, ∀ xs, p.2 = some xs → p.1.Takes z xs

/-- Every value that is there fits its field. -/
def Row.Fits (row : Row α) : Prop := ∀ p ∈ row, ∀ xs, p.2 = some xs → xs.length ≤ p.1.size

/-- Every value is there, and fits its field. -/
def Row.Complete (row : Row α) : Prop := ∀ p ∈ row, ∃ xs, p.2 = some xs ∧ xs.length ≤ p.1.size

variable {row : Row α}

lemma Row.Complete.fits (h : row.Complete) : row.Fits := by
  intro p hp xs hxs
  obtain ⟨ys, hys, hle⟩ := h p hp
  rw [hxs] at hys
  rw [Option.some.inj hys]
  exact hle

variable {f : Field} {t : Nat}

section Addresses

variable {z : α} {stride i k a : Nat} {fields : List Field} {row : Row α} {p : Field × Option (List α)}

lemma Row.For.mem (h : row.For z fields) (hp : p ∈ row) : p.1 ∈ fields := h.fields ▸ mem_map_of_mem hp

/-- An earlier record whose values fit ends before this one. -/
lemma clear_of_lt (hlayout : Layout stride fields) (hrow : row.For z fields) (hfits : row.Fits)
    (hp : p ∈ row) (hik : i < k)
    (ha : k * stride ≤ a) : Clear stride i a p := by
  intro xs hxs
  have hle := hfits p hp xs hxs
  have hinside := hlayout.inside p.1 (hrow.mem hp)
  have hnext : (i + 1) * stride ≤ k * stride := Nat.mul_le_mul_right stride hik
  rw [Nat.add_mul, Nat.one_mul] at hnext
  right
  omega

lemma clear_of_gt (hik : k < i) (ha : a < (k + 1) * stride) : Clear stride i a p := by
  intro xs _
  have hnext : (k + 1) * stride ≤ i * stride := Nat.mul_le_mul_right stride hik
  left
  omega

lemma clear_of_apart (happart : Apart f p.1) (hfits : ∀ xs, p.2 = some xs → xs.length ≤ p.1.size)
    (ht : t < f.size) : Clear stride k (k * stride + f.off + t) p := by
  intro xs hxs
  have hle := hfits xs hxs
  rcases happart with h | h
  · left
    omega
  · right
    omega

lemma cell_lt (hlayout : Layout stride fields) (hf : f ∈ fields) (ht : t < f.size) :
    k * stride + f.off + t < (k + 1) * stride := by
  have hinside := hlayout.inside f hf
  rw [Nat.add_mul, Nat.one_mul]
  omega

end Addresses

/-! ## What the array shows -/

/-- What a field of the record with index `k` shows. -/
def shown [DecidableEq α] (z : α) (stride k : Nat) (f : Field) (b : Buffer α) : List α :=
  let cells := (range f.size).map fun t => b.read (k * stride + f.off + t)
  if f.text then cells.takeWhile (· ≠ z) else cells

/-- The record with index `k` holds the values of the row, each inside its field. -/
def Describes (stride k : Nat) (row : Row α) (b : Buffer α) : Prop :=
  ∀ p ∈ row, ∀ xs, p.2 = some xs →
    xs.length ≤ p.1.size ∧ ∀ t x, xs[t]? = some x → b.read (k * stride + p.1.off + t) = x

/-- The array shows the records of the input whatever it held before, the `k`-th at index `k`. -/
structure Faithful [DecidableEq α] (z : α) (stride : Nat) (fields : List Field)
    (rows : List (Option (Row α))) : Prop where
  same : ∀ b b' k f, k < (rows.filterMap id).length → f ∈ fields →
    shown z stride k f (fillAll stride 0 rows b) = shown z stride k f (fillAll stride 0 rows b')
  describes : ∀ b k row, (rows.filterMap id)[k]? = some row → Describes stride k row (fillAll stride 0 rows b)

section Shown

variable [DecidableEq α] {z : α} {stride k : Nat} {f : Field} {b b' : Buffer α}

lemma shown_congr (h : ∀ t < f.size, b.read (k * stride + f.off + t) = b'.read (k * stride + f.off + t)) :
    shown z stride k f b = shown z stride k f b' := by
  have hcells : (range f.size).map (fun t => b.read (k * stride + f.off + t)) =
      (range f.size).map (fun t => b'.read (k * stride + f.off + t)) :=
    map_congr_left fun t ht => h t (mem_range.mp ht)
  rw [shown, shown, hcells]

lemma shown_of_value {xs : List α} (htakes : f.Takes z xs) (hle : xs.length ≤ f.size)
    (hcells : ∀ t x, xs[t]? = some x → b.read (k * stride + f.off + t) = x) :
    shown z stride k f b = if f.text then xs.takeWhile (· ≠ z) else xs := by
  -- the cells of the field begin with the value
  obtain ⟨rest, hrest⟩ : xs <+: (range f.size).map fun t => b.read (k * stride + f.off + t) := by
    rw [prefix_iff_getElem?]
    intro t ht
    rw [Cells.getElem?_map_range (fun t => b.read (k * stride + f.off + t)), if_pos (by omega),
      hcells t _ (getElem?_eq_getElem ht)]
  rw [shown, ← hrest]
  rw [Field.Takes] at htakes
  by_cases htext : f.text
  · rw [if_pos htext] at htakes
    rw [if_pos htext, if_pos htext, takeWhile_append, if_neg]
    intro hlen
    have hpre : xs.takeWhile (· ≠ z) <+: xs := takeWhile_prefix _
    have hall := takeWhile_eq_self_iff.mp (hpre.eq_of_length hlen) z htakes
    simp at hall
  · rw [if_neg htext] at htakes
    rw [if_neg htext, if_neg htext]
    have hlen := congrArg length hrest
    rw [length_append, length_map, length_range] at hlen
    rw [length_eq_zero_iff.mp (show rest.length = 0 by omega), append_nil]

/-- What was never written to shows what was there before. -/
lemma shown_const_ne {y : α} (hy : y ≠ z) (hpos : 0 < f.size) :
    shown z stride k f (Buffer.fresh fun _ => z) ≠ shown z stride k f (Buffer.fresh fun _ => y) := by
  obtain ⟨n, hn⟩ := Nat.exists_eq_add_one.mpr hpos
  intro h
  have hhead := congrArg List.head? h
  rw [shown, shown, hn, range_succ_eq_map, map_cons, map_cons] at hhead
  by_cases htext : f.text
  · simp [htext, Buffer.fresh, hy] at hhead
  · simp [htext, Buffer.fresh, hy.symm] at hhead

end Shown

/-! ## Complete rows -/

variable {k : Nat}

section Complete

variable {z : α} {stride i : Nat} {fields : List Field} {row : Row α}
  (hlayout : Layout stride fields) (hrow : row.For z fields) (hfits : row.Fits)

include hlayout hrow hfits

/-- What fits is there after the stores of its row. -/
lemma describes_fill (b : Buffer α) : Describes stride i row (fill stride i row b) := by
  intro p hp xs hxs
  refine ⟨hfits p hp xs hxs, fun t x hx => ?_⟩
  have ht : t < p.1.size := Nat.lt_of_lt_of_le (List.getElem?_eq_some_iff.mp hx).1 (hfits p hp xs hxs)
  obtain ⟨before, after, hsplit⟩ := append_of_mem hp
  -- the stores behind that of `p` go to other fields
  have hapart : ∀ q ∈ after, Apart p.1 q.1 := by
    have hpair : (row.map Prod.fst).Pairwise Apart := hrow.fields ▸ hlayout.apart
    rw [hsplit, pairwise_map, pairwise_append, pairwise_cons] at hpair
    exact hpair.2.1.1
  rw [hsplit, fill_append, fill_cons, read_fill_of_clear, hxs]
  · exact Buffer.read_writeAll _ _ hx
  · intro q hq
    exact clear_of_apart (hapart q hq) (hfits q (hsplit ▸ mem_append_right _ (mem_cons_of_mem _ hq))) ht

/-- ... and after the stores of all rows behind it. -/
lemma describes_fillAll {rows : List (Option (Row α))} (hk : rows[k]? = some (some row)) (b : Buffer α) :
    Describes stride k row (fillAll stride 0 rows b) := by
  obtain ⟨hlt, hget⟩ := List.getElem?_eq_some_iff.mp hk
  have hsplit : rows = rows.take k ++ some row :: rows.drop (k + 1) := by
    rw [← hget, ← drop_eq_getElem_cons hlt, take_append_drop]
  have hlen : (rows.take k).length = k := length_take_of_le (Nat.le_of_lt hlt)
  intro p hp xs hxs
  refine ⟨hfits p hp xs hxs, fun t x hx => ?_⟩
  have ht : t < p.1.size := Nat.lt_of_lt_of_le (List.getElem?_eq_some_iff.mp hx).1 (hfits p hp xs hxs)
  rw [hsplit, fillAll_append, hlen, Nat.zero_add, fillAll, read_fillAll_of_clear]
  · exact (describes_fill hlayout hrow hfits _ p hp xs hxs).2 t x hx
  · intro j row' _ q _
    exact clear_of_gt (show k < k + 1 + j by omega) (cell_lt hlayout (hrow.mem hp) ht)

end Complete

/-! ## The result -/

section Faithful

variable {z : α} {stride : Nat} {fields : List Field}

/-- If the first inputs are records, the `k`-th record is the `k`-th input. -/
lemma filterMap_getElem? {rows : List (Option (Row α))} (h : ∀ j ≤ k, ∃ row, rows[j]? = some (some row)) :
    (rows.filterMap id)[k]?.map some = rows[k]? := by
  induction rows generalizing k with
  | nil => rfl
  | cons o rows ih =>
    obtain ⟨row, hrow⟩ := h 0 (Nat.zero_le k)
    obtain rfl : o = some row := Option.some.inj hrow
    rw [filterMap_cons_some (show id (some row) = some row from rfl)]
    cases k with
    | zero => rfl
    | succ k => exact ih fun j hj => h (j + 1) (Nat.succ_le_succ hj)

variable [DecidableEq α] [Nontrivial α] {rows : List (Option (Row α))} (h : Faithful z stride fields rows)

include h

omit [Nontrivial α] in
lemma Faithful.fits (hk : (rows.filterMap id)[k]? = some row) : row.Fits :=
  fun p hp xs hxs => (h.describes (Buffer.fresh fun _ => z) k row hk p hp xs hxs).1

variable (hlayout : Layout stride fields)

include hlayout

/-- A field that no store meets shows what was there before. -/
lemma Faithful.not_clear (hk : k < (rows.filterMap id).length) (hf : f ∈ fields)
    (hclear : ∀ t < f.size, ∀ j row, rows[j]? = some (some row) → ∀ p ∈ row,
      Clear stride j (k * stride + f.off + t) p) :
    False := by
  obtain ⟨y, hy⟩ := exists_ne z
  have hold (b : Buffer α) : shown z stride k f (fillAll stride 0 rows b) = shown z stride k f b :=
    shown_congr fun t ht => read_fillAll_of_clear
      (fun j row hj p hp => (Nat.zero_add j).symm ▸ hclear t ht j row hj p hp) b
  have hsame := h.same (Buffer.fresh fun _ => z) (Buffer.fresh fun _ => y) k f hk hf
  rw [hold, hold] at hsame
  exact shown_const_ne hy (hlayout.size_pos f hf) hsame

variable (hrows : ∀ row, some row ∈ rows → row.For z fields)

include hrows

omit [Nontrivial α] in
/-- Where the records before the `k`-th are the inputs before it, no other input is stored to it. -/
lemma Faithful.clear
    (hbefore : ∀ j < k, ∃ row, (rows.filterMap id)[j]? = some row ∧ rows[j]? = some (some row)) (hf : f ∈ fields)
    (ht : t < f.size) {j : Nat} (hjk : j ≠ k) (hj : rows[j]? = some (some row)) :
    ∀ p ∈ row, Clear stride j (k * stride + f.off + t) p := by
  intro p hp
  rcases Nat.lt_or_gt_of_ne hjk with hlt | hgt
  · obtain ⟨row', hrec, hinput⟩ := hbefore j hlt
    obtain rfl := Option.some.inj (Option.some.inj (hinput.symm.trans hj))
    exact clear_of_lt hlayout (hrows _ (mem_of_getElem? hj)) (h.fits hrec) hp hlt (by omega)
  · exact clear_of_gt hgt (cell_lt hlayout hf ht)

/-- The `k`-th record is the `k`-th input: behind one that is no record it would be one place too
far. -/
lemma Faithful.index (hk : (rows.filterMap id)[k]? = some row) : rows[k]? = some (some row) := by
  induction k using Nat.strong_induction_on generalizing row with
  | _ k ih =>
    have hlen := (List.getElem?_eq_some_iff.mp hk).1
    have hbefore : ∀ j < k, ∃ row, (rows.filterMap id)[j]? = some row ∧ rows[j]? = some (some row) := by
      intro j hj
      have hrec := getElem?_eq_getElem (hj.trans hlen)
      exact ⟨_, hrec, ih j hj hrec⟩
    have hinput : ∃ row', rows[k]? = some (some row') := by
      by_contra hgap
      obtain ⟨f, hf⟩ := exists_mem_of_ne_nil fields hlayout.ne_nil
      refine h.not_clear hlayout hlen hf fun t ht j row' hj => h.clear hlayout hrows hbefore hf ht ?_ hj
      rintro rfl
      exact hgap ⟨row', hj⟩
    have hall : ∀ j ≤ k, ∃ row, rows[j]? = some (some row) := by
      intro j hj
      rcases Nat.lt_or_eq_of_le hj with hlt | rfl
      · exact (hbefore j hlt).imp fun _ h => h.2
      · exact hinput
    rw [← filterMap_getElem? hall, hk, Option.map_some]

/-- A field without a value would show what was there before: no other store writes to it. -/
lemma Faithful.complete (hk : (rows.filterMap id)[k]? = some row) : row.Complete := by
  have hget := h.index hlayout hrows hk
  have hrow := hrows row (mem_of_getElem? hget)
  have hlen := (List.getElem?_eq_some_iff.mp hk).1
  intro p hp
  cases hp2 : p.2 with
  | some xs => exact ⟨xs, rfl, h.fits hk p hp xs hp2⟩
  | none =>
    refine (h.not_clear hlayout hlen (hrow.mem hp) fun t ht j row' hj q hq => ?_).elim
    by_cases hjk : j = k
    · subst hjk
      obtain rfl := Option.some.inj (Option.some.inj (hget.symm.trans hj))
      intro ys hys
      have hne : p ≠ q := by
        rintro rfl
        rw [hp2] at hys
        cases hys
      have hpair : (row.map Prod.fst).Pairwise Apart := hrow.fields ▸ hlayout.apart
      have hsymm : Std.Symm fun p q : Field × Option (List α) => Apart p.1 q.1 := ⟨fun _ _ h => Or.symm h⟩
      have hapart : Apart p.1 q.1 := (pairwise_map.mp hpair).forall hp hq hne
      exact clear_of_apart hapart (h.fits hk q hq) ht ys hys
    · refine h.clear hlayout hrows (fun i hi => ?_) (hrow.mem hp) ht hjk hj q hq
      have hrec := getElem?_eq_getElem (hi.trans hlen)
      exact ⟨_, hrec, h.index hlayout hrows hrec⟩

omit h in
/-- **When the array shows the input.** -/
theorem faithful_iff : Faithful z stride fields rows ↔
      ∀ (k : Nat) (row : Row α), (rows.filterMap id)[k]? = some row → rows[k]? = some (some row) ∧ row.Complete := by
  constructor
  · intro h k row hk
    exact ⟨h.index hlayout hrows hk, h.complete hlayout hrows hk⟩
  · intro h
    have hdesc (b : Buffer α) (k : Nat) (row : Row α) (hk : (rows.filterMap id)[k]? = some row) :
        Describes stride k row (fillAll stride 0 rows b) := by
      obtain ⟨hget, hcomplete⟩ := h k row hk
      exact describes_fillAll hlayout (hrows row (mem_of_getElem? hget)) hcomplete.fits hget b
    refine ⟨fun b b' k f hk hf => ?_, hdesc⟩
    have hrec := getElem?_eq_getElem hk
    obtain ⟨hget, hcomplete⟩ := h k _ hrec
    have hrow := hrows _ (mem_of_getElem? hget)
    rw [← hrow.fields] at hf
    obtain ⟨p, hp, rfl⟩ := mem_map.mp hf
    obtain ⟨xs, hxs, hle⟩ := hcomplete p hp
    rw [shown_of_value (hrow.takes p hp xs hxs) hle (hdesc b k _ hrec p hp xs hxs).2,
      shown_of_value (hrow.takes p hp xs hxs) hle (hdesc b' k _ hrec p hp xs hxs).2]

end Faithful

end Records
