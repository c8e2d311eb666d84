import PigOS.Shell.Correctness.Vi

/-!
# `Shell.Correctness.ViGrid` — when `pi` keeps its cursor and its rows

In a good state (`Good`) the rows are known as texts (`Grid`), and what a key makes of the text can
be computed. Not every key keeps it so. `G`, `dd`, and the arrows in insert mode take the cursor to
a line that may be shorter; two lines that are joined may be too long for a row; and what is typed
on a line of 76 bytes, or broken in a text of 22 lines, is lost.
-/

namespace PigOS.Shell

open List Function

variable {t : CStr} {i n : Nat} {keys : List Int}
namespace Vi

open Kernel Cells
open Option (bind_some map_some)

/-! ## Rows as texts -/

/-- The rows of `S` hold the texts `f`. -/
structure Grid (a : Nat → UInt8) (S : Nat → Prop) (f : Nat → CStr) : Prop where
  holds : ∀ i, S i → Holds 0 a (row i) (f i)
  short : ∀ i, S i → (f i).length ≤ viCols - 1

section Grid

variable {a a' : Nat → UInt8} {S T : Nat → Prop} {f : Nat → CStr} {r : Nat} {src : Nat}

lemma Grid.mono (h : Grid a S f) (hsub : ∀ i, T i → S i) : Grid a T f :=
  ⟨fun i hi => h.holds i (hsub i hi), fun i hi => h.short i (hsub i hi)⟩

lemma Grid.write (h : Grid a S f) (hframe : ∀ i d, i ≠ r → d < viCols → a' (row i + d) = a (row i + d))
    (ht : Holds 0 a' (row r) t) (hlen : t.length ≤ viCols - 1) : Grid a' (fun i => S i ∨ i = r)
      (Function.update f r t) := by
  have hcols : viCols = 78 := rfl
  refine ⟨fun i hi => ?_, fun i hi => ?_⟩
  · by_cases hir : i = r
    · subst hir
      rw [update_self]
      exact ht
    · have hS := hi.resolve_right hir
      have hshort := h.short i hS
      rw [update_of_ne hir]
      exact (h.holds i hS).congr fun j hj => hframe i j hir (by omega)
  · by_cases hir : i = r
    · subst hir
      rw [update_self]
      exact hlen
    · rw [update_of_ne hir]
      exact h.short i (hi.resolve_right hir)

lemma kcpCells_eq (h : Holds 0 a src t) (dst fuel : Nat)
    (hapart : dst + t.length < src ∨ src + t.length < dst) (hsrc : src + t.length < viCells)
    (hdst : dst + t.length < viCells) (hfuel : t.length < fuel) :
    kcpCells fuel dst src a = some (Function.update (writeList a dst (t.map Subtype.val)) (dst + t.length) 0) := by
  induction t generalizing a dst src fuel with
  | nil =>
    obtain ⟨fuel, rfl⟩ : ∃ n, fuel = n + 1 := Nat.exists_eq_add_one_of_ne_zero (by omega)
    have hstop : a src = 0 := h.stop
    rw [length_nil] at hsrc hdst
    rw [kcpCells, if_neg (by omega), if_pos hstop]
    rfl
  | cons c t ih =>
    obtain ⟨fuel, rfl⟩ : ∃ n, fuel = n + 1 := Nat.exists_eq_add_one_of_ne_zero (by omega)
    rw [length_cons] at hapart hsrc hdst hfuel
    have hcell : a src = c.val := h.cell 0 c rfl
    have hne : a src ≠ 0 := hcell ▸ c.property
    have htail : Holds 0 (Function.update a dst (a src)) (src + 1) t :=
      h.tail.congr fun j hj => update_of_ne (by omega) _ _
    rw [kcpCells, if_neg (by omega), if_neg hne, ih htail (dst + 1) fuel (by omega) (by omega)
      (by omega) (by omega), hcell]
    rw [map_cons, writeList, length_cons, show dst + 1 + t.length = dst + (t.length + 1) by omega]

lemma write_frame {c : Nat} (hlen : c + t.length ≤ viCols - 1) : ∀ i d, i ≠ r → d < viCols →
      Function.update (writeList a (row r + c) (t.map Subtype.val))
        (row r + c + t.length) 0 (row i + d) = a (row i + d) := by
  intro i d hi hd
  have hstop : row i + d ≠ row r + (c + t.length) := row_apart hi hd (by omega)
  rw [update_of_ne (by rwa [Nat.add_assoc]), writeList_apply]
  split
  next hle =>
    rw [getElem?_eq_none]
    · rfl
    · rw [length_map]
      by_contra hlt
      exact row_apart hi hd (show c + (row i + d - (row r + c)) < viCols by omega) (by omega)
  next => rfl

lemma row_lt {d : Nat} (hi : i < viRows + 4) (hd : d < viCols) : row i + d < viCells := by
  unfold row viCells viCols viRows at *
  omega

lemma row_start_lt (hi : i < viRows + 4) : row i < viCells := by
  unfold row viCells viCols viRows at *
  omega

/-- `lines[r][0]=0;` -/
lemma Grid.clear (h : Grid a S f) : Grid (Function.update a (row r) 0) (fun i => S i ∨ i = r)
    (Function.update f r []) := by
  refine h.write (fun i d hi hd => ?_) ⟨fun j x hx => absurd hx (by simp), update_self ..⟩ (Nat.zero_le _)
  have hne : row i + d ≠ row r + 0 := row_apart hi hd (by decide)
  exact update_of_ne hne _ _

/-- `kcp(lines[dst],lines[src]);` -/
lemma Grid.copyRow (h : Grid a S f) {dst : Nat} (hS : S src) (hne : dst ≠ src) (hdst : dst < viRows + 4)
    (hsrc : src < viRows + 4) :
    ∃ a', copyRow dst src a = some a' ∧ Grid a' (fun i => S i ∨ i = dst) (Function.update f dst (f src)) := by
  have hcols : viCols = 78 := rfl
  have hshort := h.short src hS
  have hapart : row dst + (f src).length < row src ∨ row src + (f src).length < row dst := by
    unfold row viCols at *
    omega
  have hcells : viCells = 1872 := rfl
  refine ⟨_, kcpCells_eq (h.holds src hS) _ _ hapart (row_lt hsrc (by omega)) (row_lt hdst (by omega)) (by omega), ?_⟩
  exact h.write (write_frame (c := 0) (by omega)) (holds_write ..) hshort

/-- `for(int r=cy;r<nlines-1;r++) kcp(lines[r],lines[r+1]);` -/
lemma Grid.rowsUp (h : Grid a S f) (hS : ∀ i, r ≤ i → i ≤ r + n → S i) (hn : r + n < viRows + 4) :
    ∃ a', rowsUp r n a = some a' ∧ Grid a' S (shiftDown r n f) := by
  induction n generalizing a f r with
  | zero => exact ⟨a, rfl, h⟩
  | succ n ih =>
    obtain ⟨a₁, hcopy, hgrid⟩ := h.copyRow (hS (r + 1) (by omega) (by omega))
        (show r ≠ r + 1 by omega) (by omega) (by omega)
    have hgrid' : Grid a₁ S (Function.update f r (f (r + 1))) := hgrid.mono fun i hi => Or.inl hi
    obtain ⟨a', hrest, hresult⟩ := ih (r := r + 1) hgrid' (fun i hle hlt => hS i (by omega) (by omega)) (by omega)
    refine ⟨a', ?_, hresult⟩
    rw [Vi.rowsUp, hcopy, bind_some, hrest]

/-- `for(int r=nlines;r>top;r--) kcp(lines[r],lines[r-1]);` -/
lemma Grid.rowsDown (h : Grid a S f) (top : Nat) (hS : ∀ i, top ≤ i → i < n → S i) (hn : n < viRows + 4) :
    ∃ a', rowsDown top n a = some a' ∧ Grid a' (fun i => S i ∨ (top < i ∧ i ≤ n)) (shiftUp top n f) := by
  induction n generalizing a f S with
  | zero => exact ⟨a, rfl, h.mono fun i hi => hi.resolve_right (by omega)⟩
  | succ n ih =>
    rw [Vi.rowsDown, shiftUp]
    split
    next hlt =>
      obtain ⟨a₁, hcopy, hgrid⟩ := h.copyRow (hS n (by omega) (by omega)) (show n + 1 ≠ n by omega) hn (by omega)
      obtain ⟨a', hrest, hresult⟩ := ih hgrid (fun i hle hin => Or.inl (hS i hle (by omega))) (by omega)
      refine ⟨a', ?_, hresult.mono fun i hi => ?_⟩
      · rw [hcopy, bind_some, hrest]
      · rcases hi with hi | ⟨htop, hle⟩
        · exact Or.inl (Or.inl hi)
        · by_cases heq : i = n + 1
          · exact Or.inl (Or.inr heq)
          · exact Or.inr ⟨htop, by omega⟩
    next hge => exact ⟨a, rfl, h.mono fun i hi => hi.resolve_right (by omega)⟩

end Grid

/-! ## Good states -/

/-- The line in row `r`, as `ksl` and `kcat` see it. -/
def Editor.rowAt (s : Editor) (r : Nat) : CStr := stringFrom s.lines (row r)

/-- The lines of the text. -/
def Editor.rows (s : Editor) : List CStr := (range s.nlines).map s.rowAt

/-- The cursor is on a line and not behind its end, and every line has at most 77 bytes and its
terminator. -/
structure Good (s : Editor) : Prop where
  cy_lt : s.cy < s.nlines
  nlines_le : s.nlines ≤ viRows + 2
  ends : ∀ r < s.nlines, ∃ l ≤ viCols - 1, (∀ j < l, s.lines (row r + j) ≠ 0) ∧ s.lines (row r + l) = 0
  cx_le : s.cx ≤ (s.rowAt s.cy).length

section Good

variable {s s' : Editor} {f : Nat → CStr} {r : Nat}

lemma Good.grid (h : Good s) : Grid s.lines (· < s.nlines) s.rowAt := by
  have hrow : ∀ r < s.nlines, Holds 0 s.lines (row r) (s.rowAt r) ∧ (s.rowAt r).length ≤ viCols - 1 := by
    intro r hr
    have hn := h.nlines_le
    obtain ⟨l, hl, hne, hstop⟩ := h.ends r hr
    obtain ⟨t, rfl, ht⟩ := exists_holds hne hstop
    rw [Editor.rowAt, stringFrom_eq ht hl (by omega)]
    exact ⟨ht, hl⟩
  exact ⟨fun r hr => (hrow r hr).1, fun r hr => (hrow r hr).2⟩

lemma Good.ksl (h : Good s) (hr : r < s.nlines) : kslAt s.lines (row r) = some (s.rowAt r).length := by
  have hn := h.nlines_le
  have hshort := h.grid.short r hr
  rw [kslAt]
  exact if_pos (row_lt (by omega) (show (s.rowAt r).length < viCols by unfold viCols at *; omega))

lemma rowAt_eq (hg : Grid s.lines (· < s.nlines) f) (hn : s.nlines ≤ viRows + 2)
    (hr : r < s.nlines) : s.rowAt r = f r :=
  stringFrom_eq (hg.holds r hr) (hg.short r hr) (by omega)

lemma good_iff_of_grid (hg : Grid s.lines (· < s.nlines) f) (hn : s.nlines ≤ viRows + 2) (hcy : s.cy < s.nlines) :
    Good s ↔ s.cx ≤ (f s.cy).length := by
  constructor
  · intro h
    rw [← rowAt_eq hg hn hcy]
    exact h.cx_le
  · intro hcx
    refine ⟨hcy, hn, fun r hr => ?_, ?_⟩
    · have hholds := hg.holds r hr
      refine ⟨(f r).length, hg.short r hr, fun j hj => ?_, hholds.stop⟩
      rw [hholds.cell j _ (getElem?_eq_getElem hj)]
      exact ((f r)[j]).property
    · rw [rowAt_eq hg hn hcy]
      exact hcx

lemma rows_eq_of_grid (hg : Grid s.lines (· < s.nlines) f) (hn : s.nlines ≤ viRows + 2) :
    s.rows = (range s.nlines).map f :=
  map_congr_left fun _ hr => rowAt_eq hg hn (mem_range.mp hr)

lemma Good.move_iff (h : Good s) (hlines : s'.lines = s.lines) (hnlines : s'.nlines = s.nlines)
    (hcy : s'.cy < s.nlines) :
    Good s' ↔ s'.cx ≤ (s.rowAt s'.cy).length := by
  have hg : Grid s'.lines (· < s'.nlines) s.rowAt := by
    rw [hlines, hnlines]
    exact h.grid
  exact good_iff_of_grid hg (hnlines ▸ h.nlines_le) (hnlines ▸ hcy)

/-- Only the cursor goes elsewhere, to a place where it may be. -/
structure Moves (s s' : Editor) : Prop where
  lines : s'.lines = s.lines
  nlines : s'.nlines = s.nlines
  cy_lt : s'.cy < s.nlines
  cx_le : s'.cx ≤ (s.rowAt s'.cy).length

lemma Good.moves (h : Good s) (hm : Moves s s') : Good s' := (h.move_iff hm.lines hm.nlines hm.cy_lt).mpr hm.cx_le

lemma Good.length_le (h : Good s) {w : CStr} (hw : w ∈ s.rows) : w.length ≤ viCols - 1 := by
  obtain ⟨r, hr, rfl⟩ := mem_map.mp hw
  exact h.grid.short r (mem_range.mp hr)

lemma Editor.length_rows (s : Editor) : s.rows.length = s.nlines := by
  rw [Editor.rows, length_map, length_range]

lemma Good.length_text_lt (h : Good s) : s.text.length < contentField := by
  have htext : s.text.length ≤ viCols * s.nlines := length_text_le h.grid.short
  exact Nat.lt_of_le_of_lt (htext.trans (Nat.mul_le_mul_left viCols h.nlines_le)) (by decide)

end Good

/-! ## Right keys -/

/-- A key of insert mode that changes the text. -/
def Edits (s : Editor) (k : Int) : Prop := s.done = false ∧ s.mode = .insert ∧ ((32 ≤ k ∧ k < 127) ∨ k = 10 ∨ k = 8)

/-- A character is inserted at the cursor, or the line is split there, or the character before it is
deleted, which may join two lines. -/
def Editor.edited (s : Editor) (k : Int) : List CStr :=
  let w := s.rowAt s.cy
  if k = 8 then
    if 0 < s.cx then s.rows.set s.cy (w.eraseIdx (s.cx - 1))
    else if 0 < s.cy then (s.rows.set (s.cy - 1) (s.rowAt (s.cy - 1) ++ w)).eraseIdx s.cy
    else s.rows
  else if k = 10 then (s.rows.take (s.cy + 1) ++ w.drop s.cx :: s.rows.drop (s.cy + 1)).set s.cy (w.take s.cx)
  else s.rows.set s.cy (w.take s.cx ++ chr (Char.ofNat k.toNat) :: w.drop s.cx)

/-- The key leads to a good state, and if it changes the text, it does so as it is to. -/
def Right (path : CStr) (s : Editor) (k : Int) : Prop :=
  ∃ s', viKey path s k = some s' ∧ Good s' ∧ (Edits s k → s'.rows = s.edited k)

/-- Where a key goes right. -/
def Safe (s : Editor) (k : Int) : Prop :=
  s.done = true ∨
  match s.mode with
  | .normal =>
    if s.afterD then
      k = key 'd' → 1 < s.nlines → s.cx ≤ (s.rowAt (if s.cy + 1 < s.nlines then s.cy + 1 else s.cy - 1)).length
    else k = key 'G' → s.cx ≤ (s.rowAt (s.nlines - 1)).length
  | .insert =>
    if k = keyUp then 0 < s.cy → s.cx ≤ (s.rowAt (s.cy - 1)).length
    else if k = keyDown then s.cy + 1 < s.nlines → s.cx ≤ (s.rowAt (s.cy + 1)).length
    else if k = 8 then s.cx = 0 → 0 < s.cy → (s.rowAt (s.cy - 1)).length + (s.rowAt s.cy).length ≤ viCols - 1
    else if k = 10 then s.nlines < viRows + 2
    else if 32 ≤ k ∧ k < 127 then (s.rowAt s.cy).length < viCols - 2
    else True
  | .cmd => True

section Keys

variable {path : CStr} {s s' : Editor} {k : Int} {a : Nat → UInt8} {f : Nat → CStr}

lemma right_iff (hkey : viKey path s k = some s') : Right path s k ↔ Good s' ∧ (Edits s k → s'.rows = s.edited k) := by
  constructor
  · rintro ⟨s'', hs'', h⟩
    obtain rfl : s' = s'' := Option.some.inj (hkey.symm.trans hs'')
    exact h
  · exact fun h => ⟨s', hkey, h⟩

lemma right_of_moves (h : Good s) (hnot : ¬Edits s k) (hres : ∃ s', viKey path s k = some s' ∧ Moves s s') :
    Right path s k := by
  obtain ⟨s', hs', hm⟩ := hres
  exact ⟨s', hs', h.moves hm, fun hedit => absurd hedit hnot⟩

lemma not_edits {m : ViMode} (hmode : s.mode = m) (hm : m ≠ .insert) : ¬Edits s k :=
  fun hedit => hm (hmode.symm.trans hedit.2.1)

/-! ### Command mode -/

lemma cmdKey_moves (path : CStr) (k : Int) (h : Good s) : ∃ s', s.cmdKey path k = some s' ∧ Moves s s' := by
  have hstep := cmdKey_step path s k
  generalize s.cmdKey path k = r at hstep
  cases hstep with
  | stay => exact ⟨_, rfl, rfl, rfl, h.cy_lt, h.cx_le⟩
  | save f hf =>
    rw [Editor.save, dif_pos h.length_text_lt, map_some]
    obtain ⟨mode, cmd, done, hfq⟩ := hf _
    rw [hfq]
    exact ⟨_, rfl, rfl, rfl, h.cy_lt, h.cx_le⟩

/-! ### Normal mode -/

lemma Good.toRow (h : Good s) {r : Nat} (hr : r < s.nlines) : ∃ s', s.toRow r = some s' ∧ Moves s s' := by
  rw [Editor.toRow, h.ksl hr, map_some]
  refine ⟨_, rfl, rfl, rfl, hr, ?_⟩
  split
  next => exact Nat.le_refl _
  next hle => exact Nat.le_of_not_lt hle

/-- The keys of normal mode that go right everywhere and leave the lines alone. -/
lemma normalKey_moves (h : Good s) (hd : s.afterD = false) (hG : k ≠ key 'G') (ho : k ≠ key 'o') (hO : k ≠ key 'O') :
    ∃ s', s.normalKey k = some s' ∧ Moves s s' := by
  have hcy := h.cy_lt
  have hcx := h.cx_le
  have hstep := normalKey_step s k
  generalize s.normalKey k = r at hstep
  cases hstep with
  | stay => exact ⟨_, rfl, rfl, rfl, hcy, hcx⟩
  | left => exact ⟨_, rfl, rfl, rfl, hcy, Nat.le_trans (Nat.sub_le _ _) hcx⟩
  | right =>
    rw [h.ksl hcy, map_some]
    refine ⟨_, rfl, ?_⟩
    split
    next hlt => exact ⟨rfl, rfl, hcy, Nat.le_of_lt hlt⟩
    next => exact ⟨rfl, rfl, hcy, hcx⟩
  | toRow cy hrow => exact h.toRow (hrow hcy)
  | lineStart => exact ⟨_, rfl, rfl, rfl, hcy, Nat.zero_le _⟩
  | lineEnd =>
    rw [h.ksl hcy, map_some]
    exact ⟨_, rfl, rfl, rfl, hcy, Nat.le_refl _⟩
  | last hk => exact absurd hk hG
  | first => exact ⟨_, rfl, rfl, rfl, Nat.lt_of_le_of_lt (Nat.zero_le _) hcy, Nat.zero_le _⟩
  | delete hafter => exact absurd (hd.symm.trans hafter) Bool.false_ne_true
  | below _ hk => exact absurd hk ho
  | above _ hk => exact absurd hk hO

/-- The lines from `top` on move down, and an empty one is put before them, with the cursor on
it. -/
lemma Good.opened (h : Good s) (hroom : s.nlines < viRows + 2) {top : Nat} (htop : top ≤ s.nlines) :
    ∃ s', (Vi.rowsDown top s.nlines s.lines).map (fun a => { s with
      lines := Function.update a (row top) 0, nlines := s.nlines + 1, cy := top, cx := 0
      mode := .insert, modified := true }) = some s' ∧ Good s' := by
  obtain ⟨a', hdown, hgrid⟩ := h.grid.rowsDown top (fun i _ hi => hi) (by omega)
  rw [hdown, map_some]
  refine ⟨_, rfl, (good_iff_of_grid (hgrid.clear.mono fun i hi => ?_) ?_ ?_).mpr (Nat.zero_le _)⟩
  · dsimp only at hi
    omega
  · exact hroom
  · exact Nat.lt_succ_of_le htop

lemma Good.openBelow (h : Good s) : ∃ s', s.openBelow = some s' ∧ Good s' := by
  unfold Editor.openBelow
  split
  next hroom => exact h.opened hroom h.cy_lt
  next => exact ⟨s, rfl, h⟩

lemma Good.openAbove (h : Good s) : ∃ s', s.openAbove = some s' ∧ Good s' := by
  unfold Editor.openAbove
  split
  next hroom => exact h.opened hroom (Nat.le_of_lt h.cy_lt)
  next => exact ⟨s, rfl, h⟩

lemma Grid.closeAt (h : Grid a (· < n) f) (hn : n ≤ viRows + 2) (hi : i < n) :
    ∃ a', Vi.rowsUp i (n - 1 - i) a = some a' ∧
      Grid (Function.update a' (row (n - 1)) 0) (· < n - 1) (shiftDown i (n - 1 - i) f) := by
  obtain ⟨a', hup, hgrid⟩ := h.rowsUp (r := i) (n := n - 1 - i) (fun j _ hj => by omega) (by omega)
  have hclear := (hgrid.clear (r := n - 1)).mono (T := (· < n - 1)) fun j hj => Or.inl (by omega)
  refine ⟨a', hup, fun j hj => ?_, fun j hj => ?_⟩
  · have hholds := hclear.holds j hj
    rwa [update_of_ne (by omega)] at hholds
  · have hshort := hclear.short j hj
    rwa [update_of_ne (by omega)] at hshort

/-- `dd` leaves the column where it was. -/
lemma Good.deleteLine (h : Good s) : ∃ s', s.deleteLine = some s' ∧
      (Good s' ↔
        (1 < s.nlines → s.cx ≤ (s.rowAt (if s.cy + 1 < s.nlines then s.cy + 1 else s.cy - 1)).length)) := by
  have hcy := h.cy_lt
  have hn := h.nlines_le
  unfold Editor.deleteLine
  split
  next hmany =>
    obtain ⟨a', hup, hgrid⟩ := h.grid.closeAt hn hcy
    rw [hup, map_some]
    refine ⟨_, rfl, ?_⟩
    have hlt : (if s.nlines - 1 ≤ s.cy then s.nlines - 1 - 1 else s.cy) < s.nlines - 1 := by
      split <;> omega
    rw [good_iff_of_grid hgrid (by dsimp only; omega) hlt, forall_prop_of_true hmany]
    dsimp only
    by_cases hlast : s.nlines - 1 ≤ s.cy
    · rw [if_pos hlast, if_neg (show ¬s.cy + 1 < s.nlines by omega), shiftDown_apply, if_neg (by omega),
        show s.nlines - 1 - 1 = s.cy - 1 by omega]
    · rw [if_neg hlast, if_pos (show s.cy + 1 < s.nlines by omega), shiftDown_apply, if_pos (by omega)]
  next hone => exact ⟨s, rfl, iff_of_true h (fun hmany => absurd hmany hone)⟩

lemma normalKey_right_iff (h : Good s) (hdone : s.done = false) (hmode : s.mode = .normal) :
    Right path s k ↔ Safe s k := by
  rw [Safe, or_iff_right (Bool.eq_false_iff.mp hdone), hmode]
  dsimp only
  have hcy := h.cy_lt
  have hnot : ¬Edits s k := not_edits hmode (by decide)
  have hkey : viKey path s k = s.normalKey k := by rw [viKey, hdone, if_neg Bool.false_ne_true, hmode]
  have hright : ∀ {s'}, s.normalKey k = some s' → (Right path s k ↔ Good s') := fun {s'} hs' => by
    rw [right_iff (hkey.trans hs')]
    exact and_iff_left fun hedit => absurd hedit hnot
  by_cases hd : s.afterD = true
  · rw [if_pos hd]
    by_cases hk : k = key 'd'
    · have hstate : Good { s with afterD := false } := h.moves ⟨rfl, rfl, hcy, h.cx_le⟩
      obtain ⟨s', hs', hiff⟩ := hstate.deleteLine
      rw [hright (by rw [Editor.normalKey, if_pos hd, if_pos hk, hs']), hiff, forall_prop_of_true hk]
      rfl
    · refine iff_of_true ?_ (fun h => absurd h hk)
      rw [hright (by rw [Editor.normalKey, if_pos hd, if_neg hk])]
      exact h.moves ⟨rfl, rfl, hcy, h.cx_le⟩
  · rw [if_neg hd]
    have hd' : s.afterD = false := Bool.eq_false_iff.mpr hd
    by_cases hG : k = key 'G'
    · subst hG
      have hs' : s.normalKey (key 'G') = some { s with cy := s.nlines - 1 } := by
        rw [Editor.normalKey, hd']
        rfl
      rw [hright hs', forall_prop_of_true rfl]
      refine h.move_iff rfl rfl ?_
      dsimp only
      omega
    refine iff_of_true ?_ (fun h => absurd h hG)
    by_cases ho : k = key 'o'
    · obtain ⟨s', hs', hgood⟩ := h.openBelow
      have hs'' : s.normalKey k = some s' := by
        rw [ho, Editor.normalKey, hd', ← hs']
        rfl
      exact (hright hs'').mpr hgood
    by_cases hO : k = key 'O'
    · obtain ⟨s', hs', hgood⟩ := h.openAbove
      have hs'' : s.normalKey k = some s' := by
        rw [hO, Editor.normalKey, hd', ← hs']
        rfl
      exact (hright hs'').mpr hgood
    obtain ⟨s', hs', hm⟩ := normalKey_moves h hd' hG ho hO
    exact (hright hs').mpr (h.moves hm)

/-! ### Insert mode -/

/-- The keys of insert mode that only move the cursor, and look where it goes. -/
lemma insertKey_moves (h : Good s) (hup : k ≠ keyUp) (hdown : k ≠ keyDown) (hback : k ≠ 8) (henter : k ≠ 10)
    (hchar : ¬(32 ≤ k ∧ k < 127)) : ∃ s', s.insertKey k = some s' ∧ Moves s s' := by
  have hcy := h.cy_lt
  have hcx := h.cx_le
  have hstep := insertKey_step s k
  generalize s.insertKey k = r at hstep
  cases hstep with
  | left => exact ⟨_, rfl, rfl, rfl, hcy, Nat.le_trans (Nat.sub_le _ _) hcx⟩
  | right =>
    rw [h.ksl hcy, map_some]
    refine ⟨_, rfl, ?_⟩
    split
    next hlt => exact ⟨rfl, rfl, hcy, hlt⟩
    next => exact ⟨rfl, rfl, hcy, hcx⟩
  | up hk => exact absurd hk hup
  | down hk => exact absurd hk hdown
  | lineStart => exact ⟨_, rfl, rfl, rfl, hcy, Nat.zero_le _⟩
  | lineEnd =>
    rw [h.ksl hcy, map_some]
    exact ⟨_, rfl, rfl, rfl, hcy, Nat.le_refl _⟩
  | backspace hk => exact absurd hk hback
  | split hk => exact absurd hk henter
  | char hk => exact absurd hk hchar
  | stay => exact ⟨_, rfl, rfl, rfl, hcy, hcx⟩

lemma Good.written (h : Good s) {a' : Nat → UInt8}
    (hframe : ∀ i d, i ≠ s.cy → d < viCols → a' (row i + d) = s.lines (row i + d)) (ht : Holds 0 a' (row s.cy) t)
    (hlen : t.length ≤ viCols - 1) (hlines : s'.lines = a') (hnlines : s'.nlines = s.nlines) (hcy : s'.cy = s.cy)
    (hcx : s'.cx ≤ t.length) : Good s' ∧ s'.rows = s.rows.set s.cy t := by
  have hgrid : Grid s'.lines (· < s'.nlines) (Function.update s.rowAt s.cy t) := by
    rw [hlines, hnlines]
    exact (h.grid.write hframe ht hlen).mono fun i hi => Or.inl hi
  have hn : s'.nlines ≤ viRows + 2 := hnlines ▸ h.nlines_le
  refine ⟨(good_iff_of_grid hgrid hn (by rw [hcy, hnlines]; exact h.cy_lt)).mpr ?_, ?_⟩
  · rw [hcy, update_self]
    exact hcx
  · rw [rows_eq_of_grid hgrid hn, hnlines, map_range_update]
    rfl

lemma Good.insertChar (h : Good s) (hroom : (s.rowAt s.cy).length < viCols - 2) (c : CChar) :
    ∃ s', s.insertChar c.val = some s' ∧ Good s' ∧
      s'.rows = s.rows.set s.cy ((s.rowAt s.cy).take s.cx ++ c :: (s.rowAt s.cy).drop s.cx) := by
  have hcy := h.cy_lt
  have hcx := h.cx_le
  have hn := h.nlines_le
  have hlen : ((s.rowAt s.cy).take s.cx ++ c :: (s.rowAt s.cy).drop s.cx).length = (s.rowAt s.cy).length + 1 := by
    rw [length_append, length_take_of_le hcx, length_cons, length_drop]
    omega
  rw [Editor.insertChar, h.ksl hcy, bind_some, if_pos hroom, if_pos (row_lt (by omega) (by omega))]
  refine ⟨_, rfl, h.written ?_ ((h.grid.holds s.cy hcy).insert hcx c) (by rw [hlen]; omega) rfl rfl rfl ?_⟩
  · intro i d hi hd
    have hat := row_apart hi hd (show s.cx < viCols by omega)
    have hend := row_apart hi hd (show (s.rowAt s.cy).length + 1 < viCols by omega)
    rw [update_of_ne (by rwa [Nat.add_assoc]), update_of_ne hat, shiftUp_apply, if_neg]
    unfold row viCols at *
    omega
  · rw [hlen]
    dsimp only
    omega

lemma Good.backspace_char (h : Good s) (hpos : 0 < s.cx) :
    ∃ s', s.backspace = some s' ∧ Good s' ∧ s'.rows = s.rows.set s.cy ((s.rowAt s.cy).eraseIdx (s.cx - 1)) := by
  have hcy := h.cy_lt
  have hcx := h.cx_le
  have hshort := h.grid.short s.cy hcy
  have hlen : ((s.rowAt s.cy).eraseIdx (s.cx - 1)).length = (s.rowAt s.cy).length - 1 := by
    rw [length_eraseIdx, if_pos (by omega)]
  rw [Editor.backspace, if_pos hpos, h.ksl hcy, map_some]
  refine ⟨_, rfl, h.written ?_ ((h.grid.holds s.cy hcy).erase (p := s.cx - 1) (by omega))
    (by rw [hlen]; omega) rfl rfl rfl ?_⟩
  · intro i d hi hd
    rw [shiftDown_apply, if_neg]
    unfold row viCols at *
    omega
  · rw [hlen]
    dsimp only
    omega

lemma Good.backspace_join (h : Good s) (hcx : s.cx = 0) (hpos : 0 < s.cy)
    (hfit : (s.rowAt (s.cy - 1)).length + (s.rowAt s.cy).length ≤ viCols - 1) : ∃ s', s.backspace = some s' ∧ Good s' ∧
      s'.rows = (s.rows.set (s.cy - 1) (s.rowAt (s.cy - 1) ++ s.rowAt s.cy)).eraseIdx s.cy := by
  have hcols : viCols = 78 := rfl
  have hcells : viCells = 1872 := rfl
  have hcy := h.cy_lt
  have hn := h.nlines_le
  have hprev : s.cy - 1 < s.nlines := by omega
  have hapart : row (s.cy - 1) + (s.rowAt (s.cy - 1)).length + (s.rowAt s.cy).length < row s.cy := by
    unfold row viCols at *
    omega
  have hcopy := kcpCells_eq (h.grid.holds s.cy hcy) _ viCells (Or.inl hapart) (row_lt (by omega) (by omega))
    (hapart.trans (row_start_lt (by omega))) (by omega)
  have hjoined := (h.grid.write (write_frame hfit) (holds_append (h.grid.holds (s.cy - 1) hprev).cell)
    (by rw [length_append]; exact hfit)).mono (T := (· < s.nlines)) fun i hi => Or.inl hi
  obtain ⟨a', hup, hgrid⟩ := hjoined.closeAt hn hcy
  rw [Editor.backspace, if_neg (by omega), if_pos hpos, h.ksl hprev, bind_some, hcopy, bind_some, hup,
    map_some]
  refine ⟨_, rfl, (good_iff_of_grid hgrid ?_ ?_).mpr ?_, ?_⟩
  · dsimp only
    omega
  · dsimp only
    omega
  · dsimp only
    rw [shiftDown_apply, if_neg (by omega), update_self, length_append]
    exact Nat.le_add_right _ _
  · refine (rows_eq_of_grid hgrid ?_).trans ?_
    · dsimp only
      omega
    · rw [map_range_erase _ hcy, map_range_update]
      rfl

lemma Good.splitLine (h : Good s) (hroom : s.nlines < viRows + 2) : ∃ s', s.splitLine = some s' ∧ Good s' ∧
      s'.rows = (s.rows.take (s.cy + 1) ++ (s.rowAt s.cy).drop s.cx :: s.rows.drop (s.cy + 1)).set s.cy
        ((s.rowAt s.cy).take s.cx) := by
  have hcols : viCols = 78 := rfl
  have hcells : viCells = 1872 := rfl
  have hcy := h.cy_lt
  have hcx := h.cx_le
  have hshort := h.grid.short s.cy hcy
  have hdrop : ((s.rowAt s.cy).drop s.cx).length = (s.rowAt s.cy).length - s.cx := length_drop
  obtain ⟨a₁, hdown, hmoved⟩ := h.grid.rowsDown (s.cy + 1) (fun i _ hi => hi) (show s.nlines < viRows + 4 by omega)
  have hline : shiftUp (s.cy + 1) s.nlines s.rowAt s.cy = s.rowAt s.cy := by
    rw [shiftUp_apply, if_neg (by omega)]
  have hholds : Holds 0 a₁ (row s.cy) (s.rowAt s.cy) := hline ▸ hmoved.holds s.cy (Or.inl hcy)
  have hapart : row s.cy + s.cx + ((s.rowAt s.cy).drop s.cx).length < row (s.cy + 1) := by
    unfold row viCols at *
    omega
  have hcopy := kcpCells_eq (hholds.drop hcx) (row (s.cy + 1)) viCells (Or.inr hapart)
    (hapart.trans (row_start_lt (by omega))) (row_lt (by omega) (by omega)) (by omega)
  have hbelow := hmoved.write (write_frame (c := 0) (r := s.cy + 1) (by omega))
    (holds_write a₁ (row (s.cy + 1)) ((s.rowAt s.cy).drop s.cx)) (by omega)
  have hline' := hbelow.holds s.cy (Or.inl (Or.inl hcy))
  rw [update_of_ne (by omega), hline] at hline'
  have htake : ((s.rowAt s.cy).take s.cx).length ≤ viCols - 1 := (length_take_le ..).trans (by omega)
  have hgrid := (hbelow.write (r := s.cy) (fun i d hi hd => update_of_ne (row_apart hi hd (by omega)) _ _)
    (hline'.cut hcx) htake).mono (T := (· < s.nlines + 1)) fun i hi => by omega
  rw [Editor.splitLine, if_pos hroom, hdown, bind_some, hcopy, map_some]
  refine ⟨_, rfl, (good_iff_of_grid hgrid ?_ ?_).mpr (Nat.zero_le _), ?_⟩
  · exact hroom
  · dsimp only
    omega
  · refine (rows_eq_of_grid hgrid ?_).trans ?_
    · exact hroom
    rw [map_range_update, map_range_insert _ (by omega)]
    rfl

lemma edited_char (hk : 32 ≤ k ∧ k < 127) : s.edited k = s.rows.set s.cy
      ((s.rowAt s.cy).take s.cx ++ chr (Char.ofNat k.toNat) :: (s.rowAt s.cy).drop s.cx) := by
  unfold Editor.edited
  rw [if_neg (by omega), if_neg (by omega)]

lemma edited_join (hcx : s.cx = 0) (hpos : 0 < s.cy) :
    s.edited 8 = (s.rows.set (s.cy - 1) (s.rowAt (s.cy - 1) ++ s.rowAt s.cy)).eraseIdx s.cy := by
  unfold Editor.edited
  rw [if_pos rfl, if_neg (by omega), if_pos hpos]

lemma viKey_insert (hdone : s.done = false) (hmode : s.mode = .insert) : viKey path s k = s.insertKey k := by
  rw [viKey, hdone, if_neg Bool.false_ne_true, hmode]

section Insert

variable (h : Good s) (hdone : s.done = false) (hmode : s.mode = .insert)
include h hdone hmode

/-- A character is typed where the line has room, and lost where it has not. -/
lemma char_right_iff (hk : 32 ≤ k ∧ k < 127) :
    Right path s k ↔ (s.rowAt s.cy).length < viCols - 2 := by
  have hcy := h.cy_lt
  have hkey : viKey path s k = s.insertChar (UInt8.ofNat k.toNat) := by
    rw [viKey_insert hdone hmode]
    unfold Editor.insertKey keyLeft keyRight keyUp keyDown keyHome keyEnd
    rw [if_neg (by omega), if_neg (by omega), if_neg (by omega), if_neg (by omega),
      if_neg (by omega), if_neg (by omega),
      if_neg (by omega), if_neg (by omega), if_neg (by omega), if_pos hk]
  rw [← val_chr_ofNat (by omega) (by omega)] at hkey
  constructor
  · intro hright
    by_contra hfull
    have hs : s.insertChar (chr (Char.ofNat k.toNat)).val = some s := by
      rw [Editor.insertChar, h.ksl hcy, bind_some, if_neg hfull]
    have hrows := ((right_iff (hkey.trans hs)).mp hright).2 ⟨hdone, hmode, Or.inl hk⟩
    have hget := congrArg (fun l => l[s.cy]?.map List.length) hrows
    rw [edited_char hk] at hget
    rw [getElem?_set_self (by rw [s.length_rows]; exact hcy), Editor.rows, getElem?_map_range, if_pos hcy] at hget
    simp at hget
    omega
  · intro hroom
    obtain ⟨s', hs', hgood, hrows⟩ := h.insertChar hroom (chr (Char.ofNat k.toNat))
    exact ⟨s', hkey.trans hs', hgood, fun _ => hrows.trans (edited_char hk).symm⟩

lemma enter_right_iff :
    Right path s 10 ↔ s.nlines < viRows + 2 := by
  have hkey : viKey path s 10 = s.splitLine := viKey_insert hdone hmode
  constructor
  · rintro ⟨s', -, hgood, hedit⟩
    have hlen := congrArg length (hedit ⟨hdone, hmode, Or.inr (Or.inl rfl)⟩)
    have hn := hgood.nlines_le
    have hlong : (s.edited 10).length = s.nlines + 1 := by
      change List.length (List.set _ _ _) = _
      rw [length_set, length_append, length_cons, length_take, length_drop, s.length_rows]
      omega
    rw [hlong, s'.length_rows] at hlen
    omega
  · intro hroom
    obtain ⟨s', hs', hgood, hrows⟩ := h.splitLine hroom
    exact ⟨s', hkey.trans hs', hgood, fun _ => hrows⟩

lemma backspace_right_iff : Right path s 8 ↔
      (s.cx = 0 → 0 < s.cy → (s.rowAt (s.cy - 1)).length + (s.rowAt s.cy).length ≤ viCols - 1) := by
  have hcy := h.cy_lt
  have hkey : viKey path s 8 = s.backspace := viKey_insert hdone hmode
  rcases Nat.eq_zero_or_pos s.cx with hcx | hcx
  · rcases Nat.eq_zero_or_pos s.cy with hfirst | hpos
    · refine iff_of_true ⟨s, ?_, h, fun _ => ?_⟩ (fun _ hpos => absurd hfirst (Nat.ne_of_gt hpos))
      · rw [hkey, Editor.backspace, if_neg (by omega), if_neg (by omega)]
      · unfold Editor.edited
        rw [if_pos rfl, if_neg (by omega), if_neg (by omega)]
    · rw [forall_prop_of_true hcx, forall_prop_of_true hpos]
      constructor
      · rintro ⟨s', -, hgood, hedit⟩
        have hmem : s.rowAt (s.cy - 1) ++ s.rowAt s.cy ∈ s'.rows := by
          rw [hedit ⟨hdone, hmode, Or.inr (Or.inr rfl)⟩, edited_join hcx hpos]
          refine mem_of_getElem? (i := s.cy - 1) ?_
          rw [getElem?_eraseIdx_of_lt (by omega), getElem?_set_self (by rw [s.length_rows]; omega)]
        rw [← length_append]
        exact hgood.length_le hmem
      · intro hfit
        obtain ⟨s', hs', hgood, hrows⟩ := h.backspace_join hcx hpos hfit
        exact ⟨s', hkey.trans hs', hgood, fun _ => hrows.trans (edited_join hcx hpos).symm⟩
  · refine iff_of_true ?_ (fun hzero => absurd hzero (Nat.ne_of_gt hcx))
    obtain ⟨s', hs', hgood, hrows⟩ := h.backspace_char hcx
    refine ⟨s', hkey.trans hs', hgood, fun _ => hrows.trans ?_⟩
    unfold Editor.edited
    rw [if_pos rfl, if_pos hcx]

/-- An arrow takes the cursor to another line, if there is one, and leaves its column. -/
lemma arrow_right_iff (hk : k < 0) {cy : Nat} {P : Prop} [Decidable P] (hcy : P → cy < s.nlines)
    (hkey : s.insertKey k = some (if P then { s with cy := cy } else s)) :
    Right path s k ↔ (P → s.cx ≤ (s.rowAt cy).length) := by
  have hnot : ¬Edits s k := by
    rintro ⟨-, -, hedit⟩
    omega
  rw [right_iff ((viKey_insert hdone hmode).trans hkey), and_iff_left (fun hedit => absurd hedit hnot)]
  split
  next hP =>
    rw [forall_prop_of_true hP]
    exact h.move_iff rfl rfl (hcy hP)
  next hP => exact iff_of_true h (fun hP' => absurd hP' hP)

lemma insertKey_right_iff : Right path s k ↔ Safe s k := by
  rw [Safe, or_iff_right (Bool.eq_false_iff.mp hdone), hmode]
  dsimp only
  have hcy := h.cy_lt
  have hkey : viKey path s k = s.insertKey k := viKey_insert hdone hmode
  by_cases hup : k = keyUp
  · subst hup
    rw [if_pos rfl]
    exact arrow_right_iff h hdone hmode (by decide) (fun _ => by omega) rfl
  rw [if_neg hup]
  by_cases hdown : k = keyDown
  · subst hdown
    rw [if_pos rfl]
    exact arrow_right_iff h hdone hmode (by decide) id rfl
  rw [if_neg hdown]
  by_cases hback : k = 8
  · subst hback
    rw [if_pos rfl]
    exact backspace_right_iff h hdone hmode
  rw [if_neg hback]
  by_cases henter : k = 10
  · subst henter
    rw [if_pos rfl]
    exact enter_right_iff h hdone hmode
  rw [if_neg henter]
  by_cases hchar : 32 ≤ k ∧ k < 127
  · rw [if_pos hchar]
    exact char_right_iff h hdone hmode hchar
  rw [if_neg hchar]
  refine iff_of_true ?_ trivial
  obtain ⟨s', hs', hm⟩ := insertKey_moves h hup hdown hback henter hchar
  refine right_of_moves h ?_ ⟨s', hkey.trans hs', hm⟩
  rintro ⟨-, -, hedit⟩
  exact hedit.elim hchar (fun hedit => hedit.elim henter hback)

end Insert

/-- **One key.** From a good state it goes right exactly where it is safe. -/
theorem right_iff_safe (h : Good s) : Right path s k ↔ Safe s k := by
  by_cases hdone : s.done = true
  · refine iff_of_true ?_ (Or.inl hdone)
    refine ⟨s, if_pos hdone, h, ?_⟩
    rintro ⟨hrun, -⟩
    exact absurd (hdone.symm.trans hrun) (by decide)
  · have hrun : s.done = false := Bool.eq_false_iff.mpr hdone
    cases hmode : s.mode with
    | normal => exact normalKey_right_iff h hrun hmode
    | insert => exact insertKey_right_iff h hrun hmode
    | cmd =>
      refine iff_of_true ?_ (Or.inr (by rw [hmode]; trivial))
      obtain ⟨s', hs', hm⟩ := cmdKey_moves path k h
      refine right_of_moves h (not_edits hmode (by decide)) ⟨s', ?_, hm⟩
      rw [viKey, hrun, if_neg Bool.false_ne_true, hmode]
      exact hs'

lemma along_iff_machine {P : Editor → Int → Prop} : Along path P s keys ↔ Machine.Along (viKey path) P s keys := by
  induction keys generalizing s with
  | nil => exact Iff.rfl
  | cons k ks ih => exact and_congr_right fun _ => forall_congr' fun s' => imp_congr_right fun _ => ih

lemma along_right_iff (h : Good s) : Along path (Right path) s keys ↔ Along path Safe s keys := by
  rw [along_iff_machine, along_iff_machine]
  refine Machine.along_iff Good (fun s k hs => right_iff_safe hs) ?_ h keys
  exact fun s k s' _ hright hs' => ((right_iff hs').mp hright).1

end Keys

/-! ## Sessions -/

lemma grid_ne_nil (k : Nat) {ws : List CStr} (hws : ws ≠ []) : 0 < (grid k ws).length := by
  rw [length_pos_iff]
  intro hnil
  have hget := getElem?_grid k hws 0
  rw [hnil] at hget
  obtain ⟨w, ws, rfl⟩ := exists_cons_of_ne_nil hws
  simp at hget

lemma good_viOpen (texts : VNode → Option CStr) (junk : Nat → UInt8) (fs : Pigfs) (path : CStr) :
    Good (viOpen texts junk fs path) := by
  obtain ⟨hload, hn⟩ := loaded_open texts junk fs path
  have hpos : 0 < (viOpen texts junk fs path).nlines := by
    rw [hn]
    exact grid_ne_nil _ (linesOf_ne_nil _)
  have hgrid : Grid (viOpen texts junk fs path).lines (· < (viOpen texts junk fs path).nlines)
      (fun r => (grid (viRows + 1) (linesOf (viText texts fs path))).getD r []) := by
    have hrow : ∀ r < (viOpen texts junk fs path).nlines,
        (grid (viRows + 1) (linesOf (viText texts fs path)))[r]? =
          some ((grid (viRows + 1) (linesOf (viText texts fs path))).getD r []) := by
      intro r hr
      rw [hn] at hr
      rw [getD_eq_getElem?_getD, getElem?_eq_getElem hr]
      rfl
    exact ⟨fun r hr => (hload.holds r _ (hrow r hr)).1, fun r hr => (hload.holds r _ (hrow r hr)).2⟩
  exact (good_iff_of_grid hgrid (hn ▸ hload.count) hpos).mpr (Nat.zero_le _)

/-- **`pi` keeps its cursor and its rows, and edits the text at the cursor**, exactly in the
sessions whose keys are all pressed where they are safe. -/
theorem vi_right_iff (texts : VNode → Option CStr) (junk : Nat → UInt8) (fs : Pigfs) (path : CStr) (keys : List Int) :
    Good (viOpen texts junk fs path) ∧
      (Along path (Right path) (viOpen texts junk fs path) keys ↔ Along path Safe (viOpen texts junk fs path) keys) :=
  ⟨good_viOpen texts junk fs path, along_right_iff (good_viOpen texts junk fs path)⟩

lemma oinkLine_lt : (cstr "oink\n").length < contentField := by decide

/-- A line and an empty one. -/
def oinkLine : Content := ⟨cstr "oink\n", oinkLine_lt⟩

lemma rows_oinkLine : kslAt (opened oinkLine).lines (row 0) = some 4 ∧ ((opened oinkLine).rowAt 1).length = 0 ∧
    (opened oinkLine).nlines = 2 := by
  decide +kernel

/-- From the end of the first line `G` goes to column 4 of an empty one; what is typed there is not
in the text. -/
theorem vi_types_beside_line :
    (viKeys (cstr "/a") (opened oinkLine) [key '$', key 'G', key 'i', key 'x']).map (fun s => (s.cy, s.cx, s.rows)) =
        some (1, 5, [cstr "oink", []]) ∧
      ¬Along (cstr "/a") (Right (cstr "/a")) (opened oinkLine) [key '$', key 'G', key 'i', key 'x'] := by
  refine ⟨by decide +kernel, fun halong => ?_⟩
  rw [opened, along_right_iff (good_viOpen ..)] at halong
  obtain ⟨hend, hempty, hn⟩ := rows_oinkLine
  have hdollar : viKey (cstr "/a") (opened oinkLine) (key '$') = some { opened oinkLine with cx := 4 } := by
    have hkey : (opened oinkLine).normalKey (key '$') =
        (kslAt (opened oinkLine).lines (row 0)).map fun l => { opened oinkLine with cx := l } := by
      rw [Editor.normalKey, if_neg (by decide)]
      rfl
    exact hkey.trans (hend ▸ rfl)
  have hsafe : Safe { opened oinkLine with cx := 4 } (key 'G') := (halong.2 _ hdollar).1
  have hle : 4 ≤ ((opened oinkLine).rowAt ((opened oinkLine).nlines - 1)).length := hsafe.resolve_left (by decide) rfl
  rw [hn, hempty] at hle
  omega

end Vi
end PigOS.Shell
