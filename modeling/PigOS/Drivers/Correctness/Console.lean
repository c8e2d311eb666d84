import Mathlib.Logic.Function.Iterate
import PigOS.Drivers.Vga
import PigOS.Lib.Ring

/-!
# `Drivers.Correctness.Console` — the console and a terminal that keeps all rows

The screen is the last 25 rows of the terminal, and the scrollback the last hundred of those before
them (`console_refines`). The keys that look at the scrollback fetch the same row again and again,
and what they push off at the bottom is lost (`scroll_iff`).
-/

namespace PigOS.Drivers

open Function

/-! ## The terminal -/

/-- All rows so far, the column and row of the cursor, and the colours. -/
structure Term where
  row : Nat → Row
  height : Nat
  x : Nat
  y : Nat
  colour : UInt8

def Term.put (t : Term) (x : Nat) (c : UInt8) : Term :=
  { t with row := Function.update t.row t.y (setCell (t.row t.y) x (ent c t.colour)) }

/-- To the beginning of the next row, which appears blank if it is not there yet. -/
def Term.down (t : Term) : Term :=
  if t.y + 1 = t.height then
    { t with row := Function.update t.row t.height (blankRow t.colour), height := t.height + 1, x := 0, y := t.y + 1 }
  else { t with x := 0, y := t.y + 1 }

/-- To a column; behind the last one a new row begins. -/
def Term.goto (t : Term) (x : Nat) : Term := if x < 80 then { t with x := x } else t.down

def termStep (t : Term) : ConsoleInput → Unit × Term
  | .colour fg bg => ((), { t with colour := col fg bg })
  | .byte c => ((),
    if c = 10 then t.down
    else if c = 13 then t.goto 0
    else if c = 8 then (if t.x = 0 then t else (t.put (t.x - 1) 32).goto (t.x - 1))
    -- to the next multiple of 8
    else if c = 9 then t.goto ((t.x / 8 + 1) * 8)
    else (t.put t.x c).goto (t.x + 1))

def termReady : Term := ⟨fun _ => blankRow (col 15 0), 25, 0, 0, col 15 0⟩

/-! ## Refinement -/

/-- The rows in the scrollback, the oldest first. -/
def Vga.kept (s : Vga) (i : Nat) : Row := s.scrollback ((s.pos + 100 - s.count + i) % 100)

/-- The console shows the end of the terminal. -/
structure Shows (s : Vga) (t : Term) : Prop where
  vx : s.vx < 80
  vy : s.vy < 25
  screen : ∀ r < 25, s.mem r = t.row (t.height - 25 + r)
  count : s.count = min 100 (t.height - 25)
  kept : ∀ i < s.count, s.kept i = t.row (t.height - 25 - s.count + i)

/-- `Shows`, with where the cursor is and how the ring is filled. -/
structure Mirrors (s : Vga) (t : Term) : Prop where
  vx : s.vx < 80
  vy : s.vy < 25
  x : t.x = s.vx
  y : t.y = t.height - 25 + s.vy
  height : 25 ≤ t.height
  colour : t.colour = s.vc
  screen : ∀ r < 25, s.mem r = t.row (t.height - 25 + r)
  count : s.count = min 100 (t.height - 25)
  pos : s.pos = (t.height - 25) % 100
  ring : ∀ g < t.height - 25, t.height - 25 ≤ g + 100 → s.scrollback (g % 100) = t.row g

variable {s : Vga} {t : Term}

lemma Mirrors.shows (h : Mirrors s t) : Shows s t := by
  refine ⟨h.vx, h.vy, h.screen, h.count, fun i hi => ?_⟩
  have hcount := h.count
  have hpos := h.pos
  have hidx : (s.pos + 100 - s.count + i) % 100 = (t.height - 25 - s.count + i) % 100 := by omega
  rw [Vga.kept, hidx]
  exact h.ring _ (by omega) (by omega)

lemma Mirrors.scroll (h : Mirrors s t) (hy : s.vy = 24) : Mirrors (newRow s) t.down := by
  have hyt := h.y
  have hheight := h.height
  have hcount := h.count
  have hpos := h.pos
  have hnew : newRow s = vscroll { s with vx := 0, vy := s.vy + 1 } := if_pos (show s.vy + 1 ≥ 25 by omega)
  have hdown : t.down = { t with
      row := Function.update t.row t.height (blankRow t.colour), height := t.height + 1, x := 0, y := t.y + 1 } :=
    if_pos (by omega)
  rw [hnew, hdown]
  refine ⟨Nat.succ_pos _, Nat.lt_succ_self 24, rfl, ?_, Nat.le_succ_of_le hheight, h.colour, ?_, ?_, ?_, ?_⟩
  · simp only [vscroll]
    omega
  · intro r hr
    simp only [vscroll]
    rcases Nat.lt_or_eq_of_le (Nat.le_of_lt_succ hr) with hlt | rfl
    · rw [update_of_ne (by omega), Cells.shiftDown_apply, if_pos (by omega), h.screen _ (by omega),
        update_of_ne (by omega)]
      congr 1
      omega
    · rw [update_self, show t.height + 1 - 25 + 24 = t.height by omega, update_self, h.colour]
  · simp only [vscroll]
    split <;> omega
  · simp only [vscroll]
    omega
  · intro g hg hnear
    dsimp only at hg hnear
    simp only [vscroll]
    rw [update_of_ne (show g ≠ t.height by omega)]
    by_cases hlast : g = t.height - 25
    · rw [hlast, hpos, update_self, h.screen 0 (by decide), Nat.add_zero]
    · have hne : (t.height - 25) % 100 ≠ g % 100 := Ring.mod_ne (by omega) (by omega)
      rw [hpos, update_of_ne hne.symm, h.ring g (by omega) (by omega)]

lemma Mirrors.newRow (h : Mirrors s t) : Mirrors (newRow s) t.down := by
  by_cases hy : s.vy = 24
  · exact h.scroll hy
  · have hvy := h.vy
    have hyt := h.y
    have hheight := h.height
    have hnew : Drivers.newRow s = { s with vx := 0, vy := s.vy + 1 } := if_neg (show ¬ s.vy + 1 ≥ 25 by omega)
    have hdown : t.down = { t with x := 0, y := t.y + 1 } := if_neg (by omega)
    rw [hnew, hdown]
    refine ⟨Nat.succ_pos _, ?_, rfl, ?_, hheight, h.colour, h.screen, h.count, h.pos, h.ring⟩
    · show s.vy + 1 < 25
      omega
    · show t.y + 1 = t.height - 25 + (s.vy + 1)
      omega

lemma vat_with_vx (c col : UInt8) (x y vx : Nat) :
    vat { s with vx := vx } c col x y = { vat s c col x y with vx := vx } := by
  unfold vat
  split
  · rfl
  · rfl

lemma vat_vx (c col : UInt8) (x y : Nat) : (vat s c col x y).vx = s.vx := by
  unfold vat
  split
  · rfl
  · rfl

lemma Mirrors.goto (h : Mirrors s t) (x : Nat) :
    Mirrors (if x ≥ 80 then Drivers.newRow { s with vx := x } else { s with vx := x }) (t.goto x) := by
  by_cases hx : x < 80
  · rw [if_neg (by omega), Term.goto, if_pos hx]
    exact { h with vx := hx, x := rfl }
  · rw [if_pos (by omega), Term.goto, if_neg hx]
    exact h.newRow

lemma Mirrors.put (h : Mirrors s t) {x : Nat} (hx : x < 80) (c : UInt8) :
    Mirrors (vat s c s.vc x s.vy) (t.put x c) := by
  have hvy := h.vy
  have hy := h.y
  rw [vat, if_neg (by omega)]
  refine { h with screen := fun r hr => ?_, ring := fun g hg hnear => ?_ }
  · by_cases hrow : r = s.vy
    · rw [hrow, Term.put, ← hy]
      simp only [update_self]
      rw [h.screen _ hvy, ← hy, h.colour]
    · simp only [Term.put]
      rw [update_of_ne hrow, update_of_ne (by omega), h.screen r hr]
  · have hg' : g < t.height - 25 := hg
    simp only [Term.put]
    rw [update_of_ne (by omega)]
    exact h.ring g hg hnear

lemma Mirrors.step (h : Mirrors s t) (i : ConsoleInput) : Mirrors (vgaStep s i).2 (termStep t i).2 := by
  have hvx := h.vx
  cases i with
  | colour fg bg => exact { h with colour := rfl }
  | byte c =>
    simp only [vgaStep, termStep, vpc, h.x]
    split
    · exact h.newRow
    split
    · exact h.goto 0
    split
    · by_cases hzero : s.vx = 0
      · rw [if_neg (by omega), if_pos hzero]
        exact h
      · rw [if_pos (by omega), if_neg hzero, vat_with_vx]
        have hput := (h.put (show s.vx - 1 < 80 by omega) 32).goto (s.vx - 1)
        rwa [if_neg (by omega)] at hput
    split
    · have htab := h.goto ((s.vx + 8) / 8 * 8)
      rwa [show (s.vx + 8) / 8 = s.vx / 8 + 1 by omega] at htab ⊢
    · rw [vat_vx]
      exact (h.put hvx c).goto (s.vx + 1)

lemma mirrors_run (scrollback : Nat → Row) (is : List ConsoleInput) :
    Mirrors (Machine.exec vgaStep (vgaReady scrollback) is) (Machine.exec termStep termReady is) := by
  have hstart : Mirrors (vgaReady scrollback) termReady :=
    ⟨Nat.succ_pos 79, Nat.succ_pos 24, rfl, rfl, by decide, rfl, fun _ _ => rfl, rfl, rfl,
      fun g hg => absurd hg (Nat.not_lt_zero g)⟩
  revert hstart
  generalize vgaReady scrollback = s
  generalize termReady = t
  induction is generalizing s t with
  | nil => exact id
  | cons i is ih => exact fun h => ih _ _ (h.step i)

/-- **The console shows the terminal** after every output. -/
theorem console_refines (scrollback : Nat → Row) (is : List ConsoleInput) :
    Shows (Machine.exec vgaStep (vgaReady scrollback) is) (Machine.exec termStep termReady is) :=
  (mirrors_run scrollback is).shows

/-! ## Looking back -/

/-- What scrolling leaves alone. -/
structure SameHistory (s s' : Vga) : Prop where
  vc : s'.vc = s.vc
  count : s'.count = s.count
  kept : s'.kept 0 = s.kept 0

lemma ups (hcount : s.count ≠ 0) (n : Nat) : SameHistory s (vscrollUp^[n] s) ∧
    ∀ r < 25, (vscrollUp^[n] s).mem r = if r < n then s.kept 0 else s.mem (r - n) := by
  induction n with
  | zero => exact ⟨⟨rfl, rfl, rfl⟩, fun r _ => rfl⟩
  | succ n ih =>
    obtain ⟨hsame, hmem⟩ := ih
    rw [iterate_succ_apply', vscrollUp, if_neg (hsame.count.symm ▸ hcount)]
    refine ⟨⟨hsame.vc, hsame.count, hsame.kept⟩, fun r hr => ?_⟩
    by_cases hzero : r = 0
    · simp only [hzero, update_self]
      exact hsame.kept
    · simp only [update_of_ne hzero]
      rw [Cells.shiftUp_apply, if_pos (by omega), hmem _ (by omega), show r - 1 - n = r - (n + 1) by omega]
      exact if_congr (by omega) rfl rfl

lemma downs (hcount : s.count ≠ 0) (n : Nat) : SameHistory s (vscrollDown^[n] s) ∧
    ∀ r < 25, (vscrollDown^[n] s).mem r = if r + n < 25 then s.mem (r + n) else blankRow s.vc := by
  induction n with
  | zero => exact ⟨⟨rfl, rfl, rfl⟩, fun r hr => (if_pos hr).symm⟩
  | succ n ih =>
    obtain ⟨hsame, hmem⟩ := ih
    rw [iterate_succ_apply', vscrollDown, if_neg (hsame.count.symm ▸ hcount)]
    refine ⟨⟨hsame.vc, hsame.count, hsame.kept⟩, fun r hr => ?_⟩
    by_cases hlast : r = 24
    · simp only [hlast, update_self]
      rw [if_neg (by omega), hsame.vc]
    · simp only [update_of_ne hlast]
      rw [Cells.shiftDown_apply, if_pos (by omega), hmem _ (by omega), show r + 1 + n = r + (n + 1) by omega]

/-- Going back by `n` rows shows the rows from `n` above the screen on, and coming back the
screen. -/
def ScrollsBack (s : Vga) (t : Term) (n : Nat) : Prop :=
  (∀ r < 25, (vscrollUp^[n] s).mem r = t.row (t.height - 25 - n + r)) ∧
  ∀ r < 25, (vscrollDown^[n] (vscrollUp^[n] s)).mem r = s.mem r

/-- **Looking back** by `n` rows is right exactly when the rows that should appear are all like the
oldest one in the scrollback, and the rows pushed off at the bottom are blank. -/
theorem scroll_iff (scrollback : Nat → Row) (is : List ConsoleInput) (n : Nat)
    (hk : 1 ≤ (Machine.exec termStep termReady is).height - 25)
    (hn : n ≤ min ((Machine.exec termStep termReady is).height - 25) 100) :
    let s := Machine.exec vgaStep (vgaReady scrollback) is
    let t := Machine.exec termStep termReady is
    ScrollsBack s t n ↔
      (∀ r < 25, r < n → t.row (t.height - 25 - n + r) = t.row (t.height - 25 - min 100 (t.height - 25))) ∧
      ∀ r < 25, 25 ≤ r + n → s.mem r = blankRow s.vc := by
  intro s t
  have h : Mirrors s t := mirrors_run scrollback is
  change 1 ≤ t.height - 25 at hk
  change n ≤ min (t.height - 25) 100 at hn
  have hcount := h.count
  have hne : s.count ≠ 0 := by omega
  have hkept : s.kept 0 = t.row (t.height - 25 - min 100 (t.height - 25)) := by
    rw [h.shows.kept 0 (by omega), hcount, Nat.add_zero]
  obtain ⟨hsame, hup⟩ := ups hne n
  refine and_congr (forall₂_congr fun r hr => ?_) (forall₂_congr fun r hr => ?_)
  · rw [hup r hr]
    by_cases hlt : r < n
    · rw [if_pos hlt, hkept, eq_comm]
      exact ⟨fun heq _ => heq, fun heq => heq hlt⟩
    · rw [if_neg hlt, h.screen _ (by omega), show t.height - 25 + (r - n) = t.height - 25 - n + r by omega]
      exact iff_of_true rfl fun hr => absurd hr hlt
  · rw [(downs (hsame.count.symm ▸ hne) n).2 r hr, hsame.vc]
    by_cases hlt : r + n < 25
    · rw [if_pos hlt, hup _ hlt, if_neg (by omega), Nat.add_sub_cancel]
      exact iff_of_true rfl fun hge => absurd hlt (Nat.not_lt.mpr hge)
    · rw [if_neg hlt, eq_comm]
      exact ⟨fun heq _ => heq, fun heq => heq (Nat.not_lt.mp hlt)⟩

/-- Two letters and a row below them. -/
def twoRows : List ConsoleInput := [.byte 72, .byte 105, .byte 10, .byte 33] ++ List.replicate 24 (.byte 10)

/-- The row with the letters has gone off, and comes back. -/
theorem scroll_text : ScrollsBack (Machine.exec vgaStep (vgaReady fun _ => blankRow 0) twoRows)
    (Machine.exec termStep termReady twoRows) 1 := by
  refine (scroll_iff (fun _ => blankRow 0) twoRows 1 (by decide +kernel) (by decide +kernel)).mpr ⟨?_, ?_⟩
  · intro r _ hr
    rw [Nat.lt_one_iff.mp hr]
    exact funext (by decide +kernel)
  · intro r hr hge
    rw [show r = 24 by omega]
    exact funext (by decide +kernel)

/-- A letter in the last row is not there when the screen comes back. -/
theorem scroll_loses :
    (Machine.exec termStep termReady (List.replicate 25 (.byte 10) ++ [.byte 66])).height - 25 = 1 ∧
    ¬ ScrollsBack (Machine.exec vgaStep (vgaReady fun _ => blankRow 0) (List.replicate 25 (.byte 10) ++ [.byte 66]))
      (Machine.exec termStep termReady (List.replicate 25 (.byte 10) ++ [.byte 66])) 1 := by
  refine ⟨by decide +kernel, fun h => ?_⟩
  have hlast := congrFun (h.2 24 (by decide)) 0
  exact absurd hlast (by decide +kernel)

end PigOS.Drivers
