import PigOS.Lib.Cells
import PigOS.Lib.Machine

/-!
# `Drivers.Vga` — the console of `drivers/vga/vga.h`

The screen and the scrollback are arrays of rows. The loops over the columns of a row copy the row.
The hardware cursor is left out.
-/

namespace PigOS.Drivers

/-- `VGA_W` cells, each a character with its colours. -/
abbrev Row := Fin 80 → UInt16

/-- `ENT` -/
def ent (c col : UInt8) : UInt16 := c.toUInt16 ||| (col.toUInt16 <<< 8)

/-- `COL` -/
def col (fg bg : UInt8) : UInt8 := fg ||| (bg <<< 4)

def blankRow (vc : UInt8) : Row := fun _ => ent 32 vc

def setCell (row : Row) (x : Nat) (v : UInt16) : Row := fun i => if i.val = x then v else row i

/-- `VGA_MEM`, `vx`, `vy`, `vc`, `scrollback`, `scrollback_pos` and `scrollback_count`. -/
structure Vga where
  mem : Nat → Row
  vx : Nat
  vy : Nat
  vc : UInt8
  scrollback : Nat → Row
  pos : Nat
  count : Nat

/-- `vat` -/
def vat (s : Vga) (c col : UInt8) (x y : Nat) : Vga :=
  if x ≥ 80 ∨ y ≥ 25 then s else { s with mem := Function.update s.mem y (setCell (s.mem y) x (ent c col)) }

/-- `vscroll` -/
def vscroll (s : Vga) : Vga :=
  { s with
    scrollback := Function.update s.scrollback s.pos (s.mem 0)
    pos := (s.pos + 1) % 100
    count := if s.count < 100 then s.count + 1 else s.count
    mem := Function.update (Cells.shiftDown 0 24 s.mem) 24 (blankRow s.vc)
    vy := 24 }

/-- `vscroll_up` -/
def vscrollUp (s : Vga) : Vga :=
  if s.count = 0 then s
  else
    { s with
      mem := Function.update (Cells.shiftUp 0 24 s.mem) 0 (s.scrollback ((s.pos + 100 - s.count) % 100))
      vy := 0 }

/-- `vscroll_down` -/
def vscrollDown (s : Vga) : Vga :=
  if s.count = 0 then s
  else { s with mem := Function.update (Cells.shiftDown 0 24 s.mem) 24 (blankRow s.vc), vy := 24 }

/-- `vx=0; if(++vy>=VGA_H)vscroll();` -/
def newRow (s : Vga) : Vga :=
  let s := { s with vx := 0, vy := s.vy + 1 }
  if s.vy ≥ 25 then vscroll s else s

/-- `vpc` -/
def vpc (s : Vga) (c : UInt8) : Vga :=
  if c = 10 then newRow s
  else if c = 13 then { s with vx := 0 }
  else if c = 8 then
    if s.vx > 0 then vat { s with vx := s.vx - 1 } 32 s.vc (s.vx - 1) s.vy else s
  else if c = 9 then
    -- `(vx+8)&~7`
    let s := { s with vx := (s.vx + 8) / 8 * 8 }
    if s.vx ≥ 80 then newRow s else s
  else
    let s := vat s c s.vc s.vx s.vy
    let s := { s with vx := s.vx + 1 }
    if s.vx ≥ 80 then newRow s else s

inductive ConsoleInput where
  | byte (c : UInt8)
  | colour (fg bg : UInt8)

/-- `vpc` or `vset` -/
def vgaStep (s : Vga) : ConsoleInput → Unit × Vga
  | .byte c => ((), vpc s c)
  | .colour fg bg => ((), { s with vc := col fg bg })

/-- After `vga_init`, with an empty scrollback. -/
def vgaReady (scrollback : Nat → Row) : Vga := ⟨fun _ => blankRow (col 15 0), 0, 0, col 15 0, scrollback, 0, 0⟩

end PigOS.Drivers
