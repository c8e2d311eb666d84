import PigOS.Lib.Cells
import PigOS.Shell.Dispatch
import PigOS.Shell.FsCommands

/-!
# `Shell.Vi` — the editor `pi` of `shell/vi.h`

The text is in `lines[VI_ROWS+4][VI_COLS]`, 24 rows of 78 bytes one after the other: a column past
the end of a row is a column of the next one. The model has the array as it is, with the bytes that
were in it before. Where something is read or written outside the array, or outside `content`, a key
has no result. The screen is left out; the texts of the read-only files are a parameter.
-/

namespace PigOS.Shell
namespace Vi

open Kernel

def viRows : Nat := 20
def viCols : Nat := 78
def viBufMax : Nat := 4096

/-- The size of `lines`. -/
def viCells : Nat := (viRows + 4) * viCols

def keyHome : Int := -15
def keyEnd : Int := -16

/-- The key of a character. -/
def key (c : Char) : Int := c.toNat

inductive ViMode where
  | normal | insert | cmd
  deriving DecidableEq

/-- The variables of `cmd_vi`, and the file system. -/
structure Editor where
  lines : Nat → UInt8
  nlines : Nat
  cy : Nat
  cx : Nat
  mode : ViMode
  /-- a `d` was pressed, and the key behind it is awaited -/
  afterD : Bool
  /-- `cmd_buf` -/
  cmd : CStr
  modified : Bool
  /-- `vi_done` was reached: the keys are the shell's again -/
  done : Bool
  fs : Pigfs

/-! ## Strings in the array -/

/-- The index of a row's first cell. -/
def row (r : Nat) : Nat := r * viCols

/-- The string that starts at a cell. -/
def stringFrom (a : Nat → UInt8) (i : Nat) : CStr := Cells.textAt 0 a (viCells - i) i

/-- `ksl`; there is no result where the array has no terminator. -/
def kslAt (a : Nat → UInt8) (i : Nat) : Option Nat :=
  let l := (stringFrom a i).length
  if i + l < viCells then some l else none

/-- `kcp` inside the array. It reads the bytes it has written where the strings overlap. -/
def kcpCells : Nat → Nat → Nat → (Nat → UInt8) → Option (Nat → UInt8)
  | 0, _, _, _ => none
  | fuel + 1, dst, src, a =>
    if viCells ≤ dst ∨ viCells ≤ src then none
    else if a src = 0 then some (Function.update a dst 0)
    else kcpCells fuel (dst + 1) (src + 1) (Function.update a dst (a src))

/-- `kcp(lines[dst],lines[src]);` -/
def copyRow (dst src : Nat) (a : Nat → UInt8) : Option (Nat → UInt8) := kcpCells viCells (row dst) (row src) a

/-- `for(;r<cy+n;r++) kcp(lines[r],lines[r+1]);` from `r=cy` on. -/
def rowsUp (r : Nat) : Nat → (Nat → UInt8) → Option (Nat → UInt8)
  | 0, a => some a
  | n + 1, a => (copyRow r (r + 1) a).bind (rowsUp (r + 1) n)

/-- `for(r=nlines;r>top;r--) kcp(lines[r],lines[r-1]);` -/
def rowsDown (top : Nat) : Nat → (Nat → UInt8) → Option (Nat → UInt8)
  | 0, a => some a
  | r + 1, a => if top < r + 1 then (copyRow (r + 1) r a).bind (rowsDown top r) else some a

/-! ## Opening a file -/

/-- The loop that splits the text into lines. -/
def viSplit : CStr → (Nat → UInt8) → Nat → Nat → (Nat → UInt8) × Nat
  | [], a, nlines, _ => (a, nlines)
  | c :: t, a, nlines, col =>
    if nlines < viRows + 2 then
      if c = newline then viSplit t (Function.update a (row (nlines - 1) + col) 0) (nlines + 1) 0
      else if col < viCols - 1 then
        viSplit t (Function.update (Function.update a (row (nlines - 1) + col) c) (row (nlines - 1) + col + 1) 0)
          nlines (col + 1)
      else viSplit t a nlines col
    else (a, nlines)

/-- `for(int i=0;i<VI_ROWS+3;i++) lines[i][0]=0;` -/
def clearRows (junk : Nat → UInt8) : Nat → UInt8 :=
  fun j => if j % viCols = 0 ∧ j / viCols < viRows + 3 then 0 else junk j

/-- What is read into `vi_buf`. -/
def viText (texts : VNode → Option CStr) (fs : Pigfs) (path : CStr) : CStr :=
  match fileText fs path with
  | some t => t
  | none =>
    match (fsFindVnode fs path).bind texts with
    | some t => if t.length < viBufMax - 1 then t else []
    | none => []

/-- `cmd_vi` up to its loop. -/
def viOpen (texts : VNode → Option CStr) (junk : Nat → UInt8) (fs : Pigfs) (path : CStr) : Editor :=
  let r := viSplit (viText texts fs path) (clearRows junk) 1 0
  ⟨r.1, r.2, 0, 0, .normal, false, [], false, false, fs⟩

/-! ## Normal mode -/

/-- `dd` -/
def Editor.deleteLine (s : Editor) : Option Editor :=
  if 1 < s.nlines then
    (rowsUp s.cy (s.nlines - 1 - s.cy) s.lines).map fun a =>
      let n := s.nlines - 1
      { s with
        lines := Function.update a (row n) 0, nlines := n, modified := true, cy := if n ≤ s.cy then n - 1 else s.cy }
  else some s

def Editor.openBelow (s : Editor) : Option Editor :=
  if s.nlines < viRows + 2 then
    (rowsDown (s.cy + 1) s.nlines s.lines).map fun a =>
      { s with
        lines := Function.update a (row (s.cy + 1)) 0, nlines := s.nlines + 1, cy := s.cy + 1, cx := 0
        mode := .insert, modified := true }
  else some s

def Editor.openAbove (s : Editor) : Option Editor :=
  if s.nlines < viRows + 2 then
    (rowsDown s.cy s.nlines s.lines).map fun a =>
      { s with
        lines := Function.update a (row s.cy) 0, nlines := s.nlines + 1, cx := 0, mode := .insert, modified := true }
  else some s

/-- The cursor goes to another row, and no further right than its end. -/
def Editor.toRow (s : Editor) (cy : Nat) : Option Editor :=
  (kslAt s.lines (row cy)).map fun l => { s with cy := cy, cx := if l < s.cx then l else s.cx }

def Editor.normalKey (s : Editor) (k : Int) : Option Editor :=
  if s.afterD then
    if k = key 'd' then { s with afterD := false }.deleteLine else some { s with afterD := false }
  else if k = key 'i' then some { s with mode := .insert }
  else if k = key ':' then some { s with mode := .cmd, cmd := [] }
  else if k = key 'h' ∨ k = keyLeft then some { s with cx := s.cx - 1 }
  else if k = key 'l' ∨ k = keyRight then
    (kslAt s.lines (row s.cy)).map fun l => if s.cx + 1 < l then { s with cx := s.cx + 1 } else s
  else if k = key 'k' ∨ k = keyUp then if 0 < s.cy then s.toRow (s.cy - 1) else some s
  else if k = key 'j' ∨ k = keyDown then if s.cy + 1 < s.nlines then s.toRow (s.cy + 1) else some s
  else if k = key '0' then some { s with cx := 0 }
  else if k = key '$' then (kslAt s.lines (row s.cy)).map fun l => { s with cx := l }
  else if k = key 'G' then some { s with cy := s.nlines - 1 }
  else if k = key 'g' then some { s with cy := 0, cx := 0 }
  else if k = key 'd' then some { s with afterD := true }
  else if k = key 'o' then s.openBelow
  else if k = key 'O' then s.openAbove
  else some s

/-! ## Insert mode -/

def Editor.backspace (s : Editor) : Option Editor :=
  if 0 < s.cx then
    (kslAt s.lines (row s.cy)).map fun l =>
      let i := s.cx - 1
      { s with lines := Cells.shiftDown (row s.cy + i) (l - i) s.lines, cx := i, modified := true }
  else if 0 < s.cy then
    (kslAt s.lines (row (s.cy - 1))).bind fun plen =>
      (kcpCells viCells (row (s.cy - 1) + plen) (row s.cy) s.lines).bind fun a =>
        (rowsUp s.cy (s.nlines - 1 - s.cy) a).map fun a =>
          { s with
            lines := Function.update a (row (s.nlines - 1)) 0, nlines := s.nlines - 1, cy := s.cy - 1, cx := plen
            modified := true }
  else some s

/-- Enter splits the line at the cursor. -/
def Editor.splitLine (s : Editor) : Option Editor :=
  if s.nlines < viRows + 2 then
    (rowsDown (s.cy + 1) s.nlines s.lines).bind fun a =>
      (kcpCells viCells (row (s.cy + 1)) (row s.cy + s.cx) a).map fun a =>
        { s with
          lines := Function.update a (row s.cy + s.cx) 0, nlines := s.nlines + 1, cy := s.cy + 1, cx := 0
          modified := true }
  else some s

def Editor.insertChar (s : Editor) (c : UInt8) : Option Editor :=
  (kslAt s.lines (row s.cy)).bind fun l =>
    if l < viCols - 2 then
      if row s.cy + s.cx < viCells then
        let a := Cells.shiftUp (row s.cy + s.cx) (row s.cy + l) s.lines
        let a := Function.update (Function.update a (row s.cy + s.cx) c) (row s.cy + l + 1) 0
        some { s with lines := a, cx := s.cx + 1, modified := true }
      else none
    else some s

def Editor.insertKey (s : Editor) (k : Int) : Option Editor :=
  if k = 27 then some { s with mode := .normal, cx := s.cx - 1 }
  else if k = keyLeft then some { s with cx := s.cx - 1 }
  else if k = keyRight then
    (kslAt s.lines (row s.cy)).map fun l => if s.cx < l then { s with cx := s.cx + 1 } else s
  -- the column is not looked at here
  else if k = keyUp then some (if 0 < s.cy then { s with cy := s.cy - 1 } else s)
  else if k = keyDown then some (if s.cy + 1 < s.nlines then { s with cy := s.cy + 1 } else s)
  else if k = keyHome then some { s with cx := 0 }
  else if k = keyEnd then (kslAt s.lines (row s.cy)).map fun l => { s with cx := l }
  else if k = 8 then s.backspace
  else if k = 10 then s.splitLine
  else if 32 ≤ k ∧ k < 127 then s.insertChar (UInt8.ofNat k.toNat)
  else some s

/-! ## Command mode -/

/-- What is put together in `out_buf`. -/
def Editor.text (s : Editor) : CStr :=
  (List.range s.nlines).flatMap fun r =>
    stringFrom s.lines (row r) ++ if r < s.nlines - 1 then [newline] else []

def Editor.save (path : CStr) (s : Editor) : Option Editor :=
  if h : s.text.length < contentField then
    some { s with fs := saveFile s.fs path ⟨s.text, h⟩, modified := false }
  else none

def Editor.execute (path : CStr) (s : Editor) : Option Editor :=
  if ksc s.cmd (cstr "q!") = 0 ∨ ksc s.cmd (cstr "q") = 0 then some { s with done := true }
  else if ksc s.cmd (cstr "w") = 0 ∨ ksc s.cmd (cstr "wq") = 0 ∨ ksc s.cmd (cstr "x") = 0 then
    (s.save path).map fun s =>
      if ksc s.cmd (cstr "wq") = 0 ∨ ksc s.cmd (cstr "x") = 0 then { s with done := true }
      else { s with mode := .normal, cmd := [] }
  else some { s with mode := .normal, cmd := [] }

def Editor.cmdKey (path : CStr) (s : Editor) (k : Int) : Option Editor :=
  if k = 27 then some { s with mode := .normal, cmd := [] }
  else if k = 10 then s.execute path
  else if k = 8 then some { s with cmd := s.cmd.dropLast }
  else if 32 ≤ k ∧ k < 127 ∧ s.cmd.length < 63 then some { s with cmd := s.cmd ++ [chr (Char.ofNat k.toNat)] }
  else some s

/-! ## The loop -/

def viKey (path : CStr) (s : Editor) (k : Int) : Option Editor :=
  if s.done then some s
  else
    match s.mode with
    | .normal => s.normalKey k
    | .insert => s.insertKey k
    | .cmd => s.cmdKey path k

def viKeys (path : CStr) : Editor → List Int → Option Editor
  | s, [] => some s
  | s, k :: ks => (viKey path s k).bind fun s => viKeys path s ks

end Vi
end PigOS.Shell
