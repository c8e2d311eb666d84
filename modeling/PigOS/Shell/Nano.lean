import PigOS.Lib.Cells
import PigOS.Shell.Dispatch
import PigOS.Shell.FsCommands

/-!
# `Shell.Nano` — the editor `pnano` of `shell/shell.h`

The text is the first `elen` bytes of the array `ebuf`; `cur` is the cursor. The question that `^X`
asks about a modified text takes a key of its own, so that the loop has a state in which it is
waiting for the answer. The screen is left out. The texts of the read-only files are a parameter,
and so is what `ebuf` holds behind the text that is copied into it.
-/

namespace PigOS.Shell
namespace Nano

open Kernel

/-- `sizeof(ebuf)`. -/
def nanoBuf : Nat := 2048

/-- The length from which on nothing is inserted. -/
def nanoMax : Nat := 2046

/-- The variables of `cmd_nano`, and the file system. -/
structure Editor where
  ebuf : Nat → UInt8
  elen : Nat
  cur : Nat
  modified : Bool
  /-- `^X` has asked whether to save, and the answer is awaited -/
  asking : Bool
  /-- the loop was left: the keys are the shell's again -/
  done : Bool
  fs : Pigfs

/-- The text that is edited. -/
def Editor.text (s : Editor) : List UInt8 := (List.range s.elen).map s.ebuf

/-! ## Opening a file -/

/-- What is read into `buf`. -/
def nanoText (texts : VNode → Option CStr) (fs : Pigfs) (path : CStr) : CStr :=
  match fileText fs path with
  | some t => t
  | none =>
    match (fsFindVnode fs path).bind texts with
    | some t => if t.length < nanoBuf - 1 then t else []
    | none => []

/-- `cmd_nano` up to its loop. -/
def nanoOpen (texts : VNode → Option CStr) (junk : Nat → UInt8) (fs : Pigfs) (path : CStr) : Editor :=
  let buf := nanoText texts fs path
  -- `kcp(ebuf,buf)`, and the cursor goes to the end
  ⟨Function.update (Cells.writeList junk 0 (buf.map Subtype.val)) buf.length 0, buf.length,
    buf.length, false, false, false, fs⟩

/-! ## The ends of lines -/

/-- `for(int i=pos;i>0;i--) if(buf[i-1]=='\n') return i;` and 0 behind it. -/
def lineStartLoop (buf : Nat → UInt8) : Nat → Nat
  | 0 => 0
  | i + 1 => if buf i = newline.val then i + 1 else lineStartLoop buf i

def nanoFindLineStart (buf : Nat → UInt8) (pos : Nat) : Nat := lineStartLoop buf pos

/-- `for(int i=pos;i<len;i++) if(buf[i]=='\n') return i;` and `len` behind it, for `n` rounds. -/
def lineEndLoop (buf : Nat → UInt8) (len : Nat) : Nat → Nat → Nat
  | 0, _ => len
  | n + 1, i => if buf i = newline.val then i else lineEndLoop buf len n (i + 1)

def nanoFindLineEnd (buf : Nat → UInt8) (len pos : Nat) : Nat := lineEndLoop buf len (len - pos) pos

/-- The loop is that of `nano_find_line_start`, from the byte before the separator on. -/
def nanoFindPrevLineStart (buf : Nat → UInt8) (pos : Nat) : Nat :=
  if pos ≤ 0 then 0 else lineStartLoop buf (pos - 1)

/-! ## The keys -/

def Editor.up (s : Editor) : Editor :=
  let lineStart := nanoFindLineStart s.ebuf s.cur
  if 0 < lineStart then
    let prevLineStart := nanoFindPrevLineStart s.ebuf lineStart
    let prevLineLen : Int := (lineStart : Int) - prevLineStart - 1
    let col : Int := (s.cur : Int) - lineStart
    let col := if prevLineLen < col then prevLineLen else col
    let cur : Int := prevLineStart + col
    { s with cur := (if cur < 0 then 0 else cur).toNat }
  else s

def Editor.down (s : Editor) : Editor :=
  let lineEnd := nanoFindLineEnd s.ebuf s.elen s.cur
  if lineEnd < s.elen then
    let nextLineStart := lineEnd + 1
    let thisLineStart := nanoFindLineStart s.ebuf s.cur
    let col : Int := (s.cur : Int) - thisLineStart
    let nextLineLen : Int := (nanoFindLineEnd s.ebuf s.elen nextLineStart : Int) - nextLineStart
    let col := if nextLineLen < col then nextLineLen else col
    let cur : Int := nextLineStart + col
    { s with cur := (if (s.elen : Int) < cur then (s.elen : Int) else cur).toNat }
  else s

def Editor.insertChar (s : Editor) (c : UInt8) : Editor :=
  { s with
    ebuf := Function.update (Cells.shiftUp s.cur s.elen s.ebuf) s.cur c, elen := s.elen + 1,
    cur := s.cur + 1, modified := true }

def Editor.backspace (s : Editor) : Editor :=
  { s with
    ebuf := Cells.shiftDown (s.cur - 1) (s.elen - 1 - (s.cur - 1)) s.ebuf, elen := s.elen - 1, cur := s.cur - 1
    modified := true }

def Editor.delete (s : Editor) : Editor :=
  { s with ebuf := Cells.shiftDown s.cur (s.elen - 1 - s.cur) s.ebuf, elen := s.elen - 1, modified := true }

/-- The string in `ebuf`. -/
def stringIn (a : Nat → UInt8) : CStr := Cells.textAt 0 a (nanoBuf - 1) 0

lemma length_stringIn_lt (a : Nat → UInt8) : (stringIn a).length < contentField :=
  Nat.lt_of_le_of_lt (Cells.length_textAt_le 0 a (nanoBuf - 1) 0) (by decide)

/-- `nano_save`: the flag is cleared whatever `memfs_create` returns. -/
def Editor.save (path : CStr) (s : Editor) : Editor :=
  let ebuf := Function.update s.ebuf s.elen 0
  { s with ebuf := ebuf, fs := saveFile s.fs path ⟨stringIn ebuf, length_stringIn_lt ebuf⟩, modified := false }

/-- The answer to the question of `^X`. After a `y` the text is saved, and editing goes on. -/
def Editor.answer (path : CStr) (s : Editor) (k : Int) : Editor :=
  if k = 121 ∨ k = 89 then { s with asking := false }.save path
  else if k = 99 ∨ k = 67 then { s with asking := false }
  else { s with asking := false, done := true }

def Editor.editKey (path : CStr) (s : Editor) (k : Int) : Editor :=
  if k = 24 then if s.modified then { s with asking := true } else { s with done := true }
  else if k = 15 then s.save path
  else if k = 7 then s
  else if k = keyLeft then if 0 < s.cur then { s with cur := s.cur - 1 } else s
  else if k = keyRight then if s.cur < s.elen then { s with cur := s.cur + 1 } else s
  else if k = keyUp then s.up
  else if k = keyDown then s.down
  else if 32 ≤ k ∧ k < 127 ∧ s.elen < nanoMax then s.insertChar (UInt8.ofNat k.toNat)
  else if k = 10 ∧ s.elen < nanoMax then s.insertChar newline.val
  else if k = 8 ∧ 0 < s.cur then s.backspace
  else if k = 127 then if s.cur < s.elen then s.delete else s
  else s

/-- One key. -/
def nanoKey (path : CStr) (s : Editor) (k : Int) : Editor :=
  if s.done then s else if s.asking then s.answer path k else s.editKey path k

def nanoKeys (path : CStr) : Editor → List Int → Editor := List.foldl (nanoKey path)

end Nano
end PigOS.Shell
