import PigOS.Kernel.Listing
import PigOS.Shell.Dispatch

/-!
# `Shell.Grep` — `grep` in files

`Shell.Dispatch` has the flags, the test of a line and the search in the pipe; this is the rest of
`fs_grep`. The texts of the read-only table are a parameter, `none` for `NULL`. A line number is
written into an array of eight bytes; one that does not fit there is `none`.
-/

namespace PigOS.Shell

open Kernel

/-! ## A text -/

/-- `sizeof` of the array for a line number. -/
def numberBuf : Nat := 8

/-- What `grep_line` prints of a line it has found. -/
def grepHit (g : GrepArgs) (fname line : CStr) (lineno : Nat) : List Emission :=
  if g.list then [.vps fname, .vpc newline]
  else
    (if fname ≠ [] then [.vps fname, .vps (cstr ":")] else []) ++
    (if g.linenum then [.vps (kiaNat lineno), .vps (cstr ":")] else []) ++
    (line.map .vpc ++ [.vpc newline])

/-- `grep_line`: what it prints, and `grep_found`. -/
def grepLine (g : GrepArgs) (fname line : CStr) (lineno found : Nat) : Option (List Emission × Nat) :=
  if grepMatches g (line.map Subtype.val) then
    -- `kia(lineno,lb)`
    if g.list = false ∧ g.linenum = true ∧ numberBuf ≤ (kiaNat lineno).length then none
    else some (grepHit g fname line lineno, found + 1)
  else some ([], found)

/-- The loop of `grep_content`, from a line on. Every round takes at least one byte off the text. -/
def grepLines (g : GrepArgs) (fname : CStr) : Nat → CStr → Nat → Nat → Option (List Emission × Nat)
  | 0, _, _, found => some ([], found)
  | k + 1, text, lineno, found =>
    if text = [] then some ([], found)
    else
      let line := text.takeWhile (· ≠ newline)
      match grepLine g fname line (lineno + 1) found with
      | none => none
      | some (out, found) =>
        (grepLines g fname k (text.drop (line.length + 1)) (lineno + 1) found).map fun r => (out ++ r.1, r.2)

def grepContent (g : GrepArgs) (fname content : CStr) (found : Nat) : Option (List Emission × Nat) :=
  grepLines g fname (content.length + 1) content 0 found

/-! ## The texts that are searched -/

/-- A call of `grep_content`: where the text is from, the name printed before lines, and the
text. -/
structure GrepCall where
  path : CStr
  fname : CStr
  content : CStr
  deriving DecidableEq

/-- The test of a path against the directory `path`, byte by byte. -/
def grepBelow (path fp : CStr) : Bool :=
  decide (path.length < fp.length) && decide (fp[path.length]? = some slash) &&
    (List.range path.length).all fun j => fp[j]? = path[j]?

/-- A node of the read-only table that passes the test `p`. -/
def grepVnode (texts : VNode → Option CStr) (fs : Pigfs) (p : CStr → Bool) (cut : Nat) (n : VNode) : Option GrepCall :=
  if n.isDir || fsIsDeleted fs n.path then none
  else if p n.path then (texts n).map fun c => ⟨n.path, n.path.drop cut, c⟩
  else none

/-- A slot of `memfs` that passes the test `p`. -/
def grepSlot (p : CStr → Bool) (cut : Nat) (m : MemFile) : Option GrepCall :=
  if m.used = 0 ∨ m.isDir = true then none
  else if p m.cpath then some ⟨m.cpath, m.cpath.drop cut, m.content.val⟩
  else none

/-- The two loops over the tables. -/
def grepTables (texts : VNode → Option CStr) (fs : Pigfs) (p : CStr → Bool) (cut : Nat) : List GrepCall :=
  vfs.filterMap (grepVnode texts fs p cut) ++ fs.memfs.filterMap (grepSlot p cut)

/-- The calls of `grep_content` that `fs_grep` makes, or what it reports. `path` is 256 bytes. -/
def grepCalls (texts : VNode → Option CStr) (fs : Pigfs) (cwd : CStr) (g : GrepArgs) : Except CStr (List GrepCall) :=
  if g.file = [] then .ok (grepTables texts fs (fun _ => true) 0)
  else
    let path := fsResolve cwd g.file pathBuf
    let vn := fsFindVnode fs path
    if vn.any (·.isDir) then .ok (grepTables texts fs (grepBelow path) path.length)
    else
      match memfsAt fs path with
      | some m => .ok [⟨path, g.file, m.content.val⟩]
      | none =>
        match vn.bind texts with
        | some c => .ok [⟨path, g.file, c⟩]
        | none => .error (cstr "grep: " ++ g.file ++ cstr ": No such file\n")

end PigOS.Shell
