import PigOS.Kernel.Listing
import PigOS.Lib.Cells
import PigOS.Shell.Dispatch

/-!
# `Shell.Lash` — the line editor of `shell/lash.h`

The line is the array `input` with the length `ilen` and the cursor `cur`; where the source leaves
one of them behind, so does the model. A key that would write outside `input` or `lash_comp_input`
has no result.

What is drawn is left out, and with it `lash_comp_ilen` and `lash_comp_pos`, which are set before
anything else reads them. What `sh_dispatch` does is a parameter: of all it changes, the editor sees
the history and the installed commands. `lash_find_completions` is in two parts:
`lashFindCompletions` for the commands, and `lashFindCompletionsAll` with the file names behind
them, which it looks for where the word has a space; the word of the line editor has none.
-/

namespace PigOS.Shell
namespace Lash

open Kernel

def lashHistMax : Nat := 64
def tabCompleteMax : Nat := 64

/-- A line of the history, which fits its row of `lash_hist`. -/
abbrev HistLine := { t : CStr // t.length < shBuf }

/-! ## Texts in arrays -/

/-- The bytes of a string. -/
def bytes (t : CStr) : List UInt8 := t.map Subtype.val

/-- A string in an array of `SH_BUF` cells. -/
def stringIn (a : Nat → UInt8) : CStr := Cells.textAt 0 a (shBuf - 1) 0

lemma length_stringIn_lt (a : Nat → UInt8) : (stringIn a).length < shBuf :=
  Nat.lt_of_le_of_lt (Cells.length_textAt_le 0 a (shBuf - 1) 0) (by decide)

/-! ## Completions -/

def lashCompletions : List CStr := List.map cstr [
  "help", "ls", "cd", "cat", "echo", "pwd", "mkdir", "rmdir", "rm", "cp", "mv",
  "chmod", "chown", "touch", "grep", "find", "tar", "gzip", "gunzip",
  "apt", "apt-get", "dpkg", "make", "gcc", "g++", "python", "python3",
  "git", "npm", "node", "curl", "wget", "ssh", "scp", "rsync",
  "systemctl", "service", "journalctl", "ps", "top", "htop",
  "kill", "killall", "pkill", "bg", "fg", "jobs",
  "alias", "unalias", "export", "unset", "env",
  "ifconfig", "ip", "ping", "route", "netstat", "traceroute",
  "pi", "pnano", "pivi", "emacs",
  "clear", "date", "whoami", "uname", "hostname", "uptime",
  "pigfetch", "wm", "snake", "tetris", "matrix", "fortune",
  "adduser", "passwd", "su", "sudo", "useradd", "userdel", "usermod",
  "pigcrypt", "pighash", "pigkey",
  "rpk", "menuconfig",
  "exit", "logout", "reboot", "shutdown", "halt", "poweroff",
  "mount", "umount", "df", "du", "free", "lsblk"]

/-- A command and a word agree as far as both go. -/
def agrees : CStr → CStr → Bool
  | c :: cs, p :: ps => c = p && agrees cs ps
  | _, _ => true

def lashFindCompletions (rpkCmds : List CStr) (word : CStr) : List CStr :=
  if word = [] then []
  else
    let own := (lashCompletions.filter (agrees · word)).take tabCompleteMax
    let installed := rpkCmds.filter (fun c => !lashCompletions.any (fun l => ksc l c = 0) && agrees c word)
    own ++ installed.take (tabCompleteMax - own.length)

/-- `filt`: what stands behind the first space, up to index 63. -/
def fileFilter (word : CStr) : CStr := (word.take 64).drop (word.findIdx (· = space) + 1)

/-- A file name begins with the filter, whatever the case of the letters. -/
def filterMatches (filt fn : CStr) : Bool :=
  filt.length ≤ fn.length && (filt.zip fn).all (fun p => lowerByte p.2.val = lowerByte p.1.val)

/-- The loop over the paths of `VFS`. -/
def lashFindFiles (filt : CStr) : List VNode → List CStr → List CStr
  | [], found => found
  | v :: vs, found =>
    if found.length < tabCompleteMax - 1 then
      let fn := lastName v.path
      if v.path.head? ≠ some slash ∨ fn = [] ∨ !filterMatches filt fn ∨ found.any (fun c => ksc c fn = 0) then
        lashFindFiles filt vs found
      else lashFindFiles filt vs (found ++ [fn])
    else found

/-- `lash_find_completions` as a whole. -/
def lashFindCompletionsAll (rpkCmds : List CStr) (word : CStr) : List CStr :=
  if word = [] then []
  else
    let found := lashFindCompletions rpkCmds word
    if space ∈ word then lashFindFiles (fileFilter word) vfs found else found

/-! ## The state -/

structure Loop where
  input : Nat → UInt8
  ilen : Nat
  cur : Nat
  /-- `lash_hi_cur`, which is -1 where no line of the history is up -/
  hiCur : Option Nat
  hist : List HistLine
  /-- `rpk_installed_cmds` -/
  rpkCmds : List CStr
  /-- `lash_comp_shown` -/
  shown : Bool
  /-- the first `lash_comp_count` of `lash_comp_candidates` -/
  found : List CStr
  compInput : Nat → UInt8

/-- The state at a prompt: the arrays are clear. -/
def Loop.prompt (hist : List HistLine) (rpkCmds : List CStr) : Loop :=
  ⟨fun _ => 0, 0, 0, none, hist, rpkCmds, false, [], fun _ => 0⟩

/-- The contents of the line: the first `ilen` cells. -/
def Loop.line (s : Loop) : List UInt8 := (List.range s.ilen).map s.input

/-- A text replaces the line. -/
def Loop.load (s : Loop) (t : CStr) : Loop :=
  { s with
    input := Function.update (Cells.writeList s.input 0 (bytes t)) t.length 0, ilen := t.length, cur := t.length }

/-- `lash_comp_shown = 0; lash_comp_count = 0;` -/
def Loop.hideList (s : Loop) : Loop := { s with shown := false, found := [] }

def lashPushHist (hist : List HistLine) (t : HistLine) : List HistLine :=
  if t.val.length = 0 then hist
  else if hist.getLast?.any (fun l => ksc l.val t.val = 0) then hist
  else if hist.length < lashHistMax then hist ++ [t]
  else hist.drop 1 ++ [t]

/-! ## The keys -/

/-- The first candidate replaces what is behind the first space of the saved line, or else the
line. -/
def Loop.useCandidate (s : Loop) (cmd : CStr) : Option Loop :=
  match (stringIn s.compInput).findIdx? (· = space) with
  | some sp =>
    let fn := sp + 1
    let n := fn + cmd.length
    if n < shBuf then
      let comp := Function.update (Cells.writeList s.compInput fn (bytes cmd)) n 0
      some { s with
        compInput := comp, ilen := n, cur := n
        input := Function.update (Cells.writeList s.input 0 ((List.range n).map comp)) n 0 }
    else none
  | none => some (s.load (cmd.take (shBuf - 1)))

/-- A backspace. -/
def Loop.backspace (s : Loop) : Loop :=
  let s :=
    if 0 < s.ilen then
      let cur := s.cur - 1
      { s with cur := cur, input := Cells.shiftDown cur (s.ilen - 1 - cur) s.input, ilen := s.ilen - 1 }
    else s
  if s.ilen = 0 then { s with input := fun _ => 0, cur := 0 }
  else { s with input := Function.update s.input s.ilen 0 }

def Loop.up (s : Loop) : Loop :=
  if 0 < s.hist.length then
    let hi := match s.hiCur with
      | none => s.hist.length - 1
      | some h => h - 1
    { s with hiCur := some hi }.load ((s.hist[hi]?).elim [] Subtype.val)
  else s

def Loop.down (s : Loop) : Loop :=
  match s.hiCur with
  | some h =>
    if h + 1 < s.hist.length then { s with hiCur := some (h + 1) }.load ((s.hist[h + 1]?).elim [] Subtype.val)
    -- `cur` stays where it is
    else { s with hiCur := none, ilen := 0 }
  | none => { s with hiCur := none, ilen := 0 }

/-- `prefix`: the line up to its first space, of at most 63 bytes. -/
def Loop.word (s : Loop) : CStr :=
  Cells.textAt 0 s.input ((((List.range (min s.ilen 63)).map s.input).takeWhile (· ≠ space.val)).length) 0

/-- The line, without a space at its end, is one of the candidates. -/
def Loop.alreadyComplete (s : Loop) (found : List CStr) : Bool :=
  let n := if s.input (s.ilen - 1) = space.val then s.ilen - 1 else s.ilen
  found.any (fun c => ksc (Cells.textAt 0 s.input n 0) c = 0)

def Loop.tab (s : Loop) : Loop :=
  if s.ilen = 0 then s
  else
    let s := { s with found := lashFindCompletions s.rpkCmds s.word }
    if s.found = [] then s
    else if s.alreadyComplete s.found then s
    else if s.shown ∧ 1 < s.found.length then s.load ((s.found.getD 1 []).take (shBuf - 1))
    else if s.found.length = 1 then s.load ((s.found.getD 0 []).take (shBuf - 1))
    else
      let t := stringIn s.input
      { s with shown := true, compInput := Function.update (Cells.writeList s.compInput 0 (bytes t)) t.length 0 }

/-- A character at the cursor. -/
def Loop.insert (s : Loop) (c : UInt8) : Option Loop :=
  if s.cur < shBuf then
    let input := Function.update (Cells.shiftUp s.cur s.ilen s.input) s.cur c
    some { s with input := Function.update input (s.ilen + 1) 0, ilen := s.ilen + 1, cur := s.cur + 1 }
  else none

/-- What `sh_dispatch` does to the history and to the installed commands. -/
abbrev Dispatch := CStr → List HistLine × List CStr → List HistLine × List CStr

/-- Enter, where no list is up: the state at the next prompt, and the line that was dispatched. -/
def Loop.enter (sys : Dispatch) (s : Loop) : Loop × Option CStr :=
  if 0 < s.ilen then
    let t := stringIn s.input
    let r := sys t (lashPushHist s.hist ⟨t, length_stringIn_lt s.input⟩, s.rpkCmds)
    (.prompt r.1 r.2, some t)
  else (.prompt s.hist s.rpkCmds, none)

/-- One round of `lash_loop`, with the line it passes to `sh_dispatch`. -/
def lashKey (sys : Dispatch) (s : Loop) (k : Int) : Option (Loop × Option CStr) :=
  if k = keyLeft then some ({ s with cur := s.cur - 1 }, none)
  else if k = keyRight then some (if s.cur < s.ilen then { s with cur := s.cur + 1 } else s, none)
  else if k = 10 ∨ k = 13 then
    if s.shown ∧ 0 < s.found.length then (s.useCandidate (s.found.getD 0 [])).map (fun s => (s.hideList, none))
    else some (s.enter sys)
  else if k = 3 then some (.prompt s.hist s.rpkCmds, none)
  else if k = 8 ∨ k = 127 then some (s.backspace.hideList, none)
  else if k = keyUp then some (s.hideList.up, none)
  else if k = keyDown then some (s.hideList.down, none)
  else if k = 9 then some (s.tab, none)
  else if 32 ≤ k ∧ k < 127 ∧ s.ilen < shBuf - 1 then (s.insert (UInt8.ofNat k.toNat)).map (fun s => (s, none))
  else some (s, none)

/-- Keys one after the other, with the lines that are dispatched. -/
def lashKeys (sys : Dispatch) : Loop → List Int → Option (Loop × List CStr)
  | s, [] => some (s, [])
  | s, k :: ks =>
    (lashKey sys s k).bind fun r =>
      (lashKeys sys r.1 ks).map fun q => (q.1, r.2.toList ++ q.2)

end Lash
end PigOS.Shell
