import PigOS.Kernel.Pigfs

/-!
# `Shell.Line` — how `shell.h` and `lash.h` read a command line

A table of the shell (`sh_var_names`/`sh_var_vals`, `sh_alias_names`/`sh_alias_vals`) is the list of
its slots in use, each a name and a value. A value that is longer than its array is kept whole.
-/

namespace PigOS.Shell

open Kernel List

def shBuf : Nat := 512

def bar : CChar := chr '|'
def dollar : CChar := chr '$'
def equalSign : CChar := chr '='
def minus : CChar := chr '-'
def newline : CChar := chr '\n'

def isQuote (c : CChar) : Bool := c = chr '"' || c = chr '\''

/-- `while(*p==' ')p++`. -/
def trim (s : CStr) : CStr := s.dropWhile (· = space)

lemma trim_sublist (s : CStr) : (trim s).Sublist s := List.dropWhile_sublist _

/-! ## Tables -/

abbrev Table := List (CStr × CStr)

/-- The first slot with a name. -/
def tableGet (t : Table) (n : CStr) : Option CStr := (t.find? (fun slot => ksc slot.1 n = 0)).map Prod.snd

/-- Write the slot with a name, or a new one while there are fewer than `max`. -/
def tableSet (max : Nat) (t : Table) (n v : CStr) : Table :=
  match t.findIdx? (fun slot => ksc slot.1 n = 0) with
  | some i => t.modify i (fun slot => (slot.1, v))
  | none => if t.length < max then t ++ [(n, v)] else t

lemma tableGet_mem {t : Table} {n v : CStr} (h : tableGet t n = some v) : v ∈ t.map Prod.snd := by
  obtain ⟨slot, hfind, rfl⟩ := Option.map_eq_some_iff.mp h
  exact List.mem_map_of_mem (List.mem_of_find?_eq_some hfind)

def shVars : Nat := 32
def shAliases : Nat := 32

def shVarGet (vars : Table) (n : CStr) : Option CStr := tableGet vars n
def shVarSet (vars : Table) (n v : CStr) : Table := tableSet shVars vars n v
def shAliasGet (aliases : Table) (n : CStr) : Option CStr := tableGet aliases n
def shAliasSet (aliases : Table) (n v : CStr) : Table := tableSet shAliases aliases n v

/-- `unset`: every slot with the name is cleared, and stays in use. -/
def clearAll (t : Table) (n : CStr) : Table := t.map (fun slot => if ksc slot.1 n = 0 then ([], []) else slot)

/-- `unalias`: the first slot with the name is cleared; `none` when there is none. -/
def clearFirst (t : Table) (n : CStr) : Option Table :=
  (t.findIdx? (fun slot => ksc slot.1 n = 0)).map (fun i => t.modify i (fun _ => ([], [])))

/-! ## Expansion -/

/-- A character of a variable's name. -/
def isNameChar (c : CChar) : Bool :=
  (65 ≤ c.val && c.val ≤ 90) || (97 ≤ c.val && c.val ≤ 122) || (48 ≤ c.val && c.val ≤ 57) || c.val = 95

/-- What stands for a variable. A name that nothing is known of stands for itself. -/
def shValue (vars : Table) (user cwd vn : CStr) : CStr :=
  match shVarGet vars vn with
  | some val => val
  | none =>
    if ksc vn (cstr "HOME") = 0 then cstr "/root"
    else if ksc vn (cstr "USER") = 0 then user
    else if ksc vn (cstr "PWD") = 0 then cwd
    else if ksc vn (cstr "SHELL") = 0 then cstr "/bin/pig"
    else vn

/-- The loop of `sh_expand`; the first argument is the name being read behind a `$`, if any. -/
def expandLoop (value : CStr → CStr) : Option CStr → CStr → CStr
  | none, [] => []
  | some vn, [] => value vn
  | none, c :: cs => if c = dollar then expandLoop value (some []) cs else c :: expandLoop value none cs
  | some vn, c :: cs =>
    if isNameChar c ∧ vn.length < 31 then expandLoop value (some (vn ++ [c])) cs
    else if c = dollar then value vn ++ expandLoop value (some []) cs
    else value vn ++ c :: expandLoop value none cs

lemma expandLoop_of_no_dollar (value : CStr → CStr) {l : CStr} (h : dollar ∉ l) : expandLoop value none l = l := by
  induction l with
  | nil => rfl
  | cons c cs ih =>
    rw [mem_cons, not_or] at h
    rw [expandLoop, if_neg (Ne.symm h.1), ih h.2]

/-- `sh_expand(in,out,outsz)`. -/
def shExpand (vars : Table) (user cwd s : CStr) (outsz : Nat) : CStr :=
  (expandLoop (shValue vars user cwd) none s).take (outsz - 1)

lemma length_shExpand_lt (vars : Table) (user cwd s : CStr) {outsz : Nat} (h : 0 < outsz) :
    (shExpand vars user cwd s outsz).length < outsz := by
  rw [shExpand, length_take]
  omega

lemma shExpand_of_no_dollar (vars : Table) (user cwd : CStr) {s : CStr} {outsz : Nat} (h : dollar ∉ s)
    (hlen : s.length < outsz) : shExpand vars user cwd s outsz = s := by
  rw [shExpand, expandLoop_of_no_dollar _ h, take_of_length_le (by omega)]

/-! ## Pipes and words -/

/-- `in_quote` after a character. -/
def quoteAfter (q : Option CChar) (c : CChar) : Option CChar :=
  if isQuote c then (if q = some c then none else if q = none then some c else q) else q

/-- The position of the first unquoted `|`. -/
def findBar : Option CChar → CStr → Option Nat
  | _, [] => none
  | q, c :: cs =>
    if c = bar ∧ quoteAfter q c = none then some 0 else (findBar (quoteAfter q c) cs).map (· + 1)

/-- `left_cmd` and `right_cmd`. A line that begins with `|` is not split. -/
def splitPipe (line : CStr) : Option (CStr × CStr) :=
  match findBar none line with
  | some (pos + 1) => some (line.take (pos + 1), trim (line.drop (pos + 2)))
  | _ => none

/-- `cmd` and `a`. What is left of a word of more than 63 characters belongs to the argument. -/
def splitCmd (line : CStr) : CStr × CStr :=
  let cmd := (line.takeWhile (· ≠ space)).take 63
  (cmd, trim (line.drop cmd.length))

lemma splitPipe_sublist {line left right : CStr} (h : splitPipe line = some (left, right)) :
    left.Sublist line ∧ right.Sublist line := by
  unfold splitPipe at h
  split at h
  · obtain ⟨rfl, rfl⟩ := h
    exact ⟨take_sublist _ _, (trim_sublist _).trans (drop_sublist _ _)⟩
  · exact nomatch h

lemma splitCmd_sublist (line : CStr) : (splitCmd line).2.Sublist line :=
  (trim_sublist _).trans (drop_sublist _ _)

/-! ## Arguments -/

/-- The name of an assignment: at most 31 characters before the first `=`. -/
def assignName (a : CStr) : CStr := (a.takeWhile (· ≠ equalSign)).take 31

/-- `export` and `set`: the value is what follows an `=` right behind the name. -/
def assignValue (a : CStr) : CStr :=
  match a.drop (assignName a).length with
  | c :: cs => if c = equalSign then cs else []
  | [] => []

/-- `alias`: the value ends at the closing quote, or without a quote at a space. -/
def aliasValue (a : CStr) : CStr :=
  if (a.drop (assignName a).length).head? = some equalSign then
    match (a.dropWhile (· ≠ equalSign)).drop 1 with
    | q :: cs => if isQuote q then (cs.takeWhile (· ≠ q)).take 127 else ((q :: cs).takeWhile (· ≠ space)).take 127
    | [] => []
  else []

/-- `line` of `lash_source` after a line has been read into it, and what it held behind that. -/
def storeLine (cells : Nat → UInt8) (line : CStr) : Nat → UInt8 := fun i =>
  if i ≤ line.length then (line.map Subtype.val).getD i 0 else cells i

/-- The C string in the `n` bytes from `k` on. -/
def cellText (cells : Nat → UInt8) (k : Nat) : Nat → CStr
  | 0 => []
  | n + 1 => if h : cells k ≠ 0 then ⟨cells k, h⟩ :: cellText cells (k + 1) n else []

/-- The name and the value of an `alias` line of a sourced file. The character behind the name is
passed over, whatever it is, and any quote ends the value. If it is the terminator, the value is
read from `behind` it. -/
def sourceAlias (line behind : CStr) : CStr × CStr :=
  let eq := trim (line.drop 6)
  let aname := assignName eq
  let eq := if aname.length < eq.length then eq.drop (aname.length + 1) else behind
  let eq := if eq.head?.any isQuote then eq.drop 1 else eq
  (aname, (eq.takeWhile (fun c => !isQuote c)).take 127)

/-- The arguments of `grep`. -/
structure GrepArgs where
  icase : Bool
  list : Bool
  linenum : Bool
  pat : CStr
  file : CStr
  deriving DecidableEq

/-- The loop over the flags; `inside` says whether the characters of a `-` group are being read. -/
def grepFlags (inside : Bool) (g : GrepArgs) : CStr → GrepArgs × CStr
  | [] => (g, [])
  | c :: cs =>
    if inside then
      if c = space then grepFlagsGap g cs
      else if c = minus then grepFlags true g cs
      else grepFlags true { g with icase := g.icase || c = chr 'i', list := g.list || c = chr 'l',
                                   linenum := g.linenum || c = chr 'n' } cs
    else if c = minus then grepFlags true g cs
    else (g, c :: cs)
where
  /-- The spaces behind a group. -/
  grepFlagsGap (g : GrepArgs) : CStr → GrepArgs × CStr
    | [] => (g, [])
    | c :: cs =>
      if c = space then grepFlagsGap g cs
      else if c = minus then grepFlags true g cs
      else (g, c :: cs)

/-- What `fs_grep` makes of its argument. -/
def grepArgs (args : CStr) : GrepArgs :=
  let (g, p) := grepFlags false ⟨false, false, false, [], []⟩ (trim args)
  let pat := (p.takeWhile (· ≠ space)).take 255
  { g with pat := pat, file := trim (p.drop pat.length) }

end PigOS.Shell
