import PigOS.Kernel.UserDb
import PigOS.Lib.Frames
import PigOS.Shell.Line

/-!
# `Shell.Dispatch` — `sh_dispatch` of `shell.h` and everything that calls it

The recursion is a stack of frames (`Lib.Frames`): a `Frame` is a call that is to be made or what a
caller does after it, and `exec` says what it does.

- `Core` holds the variables that commands work on, `Pipe` the globals of `vga.h` and `pigfs.h`
  behind a pipe.
- A command prints through `vps`, `vpln` or `vpc` (`Emission`). What is drawn at a fixed place of
  the screen is no text.
- The commands that have nothing to do with the tables of the shell, its identity or its pipes are a
  parameter (`Builtins`); some that print a fixed text are here.
- A frame that waits for a key when there are none left is executed no further, and neither is one
  that stops the machine.
- `lash_hist`, which only the line editor reads, is left out.
-/

namespace PigOS.Shell

open Kernel

variable {a : CStr} {out : List Emission} {cmd line : CStr}

/-! ## Printing -/

inductive Emission where
  | vps (s : CStr)
  | vpln (s : CStr)
  | vpc (c : CChar)
  deriving DecidableEq

def Emission.text : Emission → CStr
  | .vps s => s
  | .vpln s => s ++ [newline]
  | .vpc c => [c]

/-- The text that a list of calls prints. -/
def printText (out : List Emission) : CStr := out.flatMap Emission.text

def pipeSize : Nat := 4096

structure Pipe where
  /-- `pipe_buf`; only the indices below 4096 exist -/
  buf : Nat → UInt8
  len : Nat
  active : Bool
  /-- `grep_pipe_input` is not `NULL`; it points to `pipe_buf` then -/
  input : Bool
  inputLen : Nat

namespace Pipe

/-- The loop of `vps` while a pipe is active. No terminator is written. -/
def capture (p : Pipe) (s : CStr) : Pipe :=
  let k := min s.length (pipeSize - 1 - p.len)
  { p with
    buf := fun i => if p.len ≤ i ∧ i < p.len + k then (s.map Subtype.val).getD (i - p.len) 0 else p.buf i
    len := p.len + k }

def emit (p : Pipe) : Emission → Pipe
  | .vps s => if p.active then p.capture s else p
  | .vpln s => if p.active then (p.capture s).capture [newline] else p
  | .vpc _ => p

/-- `pipe_buf` as a C string, from `pos` on. -/
def textFrom (p : Pipe) (pos : Nat) : List UInt8 :=
  ((List.range' pos (pipeSize - pos)).map p.buf).takeWhile (· ≠ 0)

/-- Before the left side of a pipe. -/
def start (p : Pipe) : Pipe :=
  { p with buf := fun i => if i = 0 then 0 else p.buf i, len := 0, active := true }

/-- After the left side: `pipe_active=0` and `grep_set_pipe_input(pipe_buf)`. -/
def connect (p : Pipe) : Pipe := { p with active := false, input := true, inputLen := (p.textFrom 0).length }

/-- `grep` has used its input. -/
def consume (p : Pipe) : Pipe := { p with input := false, inputLen := 0 }

/-- `grep_pipe_input&&grep_pipe_input_len>0`. -/
def ready (p : Pipe) : Bool := p.input && 0 < p.inputLen

end Pipe

/-! ## The state -/

structure Core (σ : Type) where
  vars : Table
  aliases : Table
  hist : List CStr
  user : CStr
  uid : Nat
  cwd : CStr
  rok : Bool
  db : UserDb
  keys : List Int
  /-- what the other commands work on -/
  rest : σ

structure ShState (σ : Type) where
  core : Core σ
  pipe : Pipe
  /-- Not in the source: all that has been printed. -/
  printed : CStr
  /-- Not in the source: what the stage before the running one has printed, if there is one. -/
  feed : Option (List UInt8)
  /-- Not in the source: the password that was typed for the `rok` that is running. -/
  typed : Option CStr

variable {σ : Type}

def ShState.say (s : ShState σ) (out : List Emission) : ShState σ :=
  { s with pipe := out.foldl Pipe.emit s.pipe, printed := s.printed ++ printText out }

/-- Who the session belongs to, and the user database. -/
structure Ident where
  user : CStr
  uid : Nat
  db : UserDb

def Core.ident (c : Core σ) : Ident := ⟨c.user, c.uid, c.db⟩

inductive PrivOp where
  | su (target : CStr) | rok | rMinus

/-- What can be observed of a run: what a `grep` without a file gets through the pipe, with what the
stage before it printed; and a command that can give root rights, with the password typed for it and
what it did. -/
inductive Event where
  | input (feed got : Option (List UInt8))
  | priv (op : PrivOp) (typed : Option CStr) (before : Ident) (uid : Nat) (rokCall : Bool)

/-- The other commands. -/
structure Builtins (σ : Type) where
  /-- a command and its argument: what is printed, `sh_cwd`, the keys that are left and the rest of
  the state -/
  run : CStr → CStr → Core σ → Option (List Emission × CStr × List Int × σ)
  /-- the text and the files of `adduser` -/
  adduser : AdduserReport → σ → List Emission × σ
  /-- `grep` in files -/
  grepFiles : GrepArgs → CStr → σ → List Emission
  File : Type
  /-- the file that `lash_source` reads from a working directory and a path, and its text -/
  lookup : CStr → CStr → σ → Option File
  text : File → σ → CStr
  /-- what `line` of `lash_source` and the bytes behind it hold when it starts -/
  stack : Core σ → Nat → UInt8

inductive Frame (b : Builtins σ) where
  | call (line : CStr)
  /-- the left side of a pipe has returned; `mark` is how much had been printed before it -/
  | pipeRight (right : CStr) (mark : Nat)
  /-- the right side has returned -/
  | endPipe (feed : Option (List UInt8))
  | endRok (typed : Option CStr)
  /-- the loop of `lash_source`, with `ci` characters of the file behind it; `cells` are the bytes
  of `line` -/
  | source (f : b.File) (ci : Nat) (cells : Nat → UInt8)
  | desktop
  | terminal (histIdx : Int)

abbrev Result (b : Builtins σ) := Option (List Event × ShState σ × List (Frame b))

/-! ## Passwords -/

/-- The keys up to Enter, and those behind it. -/
def untilEnter (isEnter : Int → Bool) (keys : List Int) : Option (List Int × List Int) :=
  match keys.dropWhile (fun k => !isEnter k) with
  | [] => none
  | _ :: ks => some (keys.takeWhile (fun k => !isEnter k), ks)

def deletesKey (c : Nat) : Bool := c = 8 || c = 127

/-- `vpc('\b'); vpc(' '); vpc('\b');` -/
def eraseChar : List Emission := [.vpc (chr '\x08'), .vpc space, .vpc (chr '\x08')]

/-- What the prompt shows for each key. -/
def passwordEcho : CStr → List Int → List Emission
  | _, [] => []
  | pw, k :: ks =>
    let pw' := typeKey 62 deletesKey pw k.toNat
    (if pw'.length < pw.length then eraseChar else if pw.length < pw'.length then [.vpc (chr '*')] else []) ++
      passwordEcho pw' ks

/-- The prompt of `rok` and `su`: what is shown, the password, and the keys that are left. -/
def readPassword (keys : List Int) : Option (List Emission × CStr × List Int) :=
  (untilEnter (fun k => k = 10 || k = 13) keys).map (fun (typed, keys) =>
    ([.vps (cstr "Password: ")] ++ passwordEcho [] typed ++ [.vpc newline],
      typeKeys 62 deletesKey (typed.map Int.toNat), keys))

/-! ## Commands -/

/-- The commands that are treated on their own. -/
inductive Builtin where
  | rok | su | rMinus
  | adduser | deluser | usermod | groupadd | passwd
  | exportVar | setVar | unsetVar | alias | unalias
  | htop | again | source | last | wm | grep
  | other
  deriving DecidableEq

/-- The comparisons of `sh_dispatch`. -/
def builtin (cmd a : CStr) : Builtin :=
  if cmd = cstr "rok" then .rok
  else if cmd = cstr "su" then .su
  else if cmd = cstr "r-" ∨ (cmd = cstr "r" ∧ a = [minus]) then .rMinus
  else if cmd = cstr "adduser" then .adduser
  else if cmd = cstr "deluser" then .deluser
  else if cmd = cstr "usermod" then .usermod
  else if cmd = cstr "groupadd" then .groupadd
  else if cmd = cstr "passwd" then .passwd
  else if cmd = cstr "export" then .exportVar
  else if cmd = cstr "set" then .setVar
  else if cmd = cstr "unset" then .unsetVar
  else if cmd = cstr "alias" then .alias
  else if cmd = cstr "unalias" then .unalias
  else if cmd = cstr "htop" then .htop
  else if cmd = cstr "nice" ∨ cmd = cstr "nohup" ∨ cmd = cstr "eval" ∨ cmd = cstr "exec" then .again
  else if cmd = cstr "source" then .source
  else if cmd = cstr "!!" then .last
  else if cmd = cstr "wm" ∨ cmd = cstr "compositor" then .wm
  else if cmd = cstr "grep" then .grep
  else .other

/-- `echo`: the two characters `\n` print a line break. -/
def echoText : CStr → List Emission
  | c :: c' :: cs =>
    if c = chr '\\' ∧ c' = chr 'n' then .vpc newline :: echoText cs else .vpc c :: echoText (c' :: cs)
  | [c] => [.vpc c]
  | [] => []

/-- Commands that print a text and do nothing else. -/
def plainText (c : Core σ) (cmd a : CStr) : Option (List Emission) :=
  if cmd = cstr "about" then some [.vpln (cstr "pigOS v1.0 - vibe coding challenge")]
  else if cmd = cstr "uname" then
    some [.vpln (if a.take 2 = cstr "-a" then cstr "pigOS 1.0.0 pigKernel #1 x86_64"
      else if a.take 2 = cstr "-r" then cstr "1.0.0-pig" else cstr "pigOS")]
  else if cmd = cstr "uptime" then some [.vpln (cstr "up forever, load: 0.00 0.00 0.00")]
  else if cmd = cstr "date" then some [.vpln (cstr "Thu Jan  1 00:00:00 UTC 1970")]
  else if cmd = cstr "version" then some [.vpln (cstr "pigOS 1.0.0 larpshell 2.2 poing 1.0")]
  else if cmd = cstr "whoami" then some [.vpln c.user]
  else if cmd = cstr "true" ∨ cmd = cstr "false" then some []
  else if cmd = cstr "echo" ∨ cmd = cstr "print" then
    some (echoText (shExpand c.vars c.user c.cwd a 512) ++ [.vpc newline])
  else if cmd = cstr "printf" then some [.vps (shExpand c.vars c.user c.cwd a 512)]
  else none

/-- `name=value` lines. -/
def showVars (vars : Table) : List Emission := vars.flatMap (fun v => [.vps v.1, .vps (cstr "="), .vpln v.2])

/-- The list that `alias` prints; the closing quote comes behind the line break. -/
def showAliases (aliases : Table) : List Emission :=
  aliases.flatMap (fun al => [.vps (cstr "alias "), .vps al.1, .vps (cstr "='"), .vpln al.2, .vps (cstr "'")])

/-- The line that says what an alias has been set to. -/
def aliasSet (n v : CStr) : List Emission :=
  [.vps (cstr "alias "), .vps n, .vps (cstr "='"), .vps v, .vpln (cstr "'")]

/-- `su`, once the password is typed: what is printed and the new state. -/
def suAttempt (c : Core σ) (u : User) (pw : CStr) : List Emission × Core σ :=
  if ksc pw u.pass = 0 then
    ([.vps (cstr "switched to "), .vpln u.name], { c with user := u.name, uid := u.uid, cwd := u.home })
  else ([.vpln (cstr "su: Authentication failure")], c)

def shSu (c : Core σ) (a : CStr) : Option (List Emission × Core σ × List Event) :=
  let target := if a ≠ [] ∧ a.head? ≠ some minus then a else cstr "root"
  match (ufind c.db target).bind (c.db.users[·]?) with
  | none => some ([.vps (cstr "su: user '"), .vps target, .vpln (cstr "' not found")], c, [])
  | some u =>
    (readPassword c.keys).map (fun (out, pw, keys) =>
      let c := { c with keys := keys }
      let (out', c') := suAttempt c u pw
      (out ++ out', c', [.priv (.su target) (some pw) c.ident c'.uid false]))

/-- `r-`. -/
def shRMinus (c : Core σ) (typed : Option CStr) : List Emission × Core σ × List Event :=
  let c' := { c with user := cstr "root", uid := 0, cwd := cstr "/" }
  ([.vpln (cstr "[r-] root")], c', [.priv .rMinus typed c.ident 0 false])

/-- `passwd` with its prompts. -/
def shPasswd (c : Core σ) (a : CStr) : Option (List Emission × Core σ) :=
  let u := if a ≠ [] then a else curUser
  if (ufind c.db u).isNone then some ([.vps PasswdReport.userNotFound.text], c)
  else
    (untilEnter (· = 10) c.keys).map (fun (typed, keys) =>
      let (r, db) := cmdPasswd c.db a (typed.map Int.toNat)
      ([.vps (cstr "Changing password for "), .vpln u, .vps (cstr "New password: "), .vpc newline, .vps r.text],
        { c with db := db, keys := keys }))

/-- The commands that call nothing and read no pipe: what they print, the new state, and the
events. -/
def leaf (b : Builtins σ) (c : Core σ) (typed : Option CStr) (cmd a : CStr) :
    Option (List Emission × Core σ × List Event) :=
  match builtin cmd a with
  | .su => shSu c a
  | .rMinus => some (shRMinus c typed)
  | .adduser =>
    let (r, db) := adduserDb c.db a
    let (out, rest) := b.adduser r c.rest
    some (out, { c with db := db, rest := rest }, [])
  | .deluser => let (r, db) := shDeluser c.db a; some ([.vps r.text], { c with db := db }, [])
  | .usermod => let (r, db) := cmdUsermod c.db a; some ([.vps r.text], { c with db := db }, [])
  | .groupadd => let (r, db) := cmdGroupadd c.db a; some ([.vps r.text], { c with db := db }, [])
  | .passwd => (shPasswd c a).map (fun (out, c) => (out, c, []))
  | .exportVar =>
    if a = [] then some (showVars c.vars, c, [])
    else some ([.vps (assignName a), .vps (cstr "="), .vpln (assignValue a)],
      { c with vars := shVarSet c.vars (assignName a) (assignValue a) }, [])
  | .setVar =>
    if a = [] then some (showVars c.vars ++ [.vpln (cstr "INIT=poing"), .vpln (cstr "SHELL=/bin/pig")], c, [])
    else some ([], { c with vars := shVarSet c.vars (assignName a) (assignValue a) }, [])
  | .unsetVar => some ([], { c with vars := clearAll c.vars a }, [])
  | .alias =>
    if a = [] then some (showAliases c.aliases, c, [])
    else some (aliasSet (assignName a) (aliasValue a),
      { c with aliases := shAliasSet c.aliases (assignName a) (aliasValue a) }, [])
  | .unalias =>
    match clearFirst c.aliases a with
    | some aliases => some ([], { c with aliases := aliases }, [])
    | none => some ([.vps (cstr "unalias: "), .vps a, .vpln (cstr ": not found")], c, [])
  | _ =>
    match plainText c cmd a with
    | some out => some (out, c, [])
    | none =>
      (b.run cmd a c).map (fun (out, cwd, keys, rest) =>
        (out, { c with cwd := cwd, keys := keys, rest := rest }, []))

/-- What a command that calls nothing can do to the state, and the events it leaves. -/
inductive LeafStep (b : Builtins σ) (c : Core σ) (typed : Option CStr) (cmd a : CStr) : Core σ → List Event → Prop where
  | su {out : List Emission} {c' : Core σ} {events : List Event} (hb : builtin cmd a = .su)
      (h : shSu c a = some (out, c', events)) : LeafStep b c typed cmd a c' events
  | rMinus (hb : builtin cmd a = .rMinus) : LeafStep b c typed cmd a (shRMinus c typed).2.1 (shRMinus c typed).2.2
  | users (db : UserDb) (keys : List Int) (rest : σ) :
      LeafStep b c typed cmd a { c with db := db, keys := keys, rest := rest } []
  | vars (hb : builtin cmd a ∈ [.exportVar, .setVar, .unsetVar]) (vars : Table) :
      LeafStep b c typed cmd a { c with vars := vars } []
  | aliases (hb : builtin cmd a ∈ [.alias, .unalias]) (aliases : Table) :
      LeafStep b c typed cmd a { c with aliases := aliases } []
  | run {r : List Emission × CStr × List Int × σ} (h : b.run cmd a c = some r) :
      LeafStep b c typed cmd a { c with cwd := r.2.1, keys := r.2.2.1, rest := r.2.2.2 } []

lemma shPasswd_core {c c' : Core σ} (h : shPasswd c a = some (out, c')) :
    ∃ db keys, c' = { c with db := db, keys := keys } := by
  unfold shPasswd at h
  dsimp only at h
  generalize (if a ≠ [] then a else curUser) = u at h
  split at h
  · obtain ⟨-, rfl⟩ := h
    exact ⟨_, _, rfl⟩
  · obtain ⟨r, -, heq⟩ := Option.map_eq_some_iff.mp h
    obtain ⟨-, rfl⟩ := heq
    exact ⟨_, _, rfl⟩

lemma leaf_step {b : Builtins σ} {c c' : Core σ} {typed : Option CStr}
    {events : List Event} (h : leaf b c typed cmd a = some (out, c', events)) : LeafStep b c typed cmd a c' events := by
  unfold leaf at h
  split at h <;> rename_i hb
  · exact .su hb h
  · obtain ⟨-, rfl, rfl⟩ := h
    exact .rMinus hb
  -- the commands of the user database
  · obtain ⟨-, rfl, rfl⟩ := h
    exact .users _ c.keys _
  · obtain ⟨-, rfl, rfl⟩ := h
    exact .users _ c.keys c.rest
  · obtain ⟨-, rfl, rfl⟩ := h
    exact .users _ c.keys c.rest
  · obtain ⟨-, rfl, rfl⟩ := h
    exact .users _ c.keys c.rest
  · obtain ⟨⟨out₁, c₁⟩, hpasswd, heq⟩ := Option.map_eq_some_iff.mp h
    obtain ⟨-, rfl, rfl⟩ := heq
    obtain ⟨db, keys, rfl⟩ := shPasswd_core hpasswd
    exact .users db keys c.rest
  -- the variables
  · split at h
    · obtain ⟨-, rfl, rfl⟩ := h
      exact .vars (by rw [hb]; decide) c.vars
    · obtain ⟨-, rfl, rfl⟩ := h
      exact .vars (by rw [hb]; decide) _
  · split at h
    · obtain ⟨-, rfl, rfl⟩ := h
      exact .vars (by rw [hb]; decide) c.vars
    · obtain ⟨-, rfl, rfl⟩ := h
      exact .vars (by rw [hb]; decide) _
  · obtain ⟨-, rfl, rfl⟩ := h
    exact .vars (by rw [hb]; decide) _
  -- the aliases
  · split at h
    · obtain ⟨-, rfl, rfl⟩ := h
      exact .aliases (by rw [hb]; decide) c.aliases
    · obtain ⟨-, rfl, rfl⟩ := h
      exact .aliases (by rw [hb]; decide) _
  · split at h
    · obtain ⟨-, rfl, rfl⟩ := h
      exact .aliases (by rw [hb]; decide) _
    · obtain ⟨-, rfl, rfl⟩ := h
      exact .aliases (by rw [hb]; decide) c.aliases
  -- everything else
  · split at h
    · obtain ⟨-, rfl, rfl⟩ := h
      exact .users c.db c.keys c.rest
    · obtain ⟨r, hrun, heq⟩ := Option.map_eq_some_iff.mp h
      obtain ⟨-, rfl, rfl⟩ := heq
      exact .run hrun

/-! ## `grep` -/

/-- A letter without its case. -/
def lowerByte (c : UInt8) : UInt8 := if 65 ≤ c ∧ c ≤ 90 then c + 32 else c

/-- `grep_line` finds the pattern. -/
def grepMatches (g : GrepArgs) (line : List UInt8) : Bool :=
  let pat := g.pat.map Subtype.val
  (List.range (line.length + 1)).any (fun i =>
    i + pat.length ≤ line.length ∧ (List.range pat.length).all (fun j =>
      let lc := line.getD (i + j) 0
      let pc := pat.getD j 0
      if g.icase then lowerByte lc = lowerByte pc else lc = pc))

/-- What `grep_line` prints through `vps` before the line itself. -/
def grepHead (g : GrepArgs) (lineno : Nat) : List Emission :=
  if g.list then [.vps (cstr "(pipe)"), .vpc newline]
  else [.vps (cstr "(pipe)"), .vps (cstr ":")] ++
    (if g.linenum then [.vps (cstr (toString lineno)), .vps (cstr ":")] else [])

/-- The bytes of a line, printed one by one. -/
def vpcBytes (bytes : List UInt8) : List Emission :=
  bytes.filterMap (fun c => if h : c ≠ 0 then some (.vpc ⟨c, h⟩) else none)

/-- `grep_content(grep_pipe_input,"(pipe)")` from `pos` on, on the buffer that `vps` writes to. -/
def grepPipe (g : GrepArgs) : Nat → Nat → Nat → ShState σ → ShState σ
  | 0, _, _, s => s
  | rounds + 1, pos, lineno, s =>
    if s.pipe.buf pos = 0 ∨ pipeSize ≤ pos then s
    else
      let line := (s.pipe.textFrom pos).takeWhile (· ≠ newline.val)
      let eol := pos + line.length
      let s :=
        if grepMatches g line then
          let s := s.say (grepHead g lineno)
          if g.list then s
          else s.say (vpcBytes ((List.range line.length).map (fun k => s.pipe.buf (pos + k))) ++ [.vpc newline])
        else s
      grepPipe g rounds (if s.pipe.buf eol = 0 then eol else eol + 1) (lineno + 1) s

/-- `fs_grep` looks at the pipe: it has a pattern and no file. -/
def readsPipe (a : CStr) : Bool := a ≠ [] && (grepArgs a).pat ≠ [] && (grepArgs a).file = []

def fsGrep (b : Builtins σ) (s : ShState σ) (a : CStr) : List Event × ShState σ :=
  if a = [] then ([], s.say [.vpln (cstr "usage: grep [-r][-i][-l][-n] <pattern> [file]")])
  else
    let g := grepArgs a
    if g.pat = [] then ([], s.say [.vpln (cstr "grep: pattern required")])
    else if g.file = [] then
      if s.pipe.ready then
        let s' := grepPipe g pipeSize 0 1 s
        ([.input s.feed (some (s.pipe.textFrom 0))], { s' with pipe := s'.pipe.consume })
      else ([.input s.feed none], s.say (b.grepFiles g s.core.cwd s.core.rest))
    else ([], s.say (b.grepFiles g s.core.cwd s.core.rest))

lemma grepPipe_keeps (g : GrepArgs) (rounds pos lineno : Nat) (s : ShState σ) :
    (grepPipe g rounds pos lineno s).core = s.core ∧ (grepPipe g rounds pos lineno s).feed = s.feed := by
  induction rounds generalizing pos lineno s with
  | zero => exact ⟨rfl, rfl⟩
  | succ rounds ih =>
    rw [grepPipe]
    split
    · exact ⟨rfl, rfl⟩
    · obtain ⟨hcore, hfeed⟩ := ih _ _ _
      refine ⟨hcore.trans ?_, hfeed.trans ?_⟩
      · split
        · split <;> rfl
        · rfl
      · split
        · split <;> rfl
        · rfl

lemma fsGrep_keeps (b : Builtins σ) (s : ShState σ) (a : CStr) :
    (fsGrep b s a).2.core = s.core ∧ (fsGrep b s a).2.feed = s.feed := by
  unfold fsGrep
  split
  · exact ⟨rfl, rfl⟩
  · dsimp only
    split
    · exact ⟨rfl, rfl⟩
    · split
      · split
        · exact grepPipe_keeps _ _ _ _ s
        · exact ⟨rfl, rfl⟩
      · exact ⟨rfl, rfl⟩

/-! ## The desktop -/

def keyUp : Int := -1
def keyDown : Int := -2
def keyLeft : Int := -3
def keyRight : Int := -4
def keyF2 : Int := -6
def keyF3 : Int := -7
def keyF5 : Int := -9
def keyDel : Int := -14

/-- A field of the login screen: `none` when the keys run out, `some none` for Escape. -/
def loginField : CStr → List Int → Option (Option (CStr × List Int))
  | _, [] => none
  | text, k :: ks =>
    if k = 27 then some none
    else if k = 10 ∨ k = 13 then some (some (text, ks))
    else if k = 8 ∨ k = 127 ∨ k = keyDel then loginField text.dropLast ks
    else if 32 ≤ k ∧ k < 127 ∧ text.length < 31 then loginField (text ++ [chr (Char.ofNat k.toNat)]) ks
    else loginField text ks

/-- The login loop. Every round uses up two keys at least. -/
def login (db : UserDb) : Nat → List Int → Option (Bool × List Int)
  | 0, _ => none
  | rounds + 1, keys =>
    match loginField [] keys with
    | none => none
    | some none => some (false, keys.dropWhile (· ≠ 27) |>.drop 1)
    | some (some (name, keys')) =>
      match loginField [] keys' with
      | none => none
      | some none => some (false, keys'.dropWhile (· ≠ 27) |>.drop 1)
      | some (some (pw, ks)) =>
        match (ufind db name).bind (db.users[·]?) with
        | some u => if ksc pw u.pass = 0 then some (true, ks) else login db rounds ks
        | none => login db rounds ks

/-- How a line of the terminal ends. -/
inductive TermEnd where
  | line (input : CStr)
  | escape

/-- Replace the input by another text. -/
def replaceInput (old new : CStr) : List Emission :=
  (List.replicate old.length eraseChar).flatten ++ new.map .vpc

/-- The inner loop of the terminal: how it ends, `hist_idx`, the keys left, and what is shown. -/
def termLine (hist : List CStr) : CStr → Int → List Int → Option (TermEnd × Int × List Int × List Emission)
  | _, _, [] => none
  | input, idx, k :: ks =>
    let next (input' : CStr) (idx' : Int) (out : List Emission) :=
      (termLine hist input' idx' ks).map (fun (e, i, ks, out') => (e, i, ks, out ++ out'))
    if k = 10 ∨ k = 13 then some (.line input, idx, ks, [])
    else if k = 3 then some (.line [], idx, ks, [.vps (cstr "^C"), .vpc newline])
    else if k = 8 ∨ k = 127 then next input.dropLast idx (if input = [] then [] else eraseChar)
    else if k = keyUp then
      if 0 < hist.length ∧ idx < hist.length - 1 then
        let new := hist.getD (hist.length - 1 - (idx + 1).toNat) []
        next new (idx + 1) (replaceInput input new)
      else next input idx []
    else if k = keyDown then
      if 0 < idx then
        let new := hist.getD (hist.length - 1 - (idx - 1).toNat) []
        next new (idx - 1) (replaceInput input new)
      else if idx = 0 then next [] (-1) (replaceInput input [])
      else next input idx []
    else if k = 27 then some (.escape, idx, ks, [])
    else if 32 ≤ k ∧ k < 127 ∧ input.length < 127 then
      next (input ++ [chr (Char.ofNat k.toNat)]) idx [.vpc (chr (Char.ofNat k.toNat))]
    else next input idx []

def shHist : Nat := 64

/-- `sh_push_hist`. -/
def pushHist (hist : List CStr) (line : CStr) : List CStr :=
  if hist.length < shHist then hist ++ [line] else hist.drop 1 ++ [line]

/-! ## Execution -/

section Exec

variable (b : Builtins σ)

/-- Go on in the state `s` with the frames `fs`. -/
def goOn (s : ShState σ) (fs : List (Frame b)) : Result b := some ([], s, fs)

/-- `sh_rok=1`, and the command behind `rok`. -/
def rokRun (s : ShState σ) (a : CStr) (typed : Option CStr) (events : List Event) : Result b :=
  let s' := { s with core := { s.core with rok := true }, typed := typed }
  some (events, s'.say [.vps (cstr "[rok] "), .vpln a], [.call a, .endRok s.typed])

def shRok (s : ShState σ) (a : CStr) : Result b :=
  if a = [] then goOn b (s.say [.vpln (cstr "usage: rok <cmd> - run command with root privileges")]) []
  else if s.core.uid = 0 then rokRun b s a s.typed []
  else
    match readPassword s.core.keys with
    | none => none
    | some (out, pw, keys) =>
      let s := { s with core := { s.core with keys := keys } }.say out
      let current := (ufind s.core.db s.core.user).bind (s.core.db.users[·]?)
      if current.any (fun u => ksc pw u.pass = 0) ∨ ksc pw (cstr "toor") = 0 then
        rokRun b s a (some pw) [.priv .rok (some pw) s.core.ident s.core.uid true]
      else
        some ([.priv .rok (some pw) s.core.ident s.core.uid false],
          s.say [.vpln (cstr "rok: Authentication failure")], [])

/-- A command that is no alias. -/
def command (s : ShState σ) (cmd a : CStr) : Result b :=
  match builtin cmd a with
  | .rok => shRok b s a
  | .htop => goOn b s [.call (cstr "top")]
  | .again => goOn b s [.call a]
  | .source =>
    if a = [] then goOn b (s.say [.vpln (cstr "usage: source <file>")]) []
    else
      match b.lookup s.core.cwd a s.core.rest with
      | some f => goOn b s [.source f 0 (b.stack s.core)]
      | none => goOn b (s.say [.vps (cstr "source: "), .vps a, .vpln (cstr ": file not found")]) []
  | .last =>
    match s.core.hist.getLast? with
    | some line => goOn b s [.call line]
    | none => goOn b s []
  | .wm =>
    match login s.core.db (s.core.keys.length + 1) s.core.keys with
    | none => none
    | some (ok, keys) =>
      goOn b { s with core := { s.core with keys := keys } } (if ok then [.desktop] else [])
  | .grep => let (events, s) := fsGrep b s a; some (events, s, [])
  | _ =>
    (leaf b s.core s.typed cmd a).map (fun (out, core, events) =>
      (events, { s with core := core }.say out, []))

/-- `line` after `sh_expand` and the spaces in front. -/
def prepare (c : Core σ) (raw : CStr) : CStr := trim (shExpand c.vars c.user c.cwd raw shBuf)

/-- `sh_dispatch`. -/
def shDispatch (s : ShState σ) (raw : CStr) : Result b :=
  let line := prepare s.core raw
  if line = [] then goOn b s []
  else
    match splitPipe line with
    | some (left, right) =>
      goOn b { s with pipe := s.pipe.start } [.call left, .pipeRight right s.printed.length]
    | none =>
      let (cmd, a) := splitCmd line
      match shAliasGet s.core.aliases cmd with
      | some val => goOn b s [.call val]
      | none => command b s cmd a

/-- What `sh_dispatch` takes a line for. -/
inductive Shape where
  | nothing
  | pipe (left right : CStr)
  | aliased (val : CStr)
  | command (cmd a : CStr)
  deriving DecidableEq

def shape (c : Core σ) (raw : CStr) : Shape :=
  let line := prepare c raw
  if line = [] then .nothing
  else
    match splitPipe line with
    | some (left, right) => .pipe left right
    | none =>
      match shAliasGet c.aliases (splitCmd line).1 with
      | some val => .aliased val
      | none => .command (splitCmd line).1 (splitCmd line).2

/-- What `sh_dispatch` does for a line, by what it takes the line for. -/
def dispatchShape (s : ShState σ) : Shape → Result b
  | .nothing => goOn b s []
  | .pipe left right => goOn b { s with pipe := s.pipe.start } [.call left, .pipeRight right s.printed.length]
  | .aliased val => goOn b s [.call val]
  | .command cmd a => command b s cmd a

lemma shDispatch_shape (s : ShState σ) (raw : CStr) : shDispatch b s raw = dispatchShape b s (shape s.core raw) := by
  unfold shDispatch shape
  dsimp only
  by_cases hnil : prepare s.core raw = []
  · rw [if_pos hnil, if_pos hnil]
    rfl
  · rw [if_neg hnil, if_neg hnil]
    cases splitPipe (prepare s.core raw) with
    | some parts => rfl
    | none =>
      cases shAliasGet s.core.aliases (splitCmd (prepare s.core raw)).1 <;> rfl

lemma prepare_length_lt (c : Core σ) (raw : CStr) : (prepare c raw).length < shBuf :=
  lt_of_le_of_lt (trim_sublist _).length_le (length_shExpand_lt _ _ _ _ (by decide))

lemma shape_spec (c : Core σ) (raw : CStr) :
    match shape c raw with
    | .nothing => prepare c raw = []
    | .pipe left right => splitPipe (prepare c raw) = some (left, right)
    | .aliased val => shAliasGet c.aliases (splitCmd (prepare c raw)).1 = some val
    | .command cmd a => splitCmd (prepare c raw) = (cmd, a) := by
  unfold shape
  by_cases hnil : prepare c raw = []
  · rw [if_pos hnil]
    exact hnil
  · rw [if_neg hnil]
    cases splitPipe (prepare c raw) with
    | some parts => rfl
    | none => cases shAliasGet c.aliases (splitCmd (prepare c raw)).1 <;> rfl

/-- One round of `lash_source`. A value ends after 127 characters, and may have a quote in front. -/
def sourceRound (s : ShState σ) (f : b.File) (ci : Nat) (cells : Nat → UInt8) : Result b :=
  let content := (b.text f s.core.rest).drop ci
  if content = [] then goOn b s []
  else
    let line := (content.takeWhile (· ≠ newline)).take (shBuf - 1)
    let ci := ci + line.length + (if (content.drop line.length).head? = some newline then 1 else 0)
    let cells := storeLine cells line
    let p := trim line
    if p = [] ∨ p.head? = some (chr '#') then goOn b s [.source f ci cells]
    else if line.take 6 = cstr "alias " then
      let (n, v) := sourceAlias line (cellText cells (line.length + 1) 128)
      let s := { s with core := { s.core with aliases := shAliasSet s.core.aliases n v } }
      goOn b (s.say (aliasSet n v)) [.source f ci cells]
    else goOn b s [.call line, .source f ci cells]

/-- A key on the desktop. -/
def desktopKey (s : ShState σ) : Result b :=
  match s.core.keys with
  | [] => none
  | k :: ks =>
    let s := { s with core := { s.core with keys := ks } }
    if k = keyF2 then goOn b s [.terminal (-1), .desktop]
    else if k = keyF3 then
      -- the file manager is closed by Escape
      match ks.dropWhile (· ≠ 27) with
      | [] => none
      | _ :: ks => goOn b { s with core := { s.core with keys := ks } } [.desktop]
    else if k = keyF5 then
      match ks with
      | [] => none
      | k' :: ks =>
        -- restart and shutdown
        if k' = 0x32 ∨ k' = 0x33 then none
        else goOn b { s with core := { s.core with keys := ks } } [.desktop]
    else if k = 27 then goOn b s []
    else goOn b s [.desktop]

/-- A line in the terminal of the desktop. -/
def terminalRound (s : ShState σ) (histIdx : Int) : Result b :=
  match termLine s.core.hist [] histIdx s.core.keys with
  | none => none
  | some (.escape, _, keys, out) => goOn b ({ s with core := { s.core with keys := keys } }.say out) []
  | some (.line input, idx, keys, out) =>
    let s := { s with core := { s.core with keys := keys } }.say out
    if input = [] then goOn b s [.terminal idx]
    else goOn b { s with core := { s.core with hist := pushHist s.core.hist input } } [.call input, .terminal idx]

/-- What a frame does. -/
def exec (s : ShState σ) : Frame b → Result b
  | .call line => shDispatch b s line
  | .pipeRight right mark =>
    let feed := ((s.printed.drop mark).take (pipeSize - 1)).map Subtype.val
    goOn b { s with pipe := s.pipe.connect, feed := some feed } [.call right, .endPipe s.feed]
  | .endPipe feed => goOn b { s with feed := feed } []
  | .endRok typed => goOn b { s with core := { s.core with rok := false }, typed := typed } []
  | .source f ci cells => sourceRound b s f ci cells
  | .desktop => desktopKey b s
  | .terminal histIdx => terminalRound b s histIdx

end Exec

/-! ## What a frame can do -/

/-- The frame restores what the stage before has printed. -/
def Frame.isEndPipe {b : Builtins σ} : Frame b → Bool
  | .endPipe _ => true
  | _ => false

/-- The steps of a frame. A silent one leaves no event, and the running stage stays the same. -/
inductive ExecStep (b : Builtins σ) (s : ShState σ) : Frame b → List Event → ShState σ → List (Frame b) → Prop where
  | silent {f : Frame b} {s' : ShState σ} {fs : List (Frame b)} (hf : f.isEndPipe = false) (hfeed : s'.feed = s.feed)
      (hfs : fs.all (fun f => !f.isEndPipe) = true) : ExecStep b s f [] s' fs
  | pipeRight {right : CStr} {mark : Nat} {s' : ShState σ} :
      ExecStep b s (.pipeRight right mark) [] s' [.call right, .endPipe s.feed]
  | endPipe {feed : Option (List UInt8)} : ExecStep b s (.endPipe feed) [] { s with feed := feed } []
  | rok {line a : CStr} {es : List Event} {s' : ShState σ} {fs : List (Frame b)} (h : shRok b s a = some (es, s', fs))
      (hfeed : s'.feed = s.feed) (hfs : fs.all (fun f => !f.isEndPipe) = true) : ExecStep b s (.call line) es s' fs
  | grep (line a : CStr) : ExecStep b s (.call line) (fsGrep b s a).1 (fsGrep b s a).2 []
  | leaf {line cmd a : CStr} {out : List Emission} {core : Core σ} {es : List Event}
      (h : leaf b s.core s.typed cmd a = some (out, core, es)) :
      ExecStep b s (.call line) es ({ s with core := core }.say out) []

/-- A command that calls nothing; or at most the aliases, the history, the keys and `sh_rok` are
written. -/
inductive CoreStep (b : Builtins σ) (s : ShState σ) : Frame b → Core σ → Prop where
  | leaf {line cmd a : CStr} {out : List Emission} {core : Core σ} {es : List Event}
      (hshape : shape s.core line = .command cmd a) (h : leaf b s.core s.typed cmd a = some (out, core, es)) :
      CoreStep b s (.call line) core
  | frame {f : Frame b} (aliases : Table) (hist : List CStr) (keys : List Int) (rok : Bool) :
      CoreStep b s f { s.core with aliases := aliases, hist := hist, keys := keys, rok := rok }

variable {b : Builtins σ}

variable {s s' : ShState σ} {f : Frame b} {es : List Event} {fs : List (Frame b)}

lemma exec_call {sh : Shape} (hshape : shape s.core line = sh) : exec b s (.call line) = dispatchShape b s sh :=
  (shDispatch_shape b s line).trans (congrArg _ hshape)

lemma CoreStep.refl (b : Builtins σ) (s : ShState σ) (f : Frame b) : CoreStep b s f s.core :=
  .frame s.core.aliases s.core.hist s.core.keys s.core.rok

lemma CoreStep.keys (b : Builtins σ) (s : ShState σ) (f : Frame b) (keys : List Int) :
    CoreStep b s f { s.core with keys := keys } :=
  .frame s.core.aliases s.core.hist keys s.core.rok

lemma steps_of_goOn {s₁ : ShState σ} {fs₁ : List (Frame b)} (h : goOn b s₁ fs₁ = some (es, s', fs))
    (hcore : CoreStep b s f s₁.core) (hf : f.isEndPipe = false) (hfeed : s₁.feed = s.feed)
    (hfs : fs₁.all (fun f => !f.isEndPipe) = true) : ExecStep b s f es s' fs ∧ CoreStep b s f s'.core := by
  obtain ⟨rfl, rfl, rfl⟩ := h
  exact ⟨.silent hf hfeed hfs, hcore⟩

lemma shRok_keeps (h : shRok b s a = some (es, s', fs)) :
    s'.feed = s.feed ∧ (∃ keys rok, s'.core = { s.core with keys := keys, rok := rok }) ∧
      (fs = [] ∨ a ≠ [] ∧ ∃ typed, fs = [.call a, .endRok typed]) := by
  unfold shRok at h
  split at h
  · obtain ⟨-, rfl, rfl⟩ := h
    exact ⟨rfl, ⟨_, _, rfl⟩, .inl rfl⟩
  rename_i ha
  split at h
  · obtain ⟨-, rfl, rfl⟩ := h
    exact ⟨rfl, ⟨_, _, rfl⟩, .inr ⟨ha, _, rfl⟩⟩
  split at h
  · exact nomatch h
  dsimp only at h
  split at h
  · obtain ⟨-, rfl, rfl⟩ := h
    exact ⟨rfl, ⟨_, _, rfl⟩, .inr ⟨ha, _, rfl⟩⟩
  · obtain ⟨-, rfl, rfl⟩ := h
    exact ⟨rfl, ⟨_, _, rfl⟩, .inl rfl⟩

lemma command_steps (hshape : shape s.core line = .command cmd a) (h : command b s cmd a = some (es, s', fs)) :
    ExecStep b s (.call line) es s' fs ∧ CoreStep b s (.call line) s'.core := by
  unfold command at h
  split at h
  · obtain ⟨hfeed, ⟨keys, rok, hcore⟩, hfs⟩ := shRok_keeps h
    refine ⟨.rok h hfeed ?_, hcore ▸ .frame _ _ keys rok⟩
    rcases hfs with rfl | ⟨-, typed, rfl⟩ <;> rfl
  · exact steps_of_goOn h (.refl b s _) rfl rfl rfl
  · exact steps_of_goOn h (.refl b s _) rfl rfl rfl
  -- `source`
  · split at h
    · exact steps_of_goOn h (.refl b s _) rfl rfl rfl
    · split at h <;> exact steps_of_goOn h (.refl b s _) rfl rfl rfl
  -- `!!`
  · split at h <;> exact steps_of_goOn h (.refl b s _) rfl rfl rfl
  -- `wm`
  · split at h
    · exact nomatch h
    · rename_i ok keys _
      refine steps_of_goOn h (.keys b s _ _) rfl rfl ?_
      cases ok <;> rfl
  -- `grep`
  · have hgrep := ExecStep.grep (b := b) (s := s) line a
    have hkeeps := (fsGrep_keeps b s a).1
    generalize fsGrep b s a = r at h hgrep hkeeps
    obtain ⟨rfl, rfl, rfl⟩ := h
    refine ⟨hgrep, ?_⟩
    rw [hkeeps]
    exact .refl b s _
  · obtain ⟨⟨out, core, events⟩, hleaf, heq⟩ := Option.map_eq_some_iff.mp h
    obtain ⟨rfl, rfl, rfl⟩ := heq
    exact ⟨.leaf hleaf, .leaf hshape hleaf⟩

lemma desktopKey_steps (h : desktopKey b s = some (es, s', fs)) :
    ExecStep b s .desktop es s' fs ∧ CoreStep b s .desktop s'.core := by
  unfold desktopKey at h
  split at h
  · exact nomatch h
  split at h
  · exact steps_of_goOn h (.keys b s _ _) rfl rfl rfl
  split at h
  · split at h
    · exact nomatch h
    · exact steps_of_goOn h (.keys b s _ _) rfl rfl rfl
  split at h
  · split at h
    · exact nomatch h
    · split at h
      · exact nomatch h
      · exact steps_of_goOn h (.keys b s _ _) rfl rfl rfl
  split at h <;> exact steps_of_goOn h (.keys b s _ _) rfl rfl rfl

/-- **The step lemma.** -/
theorem exec_steps (h : exec b s f = some (es, s', fs)) : ExecStep b s f es s' fs ∧ CoreStep b s f s'.core := by
  cases f with
  | call line =>
    cases hshape : shape s.core line with
    | command cmd a =>
      rw [exec_call hshape] at h
      exact command_steps hshape h
    | _ =>
      rw [exec_call hshape] at h
      exact steps_of_goOn h (.refl b s _) rfl rfl rfl
  | pipeRight right mark =>
    obtain ⟨rfl, rfl, rfl⟩ := h
    exact ⟨.pipeRight, .refl b s _⟩
  | endPipe feed =>
    obtain ⟨rfl, rfl, rfl⟩ := h
    exact ⟨.endPipe, .refl b s _⟩
  | endRok typed => exact steps_of_goOn h (.frame _ _ _ false) rfl rfl rfl
  | source f ci cells =>
    change sourceRound b s f ci cells = _ at h
    unfold sourceRound at h
    dsimp only at h
    split at h
    · exact steps_of_goOn h (.refl b s _) rfl rfl rfl
    split at h
    · exact steps_of_goOn h (.refl b s _) rfl rfl rfl
    split at h
    · exact steps_of_goOn h (.frame _ _ _ _) rfl rfl rfl
    · exact steps_of_goOn h (.refl b s _) rfl rfl rfl
  | desktop => exact desktopKey_steps h
  | terminal histIdx =>
    change terminalRound b s histIdx = _ at h
    unfold terminalRound at h
    split at h
    · exact nomatch h
    · exact steps_of_goOn h (.keys b s _ _) rfl rfl rfl
    split at h
    · exact steps_of_goOn h (.keys b s _ _) rfl rfl rfl
    · exact steps_of_goOn h (.frame _ _ _ _) rfl rfl rfl

/-! ## Sessions -/

/-- A run of `sh_dispatch` on lines one after the other. -/
abbrev Session (b : Builtins σ) (s : ShState σ) (lines : List CStr) (events : List Event)
    (c : ShState σ × List (Frame b)) : Prop :=
  Frames.Runs (exec b) (s, lines.map .call) events c

/-- The shell when it starts: the aliases that `shell_run` sets, and the user `root`. -/
def ShState.boot (keys : List Int) (rest : σ) : ShState σ where
  core :=
    { vars := [], aliases := [(cstr "ll", cstr "ls -la"), (cstr "la", cstr "ls -la"), (cstr "cls", cstr "clear")]
      hist := [], user := cstr "root", uid := 0, cwd := cstr "/", rok := false, db := initialUsers, keys := keys
      rest := rest }
  pipe := ⟨fun _ => 0, 0, false, false, 0⟩
  printed := []
  feed := none
  typed := none

/-! ## A system to try sessions on -/

/-- A system in which the other commands do nothing. -/
def idleBuiltins : Builtins Unit where
  run := fun _ _ c => some ([], c.cwd, c.keys, ())
  adduser := fun _ _ => ([], ())
  grepFiles := fun _ _ _ => []
  File := Empty
  lookup := fun _ _ _ => none
  text := fun f _ => nomatch f
  stack := fun _ _ => 0

/-- Keys that type a text, with Enter behind it. -/
def typeText (text : String) : List Int := text.toList.map (fun c => (c.toNat : Int)) ++ [10]

/-- The run of lines from the start of the shell, for `n` steps. -/
def demo (keys : List Int) (n : Nat) (lines : List String) : List Event × ShState Unit × List (Frame idleBuiltins) :=
  Frames.run (exec idleBuiltins) n (ShState.boot keys (), lines.map (fun l => .call (cstr l)))

lemma demo_session (keys : List Int) (n : Nat) (lines : List String) :
    Session idleBuiltins (ShState.boot keys ()) (lines.map cstr) (demo keys n lines).1 (demo keys n lines).2 := by
  unfold Session
  rw [List.map_map]
  exact Frames.run_runs n _

end PigOS.Shell
