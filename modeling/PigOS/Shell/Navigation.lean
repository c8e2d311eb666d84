import PigOS.Shell.Dispatch
import PigOS.Shell.FsCommands

/-!
# `Shell.Navigation` — the working directory over a session

`cd` stores the path it has found in `sh_cwd`, `su` the home directory of the user it switches to.
The commands that set it, and those that make the directories it can point to, are one machine. For
the shell as a whole, `Builtins.withCd` adds `cd`, `pushd` and `popd` to the commands of a system;
`su` and `r-` are in `Shell.Dispatch`.
-/

namespace PigOS.Shell

open Kernel

structure NavState where
  sys : Sys
  cwd : CStr

def navBoot (store : DelStore) : NavState := ⟨boot store, cstr "/"⟩

inductive NavCmd where
  | adduser (n : UserName)
  | mkdir (a : CStr)
  /-- `su` with its argument and the password that is typed -/
  | su (a pw : CStr)
  | cd (a : CStr)

/-- The working directory after `su`. -/
def suCwd (db : UserDb) (cwd a pw : CStr) : CStr :=
  let target := if a ≠ [] ∧ a.head? ≠ some (chr '-') then a else cstr "root"
  match (ufind db target).bind (db.users[·]?) with
  | some u => if ksc pw u.pass = 0 then u.home else cwd
  | none => cwd

/-- The working directory after `cd`. -/
def cdCwd (cwd : CStr) : CdReport → CStr
  | .entered p => p
  | _ => cwd

inductive NavReport where
  | fs (r : Report)
  | cd (r : CdReport)
  | silent
  deriving DecidableEq

/-- One command. A `cd` that writes behind its arrays ends the session. -/
def navStep (s : NavState) (c : NavCmd) : NavReport × NavState :=
  if s.sys.halted then (.silent, s)
  else
    match c with
    | .adduser n => let (r, sys) := fsStep s.sys (.adduser n); (.fs r, { s with sys := sys })
    | .mkdir a => let (r, sys) := fsStep s.sys (.mkdir s.cwd a); (.fs r, { s with sys := sys })
    | .su a pw => (.silent, { s with cwd := suCwd s.sys.users s.cwd a pw })
    | .cd a =>
      let r := fsCd s.sys.fs s.cwd a
      (.cd r, ⟨{ s.sys with halted := decide (r = .overflow) }, cdCwd s.cwd r⟩)

/-! ## In the dispatcher -/

section Dispatcher

variable {σ : Type}

/-- The state after `fs_cd`, with `out` printed behind its message. An overflow is not followed. -/
def cdRun (c : Core σ) (r : CdReport) (out : List Emission) : Option (List Emission × CStr × List Int × σ) :=
  if r = .overflow then none else some (.vps r.text :: out, cdCwd c.cwd r, c.keys, c.rest)

/-- A system with the commands that write `sh_cwd`. The other commands are those of `b`. -/
def Builtins.withCd (b : Builtins σ) (fs : σ → Pigfs) : Builtins σ :=
  { b with
    run := fun cmd a c =>
      if cmd = cstr "cd" then cdRun c (fsCd (fs c.rest) c.cwd a) []
      else if cmd = cstr "pushd" then cdRun c (fsCd (fs c.rest) c.cwd a) [.vpln (cstr "[pushed]")]
      else if cmd = cstr "popd" then cdRun c (fsCd (fs c.rest) c.cwd (cstr "/")) [.vpln (cstr "[popped]")]
      else (b.run cmd a c).map (fun (out, _, keys, rest) => (out, c.cwd, keys, rest)) }

end Dispatcher

end PigOS.Shell
