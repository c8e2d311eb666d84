import PigOS.Kernel.Users

/-!
# `Shell.Rpk` — the package manager of `shell/rpk.h`

`install` (also spelled `on`) and `remove` are the subcommands that change something: a flag in the
database, the list of runnable commands, and for `install` a file below `/usr/bin/`. Of the database
only the names are used.
-/

namespace PigOS.Shell

open Kernel

/-- The names of `rpk_db`. -/
def rpkDb : List CStr := List.map cstr [
  "btop", "htop", "pivi", "python3", "pip3", "neofetch", "curl", "wget", "git", "pnano", "bash", "gcc",
  "nmap", "tcpdump", "openssl", "ssh", "tmux", "zsh", "fish", "make", "gdb", "strace", "lsof", "tree",
  "jq", "ripgrep", "fd"]

def rpkInstalledCmds : Nat := 32

structure RpkState where
  /-- The flag `installed` of the package at an index of `rpkDb`. -/
  installed : Nat → Bool
  cmds : List CStr

def initialRpk : RpkState := ⟨fun _ => false, []⟩

def rpkFindPkg (n : CStr) : Option Nat := rpkDb.findIdx? (fun p => ksc p n = 0)

def RpkState.setInstalled (r : RpkState) (idx : Nat) (b : Bool) : RpkState :=
  { r with installed := fun j => if j = idx then b else r.installed j }

def installedText : Content := ⟨cstr "[installed binary]", by decide⟩

def rpkInstall (r : RpkState) (fs : Pigfs) (pkg : CStr) : RpkState × Pigfs :=
  match rpkFindPkg pkg with
  | none => (r, fs)
  | some idx =>
    if r.installed idx then (r, fs)
    else
      let r := r.setInstalled idx true
      let r := if r.cmds.length < rpkInstalledCmds then { r with cmds := r.cmds ++ [pkg] } else r
      (r, createWith fs (cstr "/usr/bin/" ++ pkg) (MemFile.write installedText))

/-- `rpk remove`; the essential packages it refuses to remove are not in the database. -/
def rpkRemove (r : RpkState) (pkg : CStr) : RpkState :=
  match rpkFindPkg pkg with
  | none => r
  | some idx =>
    if !r.installed idx then r
    else if pkg ∈ List.map cstr ["larpshell", "poing", "rpk"] then r
    else { r.setInstalled idx false with cmds := r.cmds.erase pkg }

/-- `sub` -/
def rpkSub (args : CStr) : CStr := (args.takeWhile (· ≠ space)).take 31

/-- What `pkg` points to. -/
def rpkPkg (args : CStr) : CStr := (args.drop (rpkSub args).length).dropWhile (· = space)

/-- `cmd_rpk`; a package without a name is not in the database. -/
def cmdRpk (args : CStr) (s : RpkState × Pigfs) : RpkState × Pigfs :=
  if rpkSub args = cstr "install" ∨ rpkSub args = cstr "on" then rpkInstall s.1 s.2 (rpkPkg args)
  else if rpkSub args = cstr "remove" then (rpkRemove s.1 (rpkPkg args), s.2)
  else s

end PigOS.Shell
