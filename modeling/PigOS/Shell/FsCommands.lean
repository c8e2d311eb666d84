import PigOS.Shell.Rpk

/-!
# `Shell.FsCommands` — the machine of everything that writes the file system

The commands that can change `memfs` or the deletion table, and the soft reboot, are one step
function `fsStep`. A run of it from `boot` is a session; a state is *reachable* when a session ends
in it. The working directory is an argument of each command: whatever `cd` and `su` make of it, the
results hold for every value. An editor is represented by its save command, with a text that fits
the field.
-/

namespace PigOS.Shell

open Kernel

/-! ## The commands of `shell.h` -/

inductive MkdirReport where
  | usage | fileExists (a : CStr) | outOfMemory
  | created (path : CStr)
  deriving DecidableEq

def shMkdir (fs : Pigfs) (cwd a : CStr) : MkdirReport × Pigfs :=
  if a = [] then (.usage, fs)
  else
    let p2 := fsResolve cwd a 256
    if (memfsFind fs p2).isSome then (.fileExists a, fs)
    else
      match memfsCreate fs p2 with
      | (some i, fs) => (.created p2, fs.modifyFile i MemFile.mkDir)
      | (none, fs) => (.outOfMemory, fs)

inductive RmdirReport where
  | usage | noSuchFile (a : CStr) | notDirectory (a : CStr)
  | removed (path : CStr)
  deriving DecidableEq

/-- What `rmdir` leaves in the slot. -/
def MemFile.rmdir (m : MemFile) : MemFile := { m with used := 0, isDir := false, content := Content.empty }

def shRmdir (fs : Pigfs) (cwd a : CStr) : RmdirReport × Pigfs :=
  if a = [] then (.usage, fs)
  else
    let p2 := fsResolve cwd a 256
    match memfsFind fs p2 with
    | none => (.noSuchFile a, fs)
    | some i =>
      if (fs.memfs[i]?).any (·.isDir) then (.removed p2, fs.modifyFile i MemFile.rmdir)
      else (.notDirectory a, fs)

/-! ## The editors -/

/-- The save code that `pnano`, `pi` and `menuconfig` share: the file is found or made, and its text
replaced. -/
def saveFile (fs : Pigfs) (path : CStr) (text : Content) : Pigfs :=
  match memfsFind fs path with
  | some i => fs.modifyFile i (MemFile.write text)
  | none => createWith fs path (MemFile.write text)

/-- The text that a reader finds through `memfs_find`. -/
def fileText (fs : Pigfs) (path : CStr) : Option CStr :=
  ((memfsFind fs path).bind (fs.memfs[·]?)).map (fun m => m.content.val)

/-- The file an editor works on. -/
def editorPath (cwd f : CStr) : CStr :=
  if f = [] then cstr "/tmp/unnamed.txt" else fsResolve cwd f 256

def cmdNanoSave (fs : Pigfs) (cwd f : CStr) (text : Content) : Pigfs := saveFile fs (editorPath cwd f) text

def cmdViSave (fs : Pigfs) (cwd f : CStr) (text : Content) : Pigfs := saveFile fs (editorPath cwd f) text

def mcfgSave (fs : Pigfs) (text : Content) : Pigfs := saveFile fs (cstr "/etc/pigos.conf") text

/-- The log `rtldebug` saves. It stores the number of bytes in `used` and no terminator: what the
file holds then depends on the bytes that were there. -/
def rtldebugSave (fs : Pigfs) (len : Nat) (text : Content) : Pigfs :=
  createWith fs (cstr "/var/log/netdebug.log") (fun m => { m with content := text, used := len })

/-! ## Sessions -/

/-- The part of the kernel's state that the commands below read and write. -/
structure Sys where
  fs : Pigfs
  users : UserDb
  rpk : RpkState
  halted : Bool

/-- `kernel_main`: the static data are as linked, the deletion store is as the last run left it, and
`del_sync_from_store` and `users_init` run. -/
def boot (store : DelStore) : Sys where
  fs := usersInitFiles (delSyncFromStore ⟨[], [], store⟩)
  users := initialUsers
  rpk := initialRpk
  halted := false

inductive Cmd where
  | touch (cwd arg : CStr) | mkdir (cwd arg : CStr)
  | rm (cwd arg : CStr) | rmdir (cwd arg : CStr)
  | pnano (cwd f : CStr) (text : Content) | pi (cwd f : CStr) (text : Content)
  | menuconfig (text : Content)
  | adduser (n : UserName) | deluser (n : CStr)
  | rpkInstall (pkg : CStr) | rpkRemove (pkg : CStr)
  | rtldebug (len : Nat) (text : Content)
  | reboot

/-- What a command reports about the file system. -/
inductive Report where
  | touch (r : TouchReport) | mkdir (r : MkdirReport)
  | rm (r : RmReport) | rmdir (r : RmdirReport)
  | adduser (r : AdduserReport)
  | silent
  deriving DecidableEq

/-- The command that needs no running shell: a reset of the machine does the same. -/
def Cmd.isReboot : Cmd → Bool
  | .reboot => true
  | _ => false

/-- One command. After a panic the machine is halted for good, and only a reset makes it run
again. -/
def fsStep (s : Sys) (c : Cmd) : Report × Sys :=
  if s.halted && !c.isReboot then (.silent, s)
  else
    match c with
    | .touch cwd arg => let (r, fs) := fsTouch s.fs cwd arg; (.touch r, { s with fs := fs })
    | .mkdir cwd arg => let (r, fs) := shMkdir s.fs cwd arg; (.mkdir r, { s with fs := fs })
    | .rm cwd arg =>
      match fsRm s.fs cwd arg with
      | (.panic p, fs) => (.rm (.panic p), { s with fs := fs, halted := true })
      | (r, fs) => (.rm r, { s with fs := fs })
    | .rmdir cwd arg => let (r, fs) := shRmdir s.fs cwd arg; (.rmdir r, { s with fs := fs })
    | .pnano cwd f text => (.silent, { s with fs := cmdNanoSave s.fs cwd f text })
    | .pi cwd f text => (.silent, { s with fs := cmdViSave s.fs cwd f text })
    | .menuconfig text => (.silent, { s with fs := mcfgSave s.fs text })
    | .adduser n =>
      let (r, db, fs) := cmdAdduser s.users s.fs n
      (.adduser r, { s with users := db, fs := fs })
    | .deluser n => (.silent, { s with users := Kernel.deluser s.users n })
    | .rpkInstall pkg =>
      let (r, fs) := Shell.rpkInstall s.rpk s.fs pkg
      (.silent, { s with rpk := r, fs := fs })
    | .rpkRemove pkg => (.silent, { s with rpk := Shell.rpkRemove s.rpk pkg })
    | .rtldebug len text => (.silent, { s with fs := rtldebugSave s.fs len text })
    | .reboot => (.silent, boot s.fs.store)

/-- The path that a command reports as removed. -/
def Report.removed : Report → Option CStr
  | .rm (.removed p) => some p
  | .rmdir (.removed p) => some p
  | _ => none

/-- A state that some session ends in, when memory did not hold the magic value at power-on. -/
def Reachable (s : Sys) : Prop :=
  ∃ store cs, store.magic ≠ delMagic ∧ s = Machine.exec fsStep (boot store) cs

end PigOS.Shell
