import PigOS.Kernel.Mem

/-!
# `Kernel.Pigfs` — the file system of `kernel/pigfs.h`

`vfs` is the read-only table compiled into the kernel; `memfs` holds the files made at run time. A
read-only node cannot be erased, so `rm` on it records a *tombstone*: its path goes into the mirror
`deleted_paths` and from there into the deletion store, at a fixed physical address that a soft
reboot leaves in memory.

- The two arrays are lists, whose lengths are the counters `memfs_n` and `deleted_n`; a pointer is
  an index.
- `MemFile.path` is the 128-byte array of the source. A longer path fills it without a terminator,
  and the C string that starts there runs on into `content`, which follows it in the structure
  (`MemFile.cpath`).
- The texts of the read-only nodes are left out: nothing here reads them.
-/

namespace PigOS.Kernel

/-- The character that separates the components of a path. -/
def slash : CChar := chr '/'

def dot : CChar := chr '.'

def space : CChar := chr ' '

/-! ## The read-only table -/

structure VNode where
  path : CStr
  isDir : Bool
  deriving DecidableEq

def vfsDirs : List String := [
  "/", "/boot", "/kernel", "/drivers", "/drivers/vga", "/drivers/kbd", "/drivers/ps2", "/drivers/net",
  "/shell", "/shell/games", "/wm", "/crypto", "/dev", "/proc", "/etc", "/etc/skel", "/root", "/home",
  "/tmp", "/usr", "/usr/bin", "/usr/lib", "/var", "/var/log", "/bin", "/sbin", "/proc/net",
  "/kernel/poing"]

def vfsFiles : List String := [
  "/README.txt", "/Makefile", "/linker.ld", "/boot/README.txt", "/boot/boot.asm", "/boot/pig.bin",
  "/boot/grub.cfg", "/kernel/README.txt", "/kernel/kernel.c", "/kernel/mem.h", "/kernel/users.h",
  "/kernel/pigfs.h", "/kernel/poing/poing.h", "/drivers/README.txt", "/drivers/vga/vga.h",
  "/drivers/kbd/keyboard.h", "/drivers/ps2/ps2.h", "/drivers/net/network.h", "/shell/README.txt",
  "/shell/shell.h", "/shell/vi.h", "/shell/fastfetch.h", "/shell/polctl.h", "/shell/rpk.h",
  "/shell/netpg.h", "/shell/games/tetris.h", "/wm/README.txt", "/wm/wm.h", "/crypto/README.txt",
  "/crypto/pigssl.h", "/dev/tty0", "/dev/kbd", "/dev/mouse", "/dev/null", "/dev/zero", "/dev/random",
  "/dev/mem", "/dev/eth0", "/proc/cpuinfo", "/proc/meminfo", "/proc/version", "/proc/uptime",
  "/proc/mounts", "/proc/net/dev", "/etc/passwd", "/etc/shadow", "/etc/group", "/etc/hostname",
  "/etc/fstab", "/etc/pig.conf", "/etc/hosts", "/etc/resolv.conf", "/etc/skel/.lashrc", "/usr/bin/pig",
  "/usr/bin/rpk", "/usr/bin/netpg", "/usr/bin/pigssl", "/var/log/poing.log", "/var/log/kernel.log",
  "/var/log/net.log", "/var/log/netdebug.log"]

/-- The table `VFS`, in the order of the source: directories first. -/
def vfs : List VNode :=
  vfsDirs.map (fun p => ⟨cstr p, true⟩) ++ vfsFiles.map (fun p => ⟨cstr p, false⟩)

/-! ## Files made at run time -/

def memfsMax : Nat := 64

/-- `sizeof` of the field `MemFile.path`. -/
def pathField : Nat := 128

/-- `sizeof` of the field `MemFile.content`. -/
def contentField : Nat := 2048

/-- A text that fits a `content` field together with its terminator. -/
abbrev Content := { c : CStr // c.length < contentField }

structure MemFile where
  /-- The bytes of the path array before its first terminator. -/
  path : CStr
  content : Content
  used : Nat
  isDir : Bool
  path_le : path.length ≤ pathField

/-- The C string that starts at `path`: an array filled to its last byte has no terminator of its
own. -/
def MemFile.cpath (m : MemFile) : CStr :=
  if m.path.length < pathField then m.path else m.path ++ m.content.val

/-- An empty `content`: its first byte is the terminator. -/
def Content.empty : Content := ⟨[], by decide⟩

/-! ## The deletion store -/

def delMagic : Nat := 0xDEAD1337
def deletedMax : Nat := 64

/-- The physical address of the deletion store. -/
def delStoreAddr : Nat := 0x600000

/-- `sizeof(DelStore)`: packed, two 32-bit words and the path table. -/
def delStoreSize : Nat := 4 + 4 + deletedMax * 128

structure DelStore where
  magic : Nat
  count : Nat
  /-- The path table; only the indices below `deletedMax` exist. -/
  paths : Nat → CStr

/-- The file system's globals. -/
structure Pigfs where
  memfs : List MemFile
  deleted : List CStr
  store : DelStore

def delStoreInit (d : DelStore) : DelStore :=
  if d.magic ≠ delMagic then ⟨delMagic, 0, fun _ => []⟩ else d

def delSyncFromStore (fs : Pigfs) : Pigfs :=
  let d := delStoreInit fs.store
  -- the count is read through an `int`: from `2^31` on it is negative and the loop copies nothing
  let n := if d.count < 2 ^ 31 then min d.count deletedMax else 0
  { fs with store := d, deleted := (List.range n).map d.paths }

def delSyncToStore (fs : Pigfs) : Pigfs :=
  let d := delStoreInit fs.store
  { fs with store := { d with
      count := fs.deleted.length
      paths := fun i => (fs.deleted[i]?).getD (d.paths i) } }

/-- The entries of the store that `fs_is_deleted` compares with. -/
def DelStore.entries (d : DelStore) : List CStr := (List.range (min d.count deletedMax)).map d.paths

/-- `fs_is_deleted`. Its `del_store_init` finds the magic value in place, since `kernel_main` has
synchronised. -/
def fsIsDeleted (fs : Pigfs) (p : CStr) : Bool :=
  (delStoreInit fs.store).entries.any (fun q => ksc q p = 0) || fs.deleted.any (fun q => ksc q p = 0)

def fsMarkDeleted (fs : Pigfs) (p : CStr) : Pigfs :=
  let fs := if fs.deleted.length < deletedMax then { fs with deleted := fs.deleted ++ [p] } else fs
  -- persist immediately
  delSyncToStore fs

/-! ## Finding and creating -/

def memfsFind (fs : Pigfs) (p : CStr) : Option Nat :=
  fs.memfs.findIdx? (fun m => m.used ≠ 0 && decide (ksc m.cpath p = 0) && !fsIsDeleted fs m.cpath)

/-- The slot that `memfs_create` fills for a new path. -/
def MemFile.create (p : CStr) : MemFile where
  path := p.take pathField
  content := Content.empty
  used := 1
  isDir := decide (1 < p.length) && decide (p.getLast? = some slash)
  path_le := List.length_take_le _ _

/-- `memfs_create`: the loop it begins with is that of `memfs_find`. -/
def memfsCreate (fs : Pigfs) (p : CStr) : Option Nat × Pigfs :=
  match memfsFind fs p with
  | some i => (some i, fs)
  | none =>
    if memfsMax ≤ fs.memfs.length then (none, fs)
    else (some fs.memfs.length, { fs with memfs := fs.memfs ++ [MemFile.create p] })

/-- Writing through a pointer into `memfs`. -/
def Pigfs.modifyFile (fs : Pigfs) (i : Nat) (f : MemFile → MemFile) : Pigfs :=
  { fs with memfs := fs.memfs.modify i f }

def fsFindVnode (fs : Pigfs) (p : CStr) : Option VNode :=
  if fsIsDeleted fs p then none else vfs.find? (fun v => ksc v.path p = 0)

/-! ## Path resolution -/

/-- The second half of `path_normalize`: `//` is collapsed to `/`. -/
def collapseSlashes : CStr → CStr
  | a :: b :: rest =>
    if a = slash ∧ b = slash then collapseSlashes (b :: rest) else a :: collapseSlashes (b :: rest)
  | p => p

def pathNormalize (p : CStr) : CStr :=
  collapseSlashes (if 1 < p.length ∧ p.getLast? = some slash then p.dropLast else p)

/-- The loop `while(l>1&&out[l-1]!='/') l--`. -/
def backToSlash (out : CStr) : Nat → Nat
  | 0 => 0
  | l + 1 => if 0 < l ∧ out[l]? ≠ some slash then backToSlash out l else l + 1

/-- Step over one slash, if there is one. -/
def skipSlash : CStr → CStr
  | c :: p => if c = slash then p else c :: p
  | [] => []

/-- The component loop of `fs_resolve`. Every round takes a byte off `p`: `p.length + 1` rounds are
enough. -/
def resolveLoop (outsz : Nat) : Nat → CStr → CStr → CStr
  | 0, _, out => out
  | k + 1, p, out =>
    let p := p.dropWhile (· = slash)
    if p = [] then out
    else if p.take 2 = [dot, dot] ∧ (p[2]? = none ∨ p[2]? = some slash) then
      -- go up; an empty `out` gets `ol = 1` with the terminator still in `out[0]`, and stays empty
      if out = [] then []
      else
        let l := backToSlash out out.length
        let l := if 1 < l then l - 1 else l
        resolveLoop outsz k (skipSlash (p.drop 2)) (out.take (max l 1))
    else if p.head? = some dot ∧ (p[1]? = none ∨ p[1]? = some slash) then
      resolveLoop outsz k (skipSlash (p.drop 1)) out
    else if outsz - 2 ≤ out.length then out
    else
      let out := if out ≠ [] ∧ out.getLast? ≠ some slash then out ++ [slash] else out
      let n := min (p.takeWhile (· ≠ slash)).length (outsz - 1 - out.length)
      resolveLoop outsz k (skipSlash (p.drop n)) (out ++ p.take n)

def fsResolve (cwd path : CStr) (outsz : Nat) : CStr :=
  if path = [] ∨ path = [dot] then pathNormalize cwd
  else if ksc path (cstr "~") = 0 then cstr "/"
  else
    let out :=
      if path.head? = some slash then path.take (outsz - 1)
      else resolveLoop outsz (path.length + 1) path (cwd.take (outsz - 1))
    pathNormalize (if out = [] then cstr "/" else out)

/-! ## `touch` -/

inductive TouchReport where
  | usage | fileExists | existsInPigfs | memoryFull
  | created (path : CStr)
  deriving DecidableEq

def fsTouch (fs : Pigfs) (cwd arg : CStr) : TouchReport × Pigfs :=
  if arg = [] then (.usage, fs)
  else
    let path := fsResolve cwd arg 256
    if (memfsFind fs path).isSome then (.fileExists, fs)
    else if (fsFindVnode fs path).isSome then (.existsInPigfs, fs)
    else
      match memfsCreate fs path with
      | (some _, fs) => (.created path, fs)
      | (none, fs) => (.memoryFull, fs)

/-! ## `cd` -/

/-- `cd` goes to a directory without a word, or stays and prints an error. `overflow` is a write
behind one of its 256-byte arrays. -/
inductive CdReport where
  | entered (path : CStr)
  | noSuchFile (arg : CStr) | notDirectory (arg : CStr)
  | overflow
  deriving DecidableEq

def CdReport.text : CdReport → CStr
  | .entered _ => []
  | .noSuchFile a => cstr "cd: " ++ a ++ cstr ": No such file or directory\n"
  | .notDirectory a => cstr "cd: " ++ a ++ cstr ": Not a directory\n"
  | .overflow => []

/-- `memfs_find` finds a directory. -/
def memfsDir (fs : Pigfs) (p : CStr) : Bool := ((memfsFind fs p).bind (fs.memfs[·]?)).any (·.isDir)

/-- `l>1&&path[l-1]!='/'`. -/
def LacksSlash (path : CStr) : Prop := 1 < path.length ∧ path.getLast? ≠ some slash

instance (path : CStr) : Decidable (LacksSlash path) :=
  inferInstanceAs (Decidable (1 < path.length ∧ path.getLast? ≠ some slash))

/-- The absolute path that is tried for an argument that leads nowhere. -/
def cdAbs (arg : CStr) : CStr :=
  let abs := slash :: arg
  if 1 < abs.length ∧ abs.getLast? = some slash then abs.dropLast else abs

def fsCd (fs : Pigfs) (cwd arg : CStr) : CdReport :=
  if arg = [] then .entered (cstr "/")
  else if ksc arg (cstr "~") = 0 then .entered (cstr "/")
  else
    let path := fsResolve cwd arg 256
    if memfsDir fs path then .entered path
    -- `path[l+1]=0` with `l` = 255
    else if LacksSlash path ∧ 255 ≤ path.length then .overflow
    else if LacksSlash path ∧ memfsDir fs (path ++ [slash]) then .entered (path ++ [slash])
    else
      match fsFindVnode fs path with
      | some n => if n.isDir then .entered path else .notDirectory arg
      | none =>
        let try2 := if LacksSlash path then path ++ [slash] else path
        match fsFindVnode fs try2 with
        | some n => if n.isDir then .entered try2 else .notDirectory arg
        | none =>
          if arg.head? = some slash then .noSuchFile arg
          -- `kcp(abs+1,arg)` with 255 bytes or more
          else if 255 ≤ arg.length then .overflow
          else if (fsFindVnode fs (cdAbs arg)).any (·.isDir) then .entered (cdAbs arg)
          else .noSuchFile arg

/-! ## `rm` -/

def criticalPaths : List CStr := List.map cstr [
  "/", "/etc", "/dev", "/proc", "/root", "/boot", "/kernel", "/drivers", "/shell", "/crypto",
  "/boot/pig.bin", "/boot/boot.asm", "/boot/grub.cfg",
  "/kernel/kernel.c", "/kernel/pigfs.h", "/kernel/mem.h"]

def isCriticalPath (path : CStr) : Bool :=
  if path = [slash] then true
  else if path.head? ≠ some slash then false
  else criticalPaths.any (fun c =>
    -- the root entry is skipped: it was handled above
    !(c.length = 1 && c.head? = some slash) &&
    decide (ksnc path c c.length = 0) &&
    decide (path[c.length]? = none ∨ path[c.length]? = some slash))

/-- What `rm` reports; `panic` is `NORETURN_KPANIC`, which never returns. -/
inductive RmReport where
  | usage | preserveRoot
  | noSuchFile (a : CStr) | isDirectory (a : CStr)
  | panic (path : CStr) | removed (path : CStr)
  deriving DecidableEq

/-- The words of the argument, at most `n` of them. -/
def rmTokens : Nat → CStr → List CStr
  | 0, _ => []
  | n + 1, s =>
    let s := s.dropWhile (· = space)
    if s = [] then []
    else
      let t := s.takeWhile (· ≠ space)
      t :: rmTokens n (s.drop (t.length + 1))

structure RmArgs where
  recursive : Bool := false
  noPreserveRoot : Bool := false
  fileArg : Option CStr := none

/-- One token: a long flag, a bundle of short flags, or a file argument (the last one counts). -/
def rmToken (r : RmArgs) (t : CStr) : RmArgs :=
  if t.head? = some (chr '-') then
    if t[1]? = some (chr '-') then
      if ksnc (t.drop 2) (cstr "no-preserve-root") 16 = 0 then { r with noPreserveRoot := true } else r
    else if (t.drop 1).contains (chr 'r') then { r with recursive := true } else r
  else { r with fileArg := some t }

/-- The path that `rm` is about to remove, or what it reports instead. `tmp[512]` holds every
argument, a tail of the 512-byte line. -/
def rmTarget (fs : Pigfs) (cwd arg : CStr) : Except RmReport CStr :=
  let tokens := rmTokens 32 arg
  let args := tokens.foldl rmToken {}
  -- after the split, `a` is the first word alone
  let a := tokens.headD []
  match args.fileArg with
  | none => .error .usage
  | some fileArg =>
    let path := fsResolve cwd fileArg 256
    let isRoot := path = [slash] ∨ a = [slash] ∨ a.take 2 = [slash, space]
    if isRoot ∧ ¬args.noPreserveRoot then .error .preserveRoot
    else
      let n := fsFindVnode fs path
      let mf := (memfsFind fs path).bind (fs.memfs[·]?)
      if n.isNone && mf.isNone then .error (.noSuchFile a)
      else if (n.any (·.isDir) || mf.any (·.isDir)) && !args.recursive then .error (.isDirectory a)
      else .ok path

def fsRm (fs : Pigfs) (cwd arg : CStr) : RmReport × Pigfs :=
  match rmTarget fs cwd arg with
  | .error r => (r, fs)
  | .ok path =>
    if isCriticalPath path then (.panic path, fs)
    else
      match memfsFind fs path with
      | some i => (.removed path, fs.modifyFile i (fun m => { m with used := 0 }))
      | none => (.removed path, fsMarkDeleted fs path)

end PigOS.Kernel
