import PigOS.Kernel.Pigfs

/-!
# `Kernel.Users` — the user database of `kernel/users.h`, as far as it touches the file system

`users[0..nu)` and `groups[0..ng)` are lists. `adduser` makes the home directory and the two
start-up files it copies from `/etc/skel/`. A user name is at most 31 bytes by type: a longer one
runs over its field.
-/

namespace PigOS.Kernel

def maxU : Nat := 16

/-- A name that fits the field `User.name` together with its terminator. -/
abbrev UserName := { n : CStr // n.length < 32 }

structure User where
  name : CStr
  pass : CStr
  uid : Nat
  gid : Nat
  home : CStr
  active : Bool

structure Group where
  name : CStr
  gid : Nat
  mem : List Nat

structure UserDb where
  users : List User
  groups : List Group

/-- The text of a directory's `content`. -/
def dirText : Content := ⟨cstr "[dir]", by decide⟩

def skelLashrc : Content :=
  ⟨cstr "# .lashrc - larpshell config\nalias ll='ls -la'\nalias cls='clear'\n", by decide⟩

def skelProfile : Content :=
  ⟨cstr "# .lashrc-profile\n[ -f ~/.lashrc ] && . ~/.lashrc\n", by decide⟩

/-- `memfs_create` followed by writes through the pointer it returns, when it returns one. -/
def createWith (fs : Pigfs) (p : CStr) (f : MemFile → MemFile) : Pigfs :=
  match memfsCreate fs p with
  | (some i, fs) => fs.modifyFile i f
  | (none, fs) => fs

/-- Make a file's text `c` (`kcp(m->content,c)`). -/
def MemFile.write (c : Content) (m : MemFile) : MemFile := { m with content := c }

/-- Turn a file into a directory, as every caller that makes one does. -/
def MemFile.mkDir (m : MemFile) : MemFile := { m with isDir := true, content := dirText }

/-- The user database that `users_init` sets up. -/
def initialUsers : UserDb where
  users := [⟨cstr "root", cstr "toor", 0, 0, cstr "/", true⟩]
  groups := [⟨cstr "root", 0, [0]⟩, ⟨cstr "wheel", 1, [0]⟩, ⟨cstr "users", 2, []⟩]

/-- The files that `users_init` makes. -/
def usersInitFiles (fs : Pigfs) : Pigfs :=
  let fs := createWith fs (cstr "/etc/skel/") MemFile.mkDir
  let fs := createWith fs (cstr "/etc/skel/.lashrc") (MemFile.write skelLashrc)
  createWith fs (cstr "/etc/skel/.lashrc-profile") (MemFile.write skelProfile)

def ufind (db : UserDb) (n : CStr) : Option Nat :=
  db.users.findIdx? (fun u => u.active && decide (ksc u.name n = 0))

def gfind (db : UserDb) (n : CStr) : Option Nat :=
  db.groups.findIdx? (fun g => ksc g.name n = 0)

/-- Copy one start-up file from `/etc/skel/`, if it is there. -/
def copySkel (fs : Pigfs) (src dst : CStr) : Pigfs :=
  match (memfsFind fs src).bind (fs.memfs[·]?) with
  | some skel => createWith fs dst (MemFile.write skel.content)
  | none => fs

/-- The files that `adduser` makes below `home`. -/
def adduserFiles (fs : Pigfs) (home : CStr) : Pigfs :=
  let fs := createWith fs home MemFile.mkDir
  let fs := copySkel fs (cstr "/etc/skel/.lashrc") (home ++ cstr ".lashrc")
  copySkel fs (cstr "/etc/skel/.lashrc-profile") (home ++ cstr ".lashrc-profile")

inductive AdduserReport where
  | usage | userExists | tooMany
  | created (name home : CStr)
  deriving DecidableEq

def cmdAdduser (db : UserDb) (fs : Pigfs) (n : UserName) : AdduserReport × UserDb × Pigfs :=
  if n.val = [] then (.usage, db, fs)
  else if (ufind db n.val).isSome then (.userExists, db, fs)
  else if maxU ≤ db.users.length then (.tooMany, db, fs)
  else
    let nu := db.users.length
    let home := cstr "/home/" ++ n.val ++ cstr "/"
    let users := db.users ++ [⟨n.val, cstr "changeme", 1000 + nu, 2, home, true⟩]
    let groups :=
      match gfind db (cstr "users") with
      | some gi => db.groups.modify gi (fun g => if g.mem.length < maxU then { g with mem := g.mem ++ [nu] } else g)
      | none => db.groups
    (.created n.val home, ⟨users, groups⟩, adduserFiles fs home)

/-- `deluser`: the user becomes inactive, the slot is not reused. -/
def deluser (db : UserDb) (n : CStr) : UserDb :=
  match ufind db n with
  | some ui => if ksc n (cstr "root") = 0 then db
               else { db with users := db.users.modify ui (fun u => { u with active := false }) }
  | none => db

end PigOS.Kernel
