import PigOS.Kernel.Users

/-!
# `Kernel.UserDb` — the commands of `kernel/users.h` that write the user database

`adduser`, `deluser`, `usermod`, `groupadd` and `passwd`, for arguments of any length, as one
machine `userStep`.

- A field that a `kcp` without a bound writes holds what reads back from it as a C string after the
  whole command: a text that fills its array has no terminator there, and the string runs on into
  the field behind it. Records that are not in use yet are written before they are read, so that an
  overflow into them is left out.
- `mem[0..nm)` is a list. `usermod` does not check `nm`; its write past the array is one more
  element.
- The keys typed at a password prompt are a list of codes, Enter not included.
-/

namespace PigOS.Kernel

def maxG : Nat := 16

/-! ## Typed texts -/

/-- One key at a password prompt: a printable character is appended while there is room. -/
def typeKey (limit : Nat) (isDelete : Nat → Bool) (pw : CStr) (c : Nat) : CStr :=
  if isDelete c then pw.dropLast
  else if 32 ≤ c ∧ c < 127 ∧ pw.length < limit then pw ++ [chr (Char.ofNat c)]
  else pw

/-- The text that a sequence of keys leaves at a password prompt. -/
def typeKeys (limit : Nat) (isDelete : Nat → Bool) (keys : List Nat) : CStr :=
  keys.foldl (typeKey limit isDelete) []

/-! ## `adduser` and `deluser` -/

/-- What reads back from `users[nu].name`. The password is written after the name, right behind
it. -/
def storedUserName (n : CStr) : CStr := if n.length < 32 then n else n.take 32 ++ cstr "changeme"

/-- The home directory of a user that `adduser` makes. -/
def homeOf (n : CStr) : CStr := cstr "/home/" ++ n ++ cstr "/"

/-- The record that `adduser` fills. -/
def newUser (n : CStr) (nu : Nat) : User where
  name := storedUserName n
  pass := cstr "changeme"
  uid := 1000 + nu
  gid := 2
  home := homeOf n
  -- `active` is set before `home`, which ends right before it: a terminator at index 64 clears the flag
  active := decide ((homeOf n).length ≠ 64)

/-- A new user `ui` joins the group `users`, if there is room. -/
def joinUsersGroup (db : UserDb) (ui : Nat) : List Group :=
  match gfind db (cstr "users") with
  | some gi => db.groups.modify gi (fun g => if g.mem.length < maxU then { g with mem := g.mem ++ [ui] } else g)
  | none => db.groups

/-- The part of `cmd_adduser` that writes the database. -/
def adduserDb (db : UserDb) (n : CStr) : AdduserReport × UserDb :=
  if n = [] then (.usage, db)
  else if (ufind db n).isSome then (.userExists, db)
  else if maxU ≤ db.users.length then (.tooMany, db)
  else
    let nu := db.users.length
    (.created n (homeOf n), ⟨db.users ++ [newUser n nu], joinUsersGroup db nu⟩)

inductive DeluserReport where
  | usage | notFound (a : CStr) | cannotDeleteRoot
  | removed (a : CStr)
  deriving DecidableEq

def DeluserReport.text : DeluserReport → CStr
  | .usage => cstr "usage: deluser <n>\n"
  | .notFound a => cstr "deluser: user '" ++ a ++ cstr "' not found\n"
  | .cannotDeleteRoot => cstr "deluser: cannot delete root\n"
  | .removed a => cstr "deluser: removed '" ++ a ++ cstr "'\n"

/-- The branch of the dispatcher for `deluser`. -/
def shDeluser (db : UserDb) (a : CStr) : DeluserReport × UserDb :=
  if a = [] then (.usage, db)
  else if (ufind db a).isNone then (.notFound a, db)
  else if ksc a (cstr "root") = 0 then (.cannotDeleteRoot, db)
  else (.removed a, deluser db a)

/-! ## `passwd` -/

inductive PasswdReport where
  | userNotFound | unchanged | updated
  deriving DecidableEq

/-- What `passwd` prints in the end. -/
def PasswdReport.text : PasswdReport → CStr
  | .userNotFound => cstr "passwd: user not found\n"
  | .unchanged => cstr "passwd: password unchanged\n"
  | .updated => cstr "passwd: password updated successfully\n"

/-- `cur_user`, which nothing in the kernel changes. -/
def curUser : CStr := cstr "root"

def cmdPasswd (db : UserDb) (n : CStr) (keys : List Nat) : PasswdReport × UserDb :=
  match ufind db (if n ≠ [] then n else curUser) with
  | none => (.userNotFound, db)
  | some i =>
    -- only a backspace deletes here, and `np[64]` takes 63 characters
    let np := typeKeys 63 (· = 8) keys
    if np.length < 1 then (.unchanged, db)
    else (.updated, { db with users := db.users.modify i (fun u => { u with pass := np }) })

/-! ## Groups -/

inductive UsermodReport where
  | usage | userNotFound | groupNotFound | useFlag
  | added (p g : CStr)
  deriving DecidableEq

def UsermodReport.text : UsermodReport → CStr
  | .usage => cstr "usage: usermod -G <group> <user>\n"
  | .userNotFound => cstr "usermod: user not found\n"
  | .groupNotFound => cstr "usermod: group not found\n"
  | .useFlag => cstr "usermod: use -G flag\n"
  | .added p g => cstr "usermod: added '" ++ p ++ cstr "' to '" ++ g ++ cstr "'\n"

/-- The group and the user of `usermod -G`. What is left of a group's name of more than 31 bytes is
read as part of the user's. -/
def usermodArgs (a : CStr) : CStr × CStr :=
  let p := (a.drop 2).dropWhile (· = space)
  let g := (p.takeWhile (· ≠ space)).take 31
  (g, (p.drop g.length).dropWhile (· = space))

def cmdUsermod (db : UserDb) (a : CStr) : UsermodReport × UserDb :=
  if a = [] then (.usage, db)
  else if a.take 2 = cstr "-G" then
    let (g, p) := usermodArgs a
    match ufind db p, gfind db g with
    | none, _ => (.userNotFound, db)
    | some _, none => (.groupNotFound, db)
    | some ui, some gidx =>
      (.added p g, { db with groups := db.groups.modify gidx (fun x => { x with mem := x.mem ++ [ui] }) })
  else (.useFlag, db)

inductive GroupaddReport where
  | usage | tooMany
  | created (n : CStr)
  deriving DecidableEq

def GroupaddReport.text : GroupaddReport → CStr
  | .usage => cstr "usage: groupadd <name>\n"
  | .tooMany => cstr "groupadd: too many groups\n"
  | .created n => cstr "groupadd: created '" ++ n ++ cstr "'\n"

/-- What reads back from `groups[ng].name`: behind a full name lies a byte of the gid `200+ng`. -/
def storedGroupName (n : CStr) (ng : Nat) : CStr :=
  if n.length < 32 then n else n.take 32 ++ [chr (Char.ofNat (200 + ng))]

def cmdGroupadd (db : UserDb) (n : CStr) : GroupaddReport × UserDb :=
  if n = [] then (.usage, db)
  else if maxG ≤ db.groups.length then (.tooMany, db)
  else
    let ng := db.groups.length
    (.created n, { db with groups := db.groups ++ [⟨storedGroupName n ng, 200 + ng, []⟩] })

/-! ## The machine -/

inductive UserCmd where
  | adduser (n : CStr) | deluser (a : CStr)
  | usermod (a : CStr) | groupadd (n : CStr)
  | passwd (n : CStr) (keys : List Nat)

inductive UserReport where
  | adduser (r : AdduserReport) | deluser (r : DeluserReport)
  | usermod (r : UsermodReport) | groupadd (r : GroupaddReport)
  | passwd (r : PasswdReport)
  deriving DecidableEq

def userStep (db : UserDb) : UserCmd → UserReport × UserDb
  | .adduser n => let (r, db) := adduserDb db n; (.adduser r, db)
  | .deluser a => let (r, db) := shDeluser db a; (.deluser r, db)
  | .usermod a => let (r, db) := cmdUsermod db a; (.usermod r, db)
  | .groupadd n => let (r, db) := cmdGroupadd db n; (.groupadd r, db)
  | .passwd n keys => let (r, db) := cmdPasswd db n keys; (.passwd r, db)

end PigOS.Kernel
