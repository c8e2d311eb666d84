import PigOS.Kernel.Pigfs

/-!
# `Kernel.Listing` — `ls` and `find` of `kernel/pigfs.h`

What the commands print is a list of entries; texts and colours are left out. `ls` copies its
argument and the paths it tries into arrays of 256 bytes, and the name of an entry into one of 128.
A copy that does not fit is `none`: what it leaves of the stack is not followed.
-/

namespace PigOS.Kernel

/-- `sizeof` of the path arrays. -/
def pathBuf : Nat := 256

/-- The file that `memfs_find` returns a pointer to. -/
def memfsAt (fs : Pigfs) (p : CStr) : Option MemFile := (memfsFind fs p).bind (fs.memfs[·]?)

/-- What follows the last slash of a path. -/
def lastName (p : CStr) : CStr := (p.reverse.takeWhile (· ≠ slash)).reverse

/-- `if(l>1&&p[l-1]=='/')p[l-1]=0`. -/
def stripSlash (p : CStr) : CStr := if 1 < p.length ∧ p.getLast? = some slash then p.dropLast else p

/-! ## The directory that `ls` lists -/

structure LsFlags where
  longFmt : Bool := false
  showHidden : Bool := false

/-- The bundles of flags in front of the path. Every round takes at least one byte off `p`. -/
def lsFlags : Nat → CStr → LsFlags → LsFlags × CStr
  | 0, p, q => (q, p)
  | k + 1, p, q =>
    if p.head? = some (chr '-') then
      let w := (p.drop 1).takeWhile (fun c => c ≠ space ∧ c ≠ chr '-')
      let q := { longFmt := q.longFmt || w.contains (chr 'l') || w.contains (chr 'h')
                 showHidden := q.showHidden || w.contains (chr 'a') || w.contains (chr 'A') }
      lsFlags k (((p.drop 1).drop w.length).dropWhile (· = space)) q
    else (q, p)

/-- What the lookups of `ls` end with: a directory to be listed under a path, a file, or nothing. -/
inductive LsTarget where
  | list (path : CStr)
  | file (path : CStr)
  | missing
  deriving DecidableEq

/-- A file that a lookup has found. -/
def MemFile.lsTarget (m : MemFile) : LsTarget := if m.isDir then .list m.cpath else .file m.cpath

/-- The last two lookups, of the argument as an absolute path. -/
def lsAbs (fs : Pigfs) (pathArg : CStr) : Option LsTarget :=
  -- `kcp(abs,"/");kcat(abs,path_arg)`
  if pathArg.head? ≠ some slash ∧ pathBuf ≤ pathArg.length + 1 then none
  else
    let abs := stripSlash (if pathArg.head? = some slash then pathArg else slash :: pathArg)
    match memfsAt fs abs with
    | some m => some m.lsTarget
    | none =>
      -- `kcat(abs,"/")`
      if pathBuf ≤ abs.length + 1 then none
      else
        match memfsAt fs (abs ++ [slash]) with
        | some m => some m.lsTarget
        | none => some .missing

/-- The lookups of `ls`. The report `Not a directory` is never made: what was found was a file,
printed before. -/
def lsTarget (fs : Pigfs) (pathArg path : CStr) : Option LsTarget :=
  match fsFindVnode fs path with
  | some _ => some (.list path)
  | none =>
    match memfsAt fs path with
    | some m => some (if m.isDir then .list path else .file m.cpath)
    | none =>
      if LacksSlash path then
        -- `kcat(try_path,"/")`
        if pathBuf ≤ path.length + 1 then none
        else
          match memfsAt fs (path ++ [slash]) with
          | some m => some m.lsTarget
          | none => lsAbs fs pathArg
      else if 1 < path.length then
        match memfsAt fs path.dropLast with
        | some m => some m.lsTarget
        | none => lsAbs fs pathArg
      else lsAbs fs pathArg

/-! ## The names that `ls` prints -/

/-- What `ls` prints about an entry beside its name. -/
inductive EntryKind where
  | dir
  /-- a file of the read-only table, with the length of its text -/
  | node (size : Nat)
  | file
  deriving DecidableEq

structure LsEntry where
  name : CStr
  kind : EntryKind
  deriving DecidableEq

/-- `rest` of the source names a child: it is not empty and has no slash. -/
def isChildName (rest : CStr) : Bool := rest ≠ [] && !rest.contains slash

/-- The tests on the path `vp` of a read-only node. -/
def lsSees (path vp : CStr) : Bool :=
  decide (path.length < vp.length) &&
  if path = [slash] then vp.head? = some slash && isChildName (vp.drop 1)
  else
    decide (ksnc vp path path.length = 0) && vp[path.length]? = some slash && isChildName (vp.drop (path.length + 1))

/-- The entry of a read-only node, if it is shown. `texts` are the texts of the table. -/
def lsVnode (texts : VNode → Option CStr) (hidden : Bool) (fs : Pigfs) (path : CStr) (n : VNode) : Option LsEntry :=
  if fsIsDeleted fs n.path then none
  else if !lsSees path n.path then none
  else
    let sl := lastName n.path
    if sl = [] then none
    else if !hidden && sl.head? = some dot then none
    else some ⟨sl, if n.isDir then .dir else .node ((texts n).elim 0 List.length)⟩

/-- What a slot of `memfs` adds to the names: nothing, a name, or more than `entry[128]` holds. -/
inductive SlotName where
  | skip
  | overflow
  | name (entry : CStr)
  deriving DecidableEq

/-- `sizeof` of the array for the name of an entry. -/
def entryBuf : Nat := 128

/-- The name in what follows the path of the directory. -/
def relName (rel : CStr) : SlotName :=
  if rel.contains slash then
    let e := rel.takeWhile (· ≠ slash)
    if entryBuf ≤ e.length ∨ e = [] then .skip else .name e
  -- `kcp(entry,rel)`
  else if entryBuf ≤ rel.length then .overflow
  else .name rel

def lsSlot (hidden : Bool) (fs : Pigfs) (path : CStr) (m : MemFile) : SlotName :=
  let mp := m.cpath
  if m.used = 0 then .skip
  else if fsIsDeleted fs mp then .skip
  else if mp.length ≤ path.length then .skip
  else if ksnc mp path path.length ≠ 0 then .skip
  else
    let rel := mp.drop path.length
    if path.getLast? ≠ some slash ∧ rel.head? ≠ some slash then .skip
    else
      let rel := if path.getLast? ≠ some slash then rel.drop 1 else rel
      match relName rel with
      | .name e => if !hidden && e.head? = some dot then .skip else .name e
      | r => r

/-- The table `entries`, with `entry_is_dir`. -/
abbrev Entries := List (CStr × Bool)

def entriesMax : Nat := 64

/-- A name is collected once; it is a directory when one of the slots that have it is. -/
def addEntry (es : Entries) (entry : CStr) (isDir : Bool) : Entries :=
  match es.findIdx? (fun e => ksc e.1 entry = 0) with
  | some j => if isDir then es.modify j (fun e => (e.1, true)) else es
  | none => if es.length < entriesMax then es ++ [(entry, isDir)] else es

def lsSlots (hidden : Bool) (fs : Pigfs) (path : CStr) : List MemFile → Entries → Option Entries
  | [], es => some es
  | m :: ms, es =>
    match lsSlot hidden fs path m with
    | .skip => lsSlots hidden fs path ms es
    | .overflow => none
    | .name e => lsSlots hidden fs path ms (addEntry es e m.isDir)

/-! ## `ls` -/

inductive LsOut where
  | listing (long dots : Bool) (entries : List LsEntry)
  | file (path : CStr)
  | missing (pathArg : CStr)
  deriving DecidableEq

/-- The second half of `ls`, on the path under which the directory was found. -/
def lsList (texts : VNode → Option CStr) (q : LsFlags) (fs : Pigfs) (path : CStr) : Option LsOut :=
  (lsSlots q.showHidden fs path fs.memfs []).map fun es =>
    .listing q.longFmt (q.showHidden && decide (path ≠ [slash]))
      (vfs.filterMap (lsVnode texts q.showHidden fs path) ++
        es.map fun e => ⟨e.1, if e.2 then .dir else .file⟩)

/-- The flags, and what is left of the argument. -/
def lsArgs (arg : CStr) : LsFlags × CStr :=
  let p := arg.dropWhile (· = space)
  lsFlags (p.length + 1) p {}

/-- `path_arg`. -/
def lsPathArg (p : CStr) : CStr := if p = [] then cstr "." else stripSlash p

def lsOpen (fs : Pigfs) (cwd p : CStr) : Option LsTarget :=
  -- `kcp(path_arg,p)`
  if pathBuf ≤ p.length then none
  else lsTarget fs (lsPathArg p) (fsResolve cwd (lsPathArg p) pathBuf)

def fsLs (texts : VNode → Option CStr) (fs : Pigfs) (cwd arg : CStr) : Option LsOut :=
  match lsOpen fs cwd (lsArgs arg).2 with
  | none => none
  | some (.list path) => lsList texts (lsArgs arg).1 fs path
  | some (.file path) => some (.file path)
  | some .missing => some (.missing (lsPathArg (lsArgs arg).2))

/-! ## `find` -/

structure FindArgs where
  startpath : CStr := cstr "."
  namepattern : CStr := []
  typeD : Bool := false
  typeF : Bool := false

/-- The filters behind the path. Every round takes at least one byte off `p`. -/
def findFilters : Nat → CStr → FindArgs → FindArgs
  | 0, _, q => q
  | k + 1, p, q =>
    match p.dropWhile (· = space) with
    | [] => q
    | c :: p =>
      if c = chr '-' then
        if ksnc p (cstr "name") 4 = 0 then
          let p := (p.drop 4).dropWhile (· = space)
          let w := (p.takeWhile (· ≠ space)).take 63
          findFilters k (p.drop w.length) { q with namepattern := w }
        else if ksnc p (cstr "type") 4 = 0 then
          let p := (p.drop 4).dropWhile (· = space)
          if p.head? = some (chr 'd') then findFilters k (p.drop 1) { q with typeD := true }
          else if p.head? = some (chr 'f') then findFilters k (p.drop 1) { q with typeF := true }
          else findFilters k p q
        else findFilters k (p.dropWhile (· ≠ space)) q
      else findFilters k (p.dropWhile (· ≠ space)) q

def findArgs (args : CStr) : FindArgs :=
  let p := args.dropWhile (· = space)
  if p ≠ [] ∧ p.head? ≠ some (chr '-') then
    let w := (p.takeWhile (· ≠ space)).take (pathBuf - 1)
    findFilters (p.length + 1) (p.drop w.length) { startpath := w }
  else findFilters (p.length + 1) p {}

/-- `pat` is found in `s` at one of its first `n` places. -/
def occursAt (s pat : CStr) (n : Nat) : Bool := (List.range n).any fun j => ksnc (s.drop j) pat pat.length = 0

/-- The test of `-name` on the last name of a read-only node. -/
def nameMatches (pat sl : CStr) : Bool :=
  if pat.head? = some (chr '*') ∧ 1 < pat.length then
    let suf := pat.drop 1
    (decide (suf.length ≤ sl.length) && decide (ksnc (sl.drop (sl.length - suf.length)) suf suf.length = 0)) ||
      occursAt sl suf sl.length
  else if ksc sl pat = 0 then true
  else occursAt sl pat (sl.length + 1 - pat.length)

/-- `blen>1&&ksnc(p,base,blen)!=0` is not the case. -/
def inBase (base p : CStr) : Bool := decide (base.length ≤ 1) || decide (ksnc p base base.length = 0)

def findsVnode (q : FindArgs) (base : CStr) (fs : Pigfs) (n : VNode) : Bool :=
  !fsIsDeleted fs n.path && inBase base n.path && !(q.typeD && !n.isDir) && !(q.typeF && n.isDir) &&
    (q.namepattern = [] || nameMatches q.namepattern (lastName n.path))

def findsFile (q : FindArgs) (base : CStr) (m : MemFile) : Bool :=
  decide (m.used ≠ 0) && inBase base m.cpath && !q.typeD &&
    (q.namepattern = [] || decide (ksc (lastName m.cpath) q.namepattern = 0))

inductive FindLine where
  | path (p : CStr)
  | noMatches
  deriving DecidableEq

/-- The paths that `find` comes across, in this order. -/
def findPaths (q : FindArgs) (base : CStr) (fs : Pigfs) : List CStr :=
  (vfs.filter (findsVnode q base fs)).map (·.path) ++ (fs.memfs.filter (findsFile q base)).map (·.cpath)

def fsFindCmd (fs : Pigfs) (cwd args : CStr) : List FindLine :=
  let q := findArgs args
  match findPaths q (fsResolve cwd q.startpath pathBuf) fs with
  | [] => [.noMatches]
  | found => found.map .path

end PigOS.Kernel
