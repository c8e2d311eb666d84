import PigOS.Kernel.Pigfs
import PigOS.Lib.Buffer

/-!
# `Kernel.PathBuffer` — `path_normalize` and `fs_resolve` on the bytes of `out`

`Kernel.Pigfs` has the two functions on strings. Here they work on the caller's array, one
assignment at a time. A loop that only the contents of the array or the position in the path could
stop takes fuel, and is `none` when that does not suffice.
-/

namespace PigOS.Kernel
namespace Out

/-- The array `out`. -/
abbrev Bytes := Buffer UInt8

/-- `while(s[i]&&i<outsz-1){out[i]=s[i];i++;}` from index `i` on: the index reached, and the
array. -/
def copyText (outsz : Nat) : CStr → Nat → Bytes → Nat × Bytes
  | [], i, out => (i, out)
  | c :: s, i, out => if i < outsz - 1 then copyText outsz s (i + 1) (out.write i c) else (i, out)

/-- `kcp`, which knows no bound. -/
def kcp (out : Bytes) (s : CStr) : Bytes := go out s 0
where
  go (out : Bytes) : CStr → Nat → Bytes
    | [], i => out.write i 0
    | c :: s, i => go (out.write i c) s (i + 1)

/-! ## `path_normalize` -/

/-- `ksl`. -/
def ksl (p : Bytes) : Nat → Nat → Option Nat
  | 0, _ => none
  | fuel + 1, l => if p.read l = 0 then some l else ksl p fuel (l + 1)

/-- `while(p[j]){p[j]=p[j+1];j++;}` -/
def shiftLeft : Nat → Nat → Bytes → Option Bytes
  | 0, _, _ => none
  | fuel + 1, j, p => if p.read j = 0 then some p else shiftLeft fuel (j + 1) (p.write j (p.read (j + 1)))

/-- The loop over `i`. Where it shifts, its `i--` and `i++` cancel. -/
def collapse : Nat → Nat → Bytes → Option Bytes
  | 0, _, _ => none
  | fuel + 1, i, p =>
    if p.read i = 0 then some p
    else if p.read i = slash ∧ p.read (i + 1) = slash then (shiftLeft fuel i p).bind (collapse fuel i)
    else collapse fuel (i + 1) p

def pathNormalize (fuel : Nat) (p : Bytes) : Option Bytes :=
  (ksl p fuel 0).bind fun l =>
    collapse fuel 0 (if 1 < l ∧ p.read (l - 1) = slash then p.write (l - 1) 0 else p)

/-! ## `fs_resolve` -/

/-- `while(l>1&&out[l-1]!='/') l--` -/
def backToSlash (out : Bytes) : Nat → Nat
  | 0 => 0
  | l + 1 => if 0 < l ∧ out.read l ≠ slash then backToSlash out l else l + 1

/-- `while(*p&&*p!='/'&&ol<outsz-1) out[ol++]=*p++`: the rest of the path, `ol` and the array. -/
def copyName (outsz : Nat) : CStr → Nat → Bytes → CStr × Nat × Bytes
  | [], ol, out => ([], ol, out)
  | c :: p, ol, out =>
    if c ≠ slash ∧ ol < outsz - 1 then copyName outsz p (ol + 1) (out.write ol c) else (c :: p, ol, out)

/-- `while(*p){…}`: one round for each component. -/
def components (outsz : Nat) : Nat → CStr → Nat → Bytes → Option Bytes
  | 0, _, _, _ => none
  | fuel + 1, p, ol, out =>
    let p := p.dropWhile (· = slash)
    if p = [] then some out
    else if p.take 2 = [dot, dot] ∧ (p[2]? = none ∨ p[2]? = some slash) then
      let l := backToSlash out ol
      let l := if 1 < l then l - 1 else l
      let l := if l < 1 then 1 else l
      components outsz fuel (skipSlash (p.drop 2)) l (out.write l 0)
    else if p.head? = some dot ∧ (p[1]? = none ∨ p[1]? = some slash) then
      components outsz fuel (skipSlash (p.drop 1)) ol out
    else if outsz - 2 ≤ ol then some out
    else
      let sep := 0 < ol ∧ out.read (ol - 1) ≠ slash
      let r := copyName outsz p (if sep then ol + 1 else ol) (if sep then out.write ol slash else out)
      components outsz fuel (skipSlash r.1) r.2.1 (r.2.2.write r.2.1 0)

def fsResolve (fuel : Nat) (cwd path : CStr) (outsz : Nat) (out : Bytes) : Option Bytes :=
  if path = [] ∨ path = [dot] then pathNormalize fuel (kcp out cwd)
  else if ksc path (cstr "~") = 0 then some (kcp out (cstr "/"))
  else
    let filled :=
      if path.head? = some slash then
        let r := copyText outsz path 0 out
        some (r.2.write r.1 0)
      else
        let r := copyText outsz cwd 0 out
        components outsz fuel path r.1 (r.2.write r.1 0)
    filled.bind fun out =>
      pathNormalize fuel (if out.read 0 = 0 then (out.write 0 slash).write 1 0 else out)

end Out
end PigOS.Kernel
