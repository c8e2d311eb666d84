import Mathlib.Data.Nat.Bitwise
import Mathlib.Data.UInt
import PigOS.Lib.Cells
import PigOS.Lib.Machine

/-!
# `Kernel.Mem` — memory, C strings and numbers

The bump allocator and the helpers of `kernel/mem.h`, `vitoa` of `drivers/vga/vga.h` and
`pig_memmove` of `kernel/libc_stubs.c`.

- The allocator is a function on the heap pointer `_hp`. Its mask is the source's own `~15u`, a
  32-bit constant that is zero-extended before it meets the 64-bit size.
- A C string is the list of its bytes before the terminator, which are non-zero by type.
- A text of digits that does not fit in its array is `none`. An `int` is an `Int32`, so that `n=-n`
  wraps; a quotient by the base needs no more than `Int`.
- `pig_memmove` works on a memory of all addresses, which wrap.
-/

namespace PigOS.Kernel

open List

/-! ## The heap -/

def heapBase : Nat := 0x400000
def heapSize : Nat := 4 * 1024 * 1024
def heapLimit : Nat := heapBase + heapSize

/-- The size `km` really takes off the heap: `(n+15)&~15u`. -/
def kmRound (n : UInt64) : UInt64 := (n + 15) &&& 0xFFFFFFF0

/-- `km`: the block's address (`none` for `NULL`) and the new value of `_hp`. -/
def km (hp : Nat) (n : UInt64) : Option Nat × Nat :=
  let n := (kmRound n).toNat
  if hp + n > heapLimit then (none, hp) else (some hp, hp + n)

/-! ## C strings -/

/-- A byte of a C string: any byte but the terminator. -/
abbrev CChar := { b : UInt8 // b ≠ 0 }

/-- A C string, as the list of its bytes before the terminator. -/
abbrev CStr := List CChar

/-- The byte of an ASCII character (`NUL` has none and is mapped to `1`). -/
def chr (c : Char) : CChar :=
  if h : UInt8.ofNat c.toNat ≠ 0 then ⟨UInt8.ofNat c.toNat, h⟩ else ⟨1, by decide⟩

lemma val_chr_ofNat {n : Nat} (hpos : 0 < n) (hlt : n < 128) : (chr (Char.ofNat n)).val = UInt8.ofNat n := by
  have hvalid : n.isValidChar := Or.inl (by omega)
  have hchar : (Char.ofNat n).toNat = n := by
    rw [Char.ofNat, dif_pos hvalid]
    rfl
  have hne : UInt8.ofNat (Char.ofNat n).toNat ≠ 0 := by
    rw [hchar, ne_eq, ← UInt8.toNat_inj, UInt8.toNat_ofNat']
    change n % 256 ≠ 0
    omega
  rw [chr, dif_pos hne]
  exact congrArg UInt8.ofNat hchar

/-- A string literal of the source. -/
def cstr (s : String) : CStr := s.toList.map chr

/-- A string as a number, to the base 256. -/
def byteCode (p : CStr) : Nat := p.foldl (fun n c => n * 256 + c.val.toNat) 0

/-- A literal by its characters: rewriting with this spares the decoding of the literal. -/
lemma cstr_ofList (l : List Char) : cstr (String.ofList l) = l.map chr := by
  rw [cstr, String.toList_ofList]

lemma forall_cstr_cons {P : CStr → Prop} {l : List Char} {ss : List String} (h : P (l.map chr))
    (hss : ∀ s ∈ ss, P (cstr s)) : ∀ s ∈ String.ofList l :: ss, P (cstr s) :=
  forall_mem_cons.mpr ⟨(cstr_ofList l).symm ▸ h, hss⟩

/-- `ksc`: the difference of the first bytes at which the strings differ, `0` when there is none. -/
def ksc : CStr → CStr → Int
  | [], [] => 0
  | [], b :: _ => -(b.val.toNat : Int)
  | a :: _, [] => (a.val.toNat : Int)
  | a :: as, b :: bs => if a = b then ksc as bs else (a.val.toNat : Int) - b.val.toNat

/-- `ksnc`: like `ksc`, on the first `n` bytes only. -/
def ksnc : CStr → CStr → Nat → Int
  | _, _, 0 => 0
  | [], [], _ + 1 => 0
  | [], b :: _, _ + 1 => -(b.val.toNat : Int)
  | a :: _, [], _ + 1 => (a.val.toNat : Int)
  | a :: as, b :: bs, n + 1 => if a = b then ksnc as bs n else (a.val.toNat : Int) - b.val.toNat

lemma CChar.toNat_pos (a : CChar) : 0 < a.val.toNat := by
  have h : a.val.toNat ≠ 0 := fun h => a.property (UInt8.toNat_inj.mp h)
  omega

lemma CChar.toNat_sub_ne {a b : CChar} (h : a ≠ b) : (a.val.toNat : Int) - b.val.toNat ≠ 0 := by
  intro he
  have hn : a.val.toNat = b.val.toNat := by omega
  exact h (Subtype.ext (UInt8.toNat_inj.mp hn))

/-- **`ksc` decides equality.** -/
@[simp] theorem ksc_eq_zero {a b : CStr} : ksc a b = 0 ↔ a = b := by
  induction a generalizing b with
  | nil =>
    cases b with
    | nil => simp [ksc]
    | cons b bs =>
      have hb := CChar.toNat_pos b
      simp only [ksc, reduceCtorEq, iff_false]
      omega
  | cons a as ih =>
    cases b with
    | nil =>
      have ha := CChar.toNat_pos a
      simp only [ksc, reduceCtorEq, iff_false]
      omega
    | cons b bs =>
      simp only [ksc]
      by_cases hab : a = b
      · rw [if_pos hab, ih, hab]
        simp
      · rw [if_neg hab]
        simp [hab, CChar.toNat_sub_ne hab]

/-- **`ksnc` compares prefixes**, against a string of exactly `n` bytes. -/
theorem ksnc_eq_zero {a b : CStr} : ksnc a b b.length = 0 ↔ b <+: a := by
  induction b generalizing a with
  | nil => simp [ksnc]
  | cons b bs ih =>
    cases a with
    | nil =>
      have hb := CChar.toNat_pos b
      simp only [length_cons, ksnc, prefix_nil, reduceCtorEq, iff_false]
      omega
    | cons a as =>
      simp only [length_cons, ksnc]
      by_cases hab : a = b
      · rw [if_pos hab, ih, hab]
        simp
      · rw [if_neg hab]
        have hba : b ≠ a := fun h => hab h.symm
        simp [CChar.toNat_sub_ne hab, cons_prefix_cons, hba]

/-! ## Numbers -/

/-- `while(n){t[i++]=...;n/=base;}`, with `room` bytes of `t` left. -/
def digitLoop (digit : Int → Option Char) (base : Int) : Nat → Int → Option (List Char)
  | 0, n => if n = 0 then some [] else none
  | room + 1, n =>
    if n = 0 then some []
    else do
      let c ← digit (n.tmod base)
      let t ← digitLoop digit base room (n.tdiv base)
      some (c :: t)

/-- `'0'+n%10` -/
def decDigit (d : Int) : Option Char := some (Char.ofNat (48 + d).toNat)

/-- What `kia` and `vitoa` share; `size` is that of the temporary array. -/
def signedText (size : Nat) (n : Int32) : Option (List Char) :=
  if n = 0 then some ['0']
  else do
    let t ← digitLoop decDigit 10 size (if n < 0 then -n else n).toInt
    let t := if n < 0 then t ++ ['-'] else t
    if t.length ≤ size then some t.reverse else none

def kia (n : Int32) : Option (List Char) := signedText 20 n

/-- The text, and its length as the result. -/
def vitoa (n : Int32) : Option (List Char × Nat) := (signedText 16 n).map fun t => (t, t.length)

/-- `hx[d]` -/
def hexDigit (d : Int) : Option Char := "0123456789abcdef".toList[d.toNat]?

def kuia (n : UInt64) (base : Int) : Option (List Char) :=
  if n = 0 then some ['0'] else (digitLoop hexDigit base 20 n.toNat).map List.reverse

/-- The digits of a number, the last one first: `while(n){t[i++]='0'+n%10;n/=10;}`. -/
def kiaDigits : Nat → Nat → CStr
  | 0, _ => []
  | k + 1, n => if n = 0 then [] else chr (Char.ofNat (48 + n % 10)) :: kiaDigits k (n / 10)

/-- `kia` as a C string, for a number that is not negative. -/
def kiaNat (n : Nat) : CStr := if n = 0 then cstr "0" else (kiaDigits n n).reverse

/-! ## Copying -/

/-- `pig_memmove`: memory after the call, and the pointer that it returns. -/
def pigMemmove (mem : UInt64 → UInt8) (dst src n : UInt64) : (UInt64 → UInt8) × UInt64 :=
  let d := fun i => dst + UInt64.ofNat i
  let s := fun i => src + UInt64.ofNat i
  if dst < src then (Cells.assignAll d s (range n.toNat) mem, dst)
  -- `for(i=n;i>0;i--)` uses `i-1`
  else (Cells.assignAll d s (range n.toNat).reverse mem, dst)

end PigOS.Kernel
