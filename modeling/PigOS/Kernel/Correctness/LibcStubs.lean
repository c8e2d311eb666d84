import Mathlib.Data.List.Pairwise
import PigOS.Kernel.Mem

/-!
# `Kernel.Correctness.LibcStubs` — `pig_memmove` on ranges that overlap

Whichever way the bytes go, none of the source is written before it was read, which is what
`Cells.assignAll_apply` asks for.
-/

namespace PigOS.Kernel

open List

variable {dst src : UInt64} {n i j : Nat}

lemma toNat_index (hwrap : dst.toNat + n ≤ 2 ^ 64) (hi : i < n) : (dst + UInt64.ofNat i).toNat = dst.toNat + i := by
  rw [UInt64.toNat_add, UInt64.toNat_ofNat', Nat.add_mod_mod]
  exact Nat.mod_eq_of_lt (by omega)

lemma index_ne (hdst : dst.toNat + n ≤ 2 ^ 64) (hsrc : src.toNat + n ≤ 2 ^ 64) (hi : i ∈ range n) (hj : j ∈ range n)
    (hne : dst.toNat + i ≠ src.toNat + j) : dst + UInt64.ofNat i ≠ src + UInt64.ofNat j := by
  rw [mem_range] at hi hj
  rw [← toNat_index hdst hi, ← toNat_index hsrc hj] at hne
  exact fun heq => hne (congrArg _ heq)

/-- **Overlapping ranges are copied.** -/
theorem pigMemmove_moves (mem : UInt64 → UInt8) (dst src n : UInt64) (hdst : dst.toNat + n.toNat ≤ 2 ^ 64)
    (hsrc : src.toNat + n.toNat ≤ 2 ^ 64) :
    (∀ i < n.toNat, (pigMemmove mem dst src n).1 (dst + UInt64.ofNat i) = mem (src + UInt64.ofNat i)) ∧
      ∀ x, (∀ i < n.toNat, x ≠ dst + UInt64.ofNat i) → (pigMemmove mem dst src n).1 x = mem x := by
  have hahead := pairwise_lt_range (n := n.toNat)
  unfold pigMemmove
  split
  next hlt =>
    rw [UInt64.lt_iff_toNat_lt] at hlt
    have h := Cells.assignAll_apply (hahead.imp_of_mem fun hi hj hij =>
      ⟨index_ne hdst hdst hi hj (by omega), index_ne hdst hsrc hi hj (by omega)⟩) mem
    simpa only [mem_range] using h
  next hge =>
    rw [UInt64.lt_iff_toNat_lt] at hge
    have h := Cells.assignAll_apply (pairwise_reverse.mpr (hahead.imp_of_mem fun hi hj hij =>
      ⟨index_ne hdst hdst hj hi (by omega), index_ne hdst hsrc hj hi (by omega)⟩)) mem
    simpa only [mem_reverse, mem_range] using h

/-- Four bytes, two addresses up. -/
theorem pigMemmove_moves_up : (pigMemmove UInt64.toUInt8 7 5 4).1 10 = 8 ∧
    (pigMemmove UInt64.toUInt8 7 5 4).1 6 = 6 := by
  have h := pigMemmove_moves UInt64.toUInt8 7 5 4 (by decide) (by decide)
  exact ⟨h.1 3 (by decide), h.2 6 (by decide)⟩

end PigOS.Kernel
