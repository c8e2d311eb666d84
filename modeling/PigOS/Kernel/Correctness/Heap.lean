import Mathlib.Data.UInt
import PigOS.Kernel.Pigfs

/-!
# `Kernel.Correctness.Heap` — the heap and the deletion store

The deletion store lies at `0x600000`, in the middle of the heap, and the allocator knows nothing of
it. The mask of `km` clears the upper half of the size: a request of almost 4 GiB or more is served
with a smaller block.
-/

namespace PigOS.Kernel

open List

variable {n : UInt64} {hp : Nat}

/-! ## Rounding -/

/-- What `(n+15)&~15u` computes: the mask also clears the upper half of the size. -/
lemma kmRound_toNat (n : UInt64) : (kmRound n).toNat = (n.toNat + 15) % 2 ^ 32 / 2 ^ 4 * 2 ^ 4 := by
  have hmask : (0xFFFFFFF0 : UInt64).toNat = (2 ^ 28 - 1) * 2 ^ 4 := rfl
  have hsum : (n + 15).toNat = (n.toNat + 15) % 2 ^ 64 := UInt64.toNat_add n 15
  unfold kmRound
  rw [UInt64.toNat_and, hmask, hsum]
  apply Nat.eq_of_testBit_eq
  intro i
  rw [Nat.testBit_and, Nat.testBit_mul_two_pow, Nat.testBit_mul_two_pow, Nat.testBit_two_pow_sub_one,
    Nat.testBit_div_two_pow, Nat.testBit_mod_two_pow, Nat.testBit_mod_two_pow]
  by_cases h4 : 4 ≤ i
  · have hi : i - 4 + 4 = i := by omega
    by_cases h32 : i < 32
    · have h28 : i - 4 < 28 := by omega
      have h64 : i < 64 := by omega
      simp [h4, hi, h32, h28, h64]
    · have h28 : ¬ i - 4 < 28 := by omega
      simp [hi, h32, h28]
  · simp [h4]

lemma kmRound_mod (n : UInt64) : (kmRound n).toNat % 16 = 0 := by
  rw [kmRound_toNat]
  omega

/-- A size that leaves the upper half alone is rounded up to the next multiple of 16. -/
lemma kmRound_bounds (h : n.toNat + 15 < 2 ^ 32) : n.toNat ≤ (kmRound n).toNat ∧ (kmRound n).toNat < n.toNat + 16 := by
  rw [kmRound_toNat, Nat.mod_eq_of_lt h]
  omega

/-! ## Blocks and the store -/

/-- `km` serves a request of `n` bytes when the heap pointer is `hp`. -/
def kmGrants (hp : Nat) (n : UInt64) : Prop := hp + (kmRound n).toNat ≤ heapLimit

lemma km_granted (h : kmGrants hp n) : km hp n = (some hp, hp + (kmRound n).toNat) := by
  unfold km
  simp only
  rw [if_neg (Nat.not_lt.mpr h)]

lemma km_refused (h : ¬ kmGrants hp n) : km hp n = (none, hp) := by
  unfold km
  simp only
  rw [if_pos (Nat.not_le.mp h)]

/-- The block of `n` bytes at `p` has a byte in common with the deletion store. -/
def OverlapsStore (p n : Nat) : Prop :=
  ∃ a, p ≤ a ∧ a < p + n ∧ delStoreAddr ≤ a ∧ a < delStoreAddr + delStoreSize

/-- A block that begins at or before the store avoids it exactly when it is empty or ends before
it. -/
lemma overlapsStore_iff {p n : Nat} (hp : p ≤ delStoreAddr) : ¬ OverlapsStore p n ↔ n = 0 ∨ p + n ≤ delStoreAddr := by
  have hsize : 0 < delStoreSize := by decide
  unfold OverlapsStore
  constructor
  · intro h
    by_contra hc
    exact h ⟨delStoreAddr, hp, by omega, Nat.le_refl _, by omega⟩
  · rintro h ⟨a, hpa, han, hsa, -⟩
    omega

/-- The heap pointer is aligned and has not passed the start of the store. -/
def BelowStore (hp : Nat) : Prop := hp % 16 = 0 ∧ hp ≤ delStoreAddr

/-- The step lemma: a request that stays below the store leaves the pointer there. -/
lemma BelowStore.step (h : BelowStore hp)
    (hn : kmGrants hp n → n.toNat = 0 ∨ hp + n.toNat ≤ delStoreAddr) : BelowStore (km hp n).2 := by
  by_cases hg : kmGrants hp n
  · rw [km_granted hg]
    have hmod := kmRound_mod n
    have haddr : delStoreAddr % 16 = 0 := by decide
    have hsmall : delStoreAddr + 15 < 2 ^ 32 := by decide
    obtain ⟨halign, hle⟩ := h
    have hfit : hp + n.toNat ≤ delStoreAddr := by
      rcases hn hg with h0 | hfit
      · omega
      · exact hfit
    have hround := kmRound_bounds (n := n) (by omega)
    unfold BelowStore
    omega
  · rw [km_refused hg]
    exact h

/-- **When the heap avoids the store.** No block that `km` returns overlaps the deletion store
exactly when every request that is served is for no bytes, or its bytes end at or before
`0x600000`. -/
theorem heap_avoids_store_iff (ns : List UInt64) :
    (∀ e ∈ Machine.events km heapBase ns, ∀ p, e.output = some p → ¬ OverlapsStore p e.input.toNat) ↔
    (∀ e ∈ Machine.events km heapBase ns, kmGrants e.before e.input →
      e.input.toNat = 0 ∨ e.before + e.input.toNat ≤ delStoreAddr) := by
  have hbase : BelowStore heapBase := ⟨by decide, by decide⟩
  generalize heapBase = hp at hbase
  -- both sides say the same of each step, as long as the pointer has not passed the store
  induction ns generalizing hp with
  | nil => simp
  | cons n ns ih =>
    rw [Machine.events_cons, forall_mem_cons, forall_mem_cons]
    have hhead : (∀ p, (km hp n).1 = some p → ¬ OverlapsStore p n.toNat) ↔
        (kmGrants hp n → n.toNat = 0 ∨ hp + n.toNat ≤ delStoreAddr) := by
      by_cases hg : kmGrants hp n
      · rw [km_granted hg, ← overlapsStore_iff hbase.2]
        simp [hg]
      · rw [km_refused hg]
        simp [hg]
    constructor
    · rintro ⟨h, hs⟩
      have hn := hhead.mp h
      exact ⟨hn, (ih _ (hbase.step hn)).mp hs⟩
    · rintro ⟨hn, hs⟩
      exact ⟨hhead.mpr hn, (ih _ (hbase.step hn)).mpr hs⟩

/-- `sizeof(JsonTree)`: what each call of `json_parse` asks for. -/
def jsonTreeSize : UInt64 := 1024 * 48 + 8

/-- The tree of the 43rd `json_parse` of a session lies over the start of the store. -/
theorem heap_reaches_store : ∃ e ∈ Machine.events km heapBase (replicate 43 jsonTreeSize),
      ∃ p, e.output = some p ∧ OverlapsStore p e.input.toNat := by
  refine ⟨⟨0x5F82A0, jsonTreeSize, some 0x5F82A0, 0x6042B0⟩, ?_, 0x5F82A0, rfl, delStoreAddr, ?_⟩
  · decide +kernel
  · decide +kernel

/-! ## The law of the allocator -/

/-- A block: its address and the size that was asked for. -/
abbrev HeapBlock := Nat × Nat

/-- The blocks that the requests of a run were answered with, in order. -/
def blocks (es : List (Machine.Event Nat UInt64 (Option Nat))) : List HeapBlock :=
  es.filterMap (fun e => e.output.map (·, e.input.toNat))

/-- No address lies in both blocks. -/
def Apart (b c : HeapBlock) : Prop := ∀ a, b.1 ≤ a → a < b.1 + b.2 → c.1 ≤ a → ¬ a < c.1 + c.2

/-- What the callers of `km` rely on. -/
structure AllocLaw (bs : List HeapBlock) : Prop where
  aligned : ∀ b ∈ bs, b.1 % 16 = 0
  inside : ∀ b ∈ bs, heapBase ≤ b.1 ∧ b.1 + b.2 ≤ heapLimit
  apart : bs.Pairwise Apart

/-- The sizes that `km` does not cut: adding 15 leaves them below `2^32`. -/
def kmSize (n : UInt64) : Prop := n.toNat ≤ 2 ^ 32 - 16

lemma blocks_cons (e : Machine.Event Nat UInt64 (Option Nat)) (es : List (Machine.Event Nat UInt64 (Option Nat))) :
    blocks (e :: es) = ((e.output.map (·, e.input.toNat)).toList ++ blocks es) := by
  unfold blocks
  rw [filterMap_cons]
  cases e.output with
  | none => rfl
  | some p => rfl

/-- The heap pointer between two requests. -/
def HeapPtr (hp : Nat) : Prop := hp % 16 = 0 ∧ heapBase ≤ hp

lemma HeapPtr.granted (h : HeapPtr hp) (n : UInt64) : HeapPtr (hp + (kmRound n).toNat) := by
  have hmod := kmRound_mod n
  obtain ⟨halign, hbase⟩ := h
  unfold HeapPtr
  omega

/-- The run lemma: requests that are not cut get blocks that obey the law, above the pointer. -/
lemma allocLaw_of_sizes (hhp : HeapPtr hp) {ns : List UInt64}
    (hns : ∀ e ∈ Machine.events km hp ns, kmGrants e.before e.input → kmSize e.input) :
    AllocLaw (blocks (Machine.events km hp ns)) ∧ ∀ b ∈ blocks (Machine.events km hp ns), hp ≤ b.1 := by
  induction ns generalizing hp with
  | nil => exact ⟨⟨forall_mem_nil _, forall_mem_nil _, .nil⟩, forall_mem_nil _⟩
  | cons n ns ih =>
    rw [Machine.events_cons, forall_mem_cons] at hns
    obtain ⟨hn, hrest⟩ := hns
    rw [Machine.events_cons, blocks_cons]
    by_cases hg : kmGrants hp n
    · rw [km_granted hg] at hrest ⊢
      obtain ⟨hlaw, habove⟩ := ih (hhp.granted n) hrest
      have hround : n.toNat ≤ (kmRound n).toNat := by
        have hsize : n.toNat ≤ 2 ^ 32 - 16 := hn hg
        exact (kmRound_bounds (by omega)).1
      have hlimit : hp + (kmRound n).toNat ≤ heapLimit := hg
      refine ⟨⟨?_, ?_, ?_⟩, ?_⟩
      · exact forall_mem_cons.mpr ⟨hhp.1, hlaw.aligned⟩
      · exact forall_mem_cons.mpr ⟨⟨hhp.2, by show hp + n.toNat ≤ heapLimit; omega⟩, hlaw.inside⟩
      · refine pairwise_cons.mpr ⟨fun b hb a _ ha hba => ?_, hlaw.apart⟩
        have hb' := habove b hb
        have ha' : a < hp + n.toNat := ha
        omega
      · refine forall_mem_cons.mpr ⟨Nat.le_refl _, fun b hb => ?_⟩
        have hb' := habove b hb
        omega
    · rw [km_refused hg] at hrest ⊢
      exact ih hhp hrest

/-- **When the allocator keeps its law.** The blocks are aligned, inside of the heap and disjoint
exactly when no request that is served is for more than `2^32-16` bytes. -/
theorem alloc_law_iff (ns : List UInt64) : AllocLaw (blocks (Machine.events km heapBase ns)) ↔
      ∀ e ∈ Machine.events km heapBase ns, kmGrants e.before e.input → kmSize e.input := by
  constructor
  · intro hlaw e he hg
    have hstep := Machine.mem_events he
    rw [km_granted hg, Prod.mk.injEq] at hstep
    have hblock : (e.before, e.input.toNat) ∈ blocks (Machine.events km heapBase ns) :=
      mem_filterMap.mpr ⟨e, he, by rw [← hstep.1]; rfl⟩
    -- a block of that size would not fit into the heap
    have hin : e.before + e.input.toNat ≤ heapLimit := (hlaw.inside _ hblock).2
    have hheap : heapLimit ≤ 2 ^ 32 - 16 := by decide
    unfold kmSize
    omega
  · exact fun hns => (allocLaw_of_sizes ⟨by decide, Nat.le_refl _⟩ hns).1

/-- A request of 4 GiB gets the start of the heap, and nothing is taken off it: the next gets the
same address. -/
theorem alloc_overlaps_four_gib : blocks (Machine.events km heapBase [2 ^ 32, 16]) =
    [(heapBase, 2 ^ 32), (heapBase, 16)] ∧
      ¬ AllocLaw (blocks (Machine.events km heapBase [2 ^ 32, 16])) := by
  have hblocks : blocks (Machine.events km heapBase [2 ^ 32, 16]) = [(heapBase, 2 ^ 32), (heapBase, 16)] := by
    decide +kernel
  refine ⟨hblocks, fun hlaw => ?_⟩
  have hin := (hlaw.inside (heapBase, 2 ^ 32) (by rw [hblocks]; exact mem_cons_self)).2
  exact absurd hin (by decide)

end PigOS.Kernel
