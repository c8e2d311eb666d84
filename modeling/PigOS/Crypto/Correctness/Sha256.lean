import PigOS.Crypto.Sha256
import PigOS.Lib.Chunks

/-!
# `Crypto.Correctness.Sha256` — `sha256.h` computes SHA-256

The code keeps the last 16 words of the schedule in a ring (`Window`), buffers what does not fill a
block, and takes whole blocks past the buffer where it is empty. `Reached` says what of a message a
context stands for; every call of `sha256_write` keeps it, so that it does not matter in which
pieces a message comes.
-/

namespace PigOS.Crypto

open List Blocks

/-! ## The function -/

/-- The words of a block, each from those before it. -/
def schedule (p : List UInt8) (n : Nat) : UInt32 :=
  if n < 16 then sha256Load p (4 * n)
  else sha256Mix (schedule p (n - 16)) (schedule p (n - 15)) (schedule p (n - 7)) (schedule p (n - 2))

def compress (h : Digest) (p : List UInt8) : Digest :=
  h.add ((range 64).foldl (fun ah n => sha256Round ah (sha256K.getD n 0) (schedule p n)) h)

/-- The number of bits, in eight bytes. -/
def lengthBytes (n : Nat) : List UInt8 := (range 8).map fun i => UInt8.ofNat (8 * n / 256 ^ (7 - i))

def padding (n : Nat) : List UInt8 := 0x80 :: (replicate ((119 - n % 64) % 64) 0 ++ lengthBytes n)

def sha256 (msg : List UInt8) : List UInt8 := (absorb 64 compress sha256H (msg ++ padding msg.length)).1.bytes

/-! ## `sha256_consume` -/

section Consume

variable {p : List UInt8} {w : Nat → UInt32} {n : Nat}

/-- `w` has the words of the last 16 rounds. -/
def Window (p : List UInt8) (w : Nat → UInt32) (n : Nat) : Prop := ∀ i < n, n ≤ i + 16 → w (i % 16) = schedule p i

lemma Window.step (h : Window p w n) (ah : Digest) :
    Window p (sha256Step p (w, ah) n).1 (n + 1) ∧
      (sha256Step p (w, ah) n).2 = sha256Round ah (sha256K.getD n 0) (schedule p n) := by
  have hword : (if n < 16 then sha256Load p (4 * n) else
      sha256Mix (w (n % 16)) (w ((n % 16 + 1) % 16)) (w ((n % 16 + 9) % 16))
        (w ((n % 16 + 14) % 16))) = schedule p n := by
    rw [schedule]
    split
    · rfl
    · rw [← h (n - 16) (by omega) (by omega), ← h (n - 15) (by omega) (by omega), ← h (n - 7) (by omega) (by omega),
        ← h (n - 2) (by omega) (by omega)]
      congr 2 <;> omega
  simp only [sha256Step, hword]
  refine ⟨fun i hi hwin => ?_, trivial⟩
  by_cases hin : i = n
  · rw [hin, Function.update_self]
  · rw [Function.update_of_ne (by omega)]
    exact h i (by omega) (by omega)

lemma sha256Consume_eq (w : Nat → UInt32) (h : Digest) (p : List UInt8) : sha256Consume w h p = compress h p := by
  have hrun : ∀ m, Window p ((range m).foldl (sha256Step p) (w, h)).1 m ∧ ((range m).foldl (sha256Step p) (w, h)).2 =
      (range m).foldl (fun ah n => sha256Round ah (sha256K.getD n 0) (schedule p n)) h := by
    intro m
    induction m with
    | zero => exact ⟨fun i hi => absurd hi (Nat.not_lt_zero i), rfl⟩
    | succ m ih =>
      rw [range_succ, foldl_append, foldl_append, foldl_cons, foldl_nil, foldl_cons, foldl_nil, ← ih.2]
      exact ih.1.step _
  rw [sha256Consume, compress, (hrun 64).2]

end Consume

/-! ## `sha256_write` -/

variable (w : Nat → UInt32)

/-- The run lemma of the loop: whole blocks are consumed, and what is left is in the buffer. -/
lemma sha256Loop_absorb (s : Sha256) (p : List UInt8) :
    ((sha256Loop w s p).h, (sha256Loop w s p).chunk) = absorb 64 compress s.h (s.chunk ++ p) ∧
      (sha256Loop w s p).totalLen = s.totalLen := by
  fun_induction sha256Loop w s p with
  | case1 s =>
    rw [append_nil, absorb_of_lt _ _ s.room]
    exact ⟨rfl, rfl⟩
  | case2 s p hp hfull ih =>
    -- the buffer is empty, and a block is taken where it stands
    obtain ⟨hspace, hlen⟩ := hfull
    have hnil : s.chunk = [] := length_eq_zero_iff.mp (by rw [Sha256.spaceLeft] at hspace; have := s.room; omega)
    refine ⟨ih.1.trans ?_, ih.2⟩
    dsimp only
    rw [hnil, nil_append, nil_append, sha256Consume_eq, ← absorb_block _ _ (by decide) (length_take_of_le hlen),
      take_append_drop]
  | case3 s p hp hfull c chunk hc ih =>
    refine ⟨ih.1.trans ?_, ih.2⟩
    rw [append_assoc, take_append_drop]
  | case4 s p hp hfull c chunk hc ih =>
    have hblock : (s.chunk ++ p.take c).length = 64 := by
      have hroom := s.room
      have hle : c ≤ 64 - s.chunk.length := Nat.min_le_right ..
      have hlen : ¬(s.chunk ++ p.take c).length < 64 := hc
      rw [length_append, length_take_of_le (Nat.min_le_left ..)] at hlen ⊢
      omega
    refine ⟨ih.1.trans ?_, ih.2⟩
    rw [nil_append, sha256Consume_eq, ← absorb_block _ _ (by decide) hblock, append_assoc, take_append_drop]

/-! ## `sha256_close` -/

lemma toUInt8_eq {v : UInt64} {m : Nat} (h : v.toNat % 2 ^ 8 = m % 2 ^ 8) : v.toUInt8 = UInt8.ofNat m := by
  refine UInt8.toNat_inj.mp ?_
  rw [UInt64.toNat_toUInt8, UInt8.toNat_ofNat', h]

lemma sha256Length_eq (n : Nat) : sha256Length (UInt64.ofNat n) = lengthBytes n := by
  simp only [sha256Length, lengthBytes, show range 7 = [0, 1, 2, 3, 4, 5, 6] from rfl,
    show range 8 = [0, 1, 2, 3, 4, 5, 6, 7] from rfl, foldl_cons, foldl_nil, map_cons, map_nil, cons.injEq, and_true]
  refine ⟨?_, ?_, ?_, ?_, ?_, ?_, ?_, ?_⟩ <;> apply toUInt8_eq <;>
    simp only [UInt64.toNat_shiftRight, UInt64.toNat_shiftLeft, UInt64.toNat_ofNat', UInt64.reduceToNat,
      Nat.shiftRight_eq_div_pow, Nat.shiftLeft_eq, Nat.reduceMod, Nat.reducePow, Nat.reduceSub] <;> omega

lemma sha256Close_eq {s : Sha256} {n : Nat} (hlen : s.totalLen = UInt64.ofNat n) (hn : s.chunk.length = n % 64) :
    sha256Close w s = (absorb 64 compress s.h (s.chunk ++ padding n)).1.bytes := by
  have hlast : (lengthBytes n).length = 8 := rfl
  rw [sha256Close, padding, ← hn, hlen, sha256Length_eq, Sha256.spaceLeft]
  by_cases hsl : 64 - s.chunk.length - 1 < 8
  · -- no room for the length: one block more
    have hsplit : s.chunk ++ 0x80 :: (replicate ((119 - s.chunk.length) % 64) 0 ++ lengthBytes n) =
        (s.chunk ++ [0x80] ++ replicate (64 - s.chunk.length - 1) 0) ++ (replicate 56 0 ++ lengthBytes n) := by
      rw [show (119 - s.chunk.length) % 64 = 64 - s.chunk.length - 1 + 56 by omega, ← replicate_append_replicate]
      simp only [append_assoc, cons_append, nil_append]
    simp only [if_pos hsl]
    rw [hsplit, absorb_block _ _ (by decide), absorb_self _ _ (by decide), sha256Consume_eq,
      sha256Consume_eq, nil_append]
    · rw [length_append, length_replicate, hlast]
    · rw [length_append, length_append, length_replicate, length_singleton]
      omega
  · simp only [if_neg hsl]
    rw [absorb_self _ _ (by decide), sha256Consume_eq, append_assoc, append_assoc, singleton_append,
      show (119 - s.chunk.length) % 64 = 64 - s.chunk.length - 1 - 8 by omega]
    simp only [length_append, length_cons, length_replicate, hlast]
    omega

/-! ## The whole message -/

/-- The context stands for the bytes written so far. -/
def Reached (s : Sha256) (msg : List UInt8) : Prop :=
  (s.h, s.chunk) = absorb 64 compress sha256H msg ∧ s.totalLen = UInt64.ofNat msg.length

variable {s : Sha256} {msg : List UInt8}

lemma Reached.absorb_eq (h : Reached s msg) (data : List UInt8) :
    absorb 64 compress s.h (s.chunk ++ data) = absorb 64 compress sha256H (msg ++ data) := by
  rw [absorb_append _ sha256H (by decide), ← h.1]

/-- The step lemma. -/
lemma Reached.write (h : Reached s msg) (data : List UInt8) : Reached (sha256Write w s data) (msg ++ data) := by
  obtain ⟨hstate, hlen⟩ := sha256Loop_absorb w { s with totalLen := s.totalLen + UInt64.ofNat data.length } data
  refine ⟨hstate.trans (h.absorb_eq data), hlen.trans ?_⟩
  rw [h.2, length_append, UInt64.ofNat_add]

lemma Reached.close (h : Reached s msg) : sha256Close w s = sha256 msg := by
  have hrest := congrArg (fun r => r.2.length) h.1
  rw [length_absorb _ _ (by decide)] at hrest
  rw [sha256Close_eq w h.2 hrest, h.absorb_eq, sha256]

lemma reached_init : Reached sha256Init [] := ⟨(absorb_of_lt compress sha256H (by decide)).symm, rfl⟩

lemma calcSha256_eq (input : List UInt8) : calcSha256 w input = sha256 input := (reached_init.write w input).close w

/-- **SHA-256 of a message in pieces**, however it is cut and whatever the stack held before. -/
theorem sha256_pieces (pieces : List (List UInt8)) :
    sha256Close w (pieces.foldl (sha256Write w) sha256Init) = sha256 pieces.flatten := by
  have hrun : ∀ s msg, Reached s msg → Reached (pieces.foldl (sha256Write w) s) (msg ++ pieces.flatten) := by
    induction pieces with
    | nil => exact fun s msg h => (append_nil msg).symm ▸ h
    | cons data pieces ih =>
      intro s msg h
      rw [foldl_cons, flatten_cons, ← append_assoc]
      exact ih _ _ (h.write w data)
  exact (hrun sha256Init [] reached_init).close w

end PigOS.Crypto
