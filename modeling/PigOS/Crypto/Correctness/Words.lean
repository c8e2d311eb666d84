import PigOS.Crypto.BignumMod

/-!
# `Crypto.Correctness.Words` — what the loops over words compute

Each loop of `bn_cmp`, `bn_add`, `bn_sub`, `bn_mul` and of the shift in `bn_powmod` has a lemma that
says what the words written so far are worth; the carry makes up the rest. The result may be an
argument of `bn_add` and the first argument of `bn_sub`; that of `bn_mul` is taken to be neither.
-/

namespace PigOS.Crypto

open ModArith List

variable {a : BN}

/-! ## The memory -/

section
variable {Loc : Type} [DecidableEq Loc] {r x b : Loc} {w : Nat → UInt64} {n : Nat} {s : Mem Loc}
  {w' : Nat → UInt64} {i k : Nat}

namespace Mem

@[simp] lemma put_self (s : Mem Loc) (r : Loc) (b : BN) : s.put r b r = b := if_pos rfl

lemma put_of_ne (s : Mem Loc) (b : BN) (hx : x ≠ r) : s.put r b x = s x := if_neg hx

lemma setWord_of_ne (s : Mem Loc) (i : Nat) (v : UInt64) (hx : x ≠ r) : s.setWord r i v x = s x :=
  s.put_of_ne _ hx

@[simp] lemma setWord_n (s : Mem Loc) (r : Loc) (i : Nat) (v : UInt64) : (s.setWord r i v r).n = (s r).n := by
  rw [setWord, put_self]

lemma setWord_w (s : Mem Loc) (r : Loc) (i : Nat) (v : UInt64) (k : Nat) :
    (s.setWord r i v r).w k = if k = i then v else (s r).w k := by
  rw [setWord, put_self]

lemma setN_of_ne (s : Mem Loc) (n : Nat) (hx : x ≠ r) : s.setN r n x = s x := s.put_of_ne _ hx

end Mem

/-! ## The value of the first words -/

/-- The value of the first `n` words of an array. -/
def wordsVal (w : Nat → UInt64) (n : Nat) : Nat := Nat.ofDigits wordBase ((range n).map (fun i => (w i).toNat))

/-- One word more. -/
lemma wordsVal_succ (w : Nat → UInt64) (n : Nat) : wordsVal w (n + 1) = wordsVal w n + wordBase ^ n * (w n).toNat := by
  rw [wordsVal, range_succ, map_append, Nat.ofDigits_append, length_map, length_range]
  rfl

lemma wordsVal_congr (h : ∀ i < n, w i = w' i) : wordsVal w n = wordsVal w' n := by
  rw [wordsVal, map_congr_left (fun i hi => congrArg UInt64.toNat (h i (mem_range.mp hi))), wordsVal]

lemma wordsVal_setWord (s : Mem Loc) (r : Loc) (n : Nat) (v : UInt64) :
    wordsVal (s.setWord r n v r).w (n + 1) = wordsVal (s r).w n + wordBase ^ n * v.toNat := by
  rw [wordsVal_succ, s.setWord_w, if_pos rfl]
  congr 1
  exact wordsVal_congr (fun i hi => (s.setWord_w r n v i).trans (if_neg (Nat.ne_of_lt hi)))

lemma val_setN (s : Mem Loc) (r : Loc) (n : Nat) : (s.setN r n r).val = wordsVal (s r).w n := by
  rw [Mem.setN, Mem.put_self]
  rfl

/-- Words that do not count are read as 0. -/
lemma wordsVal_word (a : BN) (hn : a.n ≤ n) : wordsVal a.word n = a.val := by
  induction n, hn using Nat.le_induction with
  | base => exact wordsVal_congr (fun i hi => if_pos hi)
  | succ n hn ih =>
    rw [wordsVal_succ, ih, BN.word, if_neg (Nat.not_lt.mpr hn)]
    rfl

lemma wordsVal_zero (h : ∀ i < n, w i = 0) : wordsVal w n = 0 := by
  induction n with
  | zero => rfl
  | succ n ih =>
    rw [wordsVal_succ, ih (fun i hi => h i (Nat.lt_succ_of_lt hi)), h n (Nat.lt_succ_self n)]
    rfl

lemma wordsVal_lt (w : Nat → UInt64) (n : Nat) : wordsVal w n < wordBase ^ n := BN.val_lt ⟨w, n⟩

lemma wordsVal_mod (w : Nat → UInt64) (n k : Nat) : wordsVal w (n + k) % wordBase ^ n = wordsVal w n := by
  induction k with
  | zero => exact Nat.mod_eq_of_lt (wordsVal_lt w n)
  | succ k ih =>
    rw [← Nat.add_assoc, wordsVal_succ, pow_add, mul_assoc, Nat.add_mul_mod_self_left, ih]

lemma wordsVal_word_mod (a : BN) (n : Nat) : wordsVal a.word n = a.val % wordBase ^ n := by
  rcases Nat.le_total a.n n with h | h
  · rw [wordsVal_word a h, Nat.mod_eq_of_lt]
    exact Nat.lt_of_lt_of_le a.val_lt (Nat.pow_le_pow_right wordBase_pos h)
  · obtain ⟨k, hk⟩ := Nat.exists_eq_add_of_le h
    rw [BN.val, BN.words, hk]
    exact (wordsVal_congr (fun i hi => if_pos (Nat.lt_of_lt_of_le hi h))).trans (wordsVal_mod a.w n k).symm

/-- The top word decides. -/
lemma wordsVal_lt_of_top (h : w n < w' n) : wordsVal w (n + 1) < wordsVal w' (n + 1) := by
  have htop : wordBase ^ n * ((w n).toNat + 1) ≤ wordBase ^ n * (w' n).toNat :=
    Nat.mul_le_mul_left _ (UInt64.lt_iff_toNat_lt.mp h)
  have hlow := wordsVal_lt w n
  rw [wordsVal_succ, wordsVal_succ]
  rw [Nat.mul_add, Nat.mul_one] at htop
  omega

/-! ## Normal form -/

/-- At least one word counts, and no leading zero. -/
def BN.Normal (a : BN) : Prop := a.n = wordCount a.val

lemma wordCount_le {v : Nat} (hk : 1 ≤ k) (hv : v < wordBase ^ k) : wordCount v ≤ k := by
  obtain ⟨j, rfl⟩ := Nat.exists_eq_add_of_le' hk
  exact Nat.succ_le_succ (Nat.lt_succ_iff.mp (Nat.log_lt_of_lt_pow' (Nat.succ_ne_zero j) hv))

/-- No leading zero: all words count. -/
lemma wordCount_wordsVal (htop : n = 0 ∨ w n ≠ 0) : wordCount (wordsVal w (n + 1)) = n + 1 := by
  refine congrArg (· + 1) ?_
  rcases htop with rfl | htop
  · refine Nat.log_of_lt ?_
    have hlt := wordsVal_lt w (0 + 1)
    rwa [Nat.zero_add, Nat.pow_one] at hlt
  · refine Nat.log_eq_of_pow_le_of_lt_pow ?_ (wordsVal_lt w (n + 1))
    have hpos : 1 ≤ (w n).toNat := Nat.one_le_iff_ne_zero.mpr (fun h => htop (UInt64.toNat_inj.mp h))
    rw [wordsVal_succ]
    exact Nat.le_add_left_of_le (Nat.le_mul_of_pos_right _ hpos)

lemma trimWords_le (w : Nat → UInt64) (n : Nat) : trimWords w n ≤ n := by
  fun_induction trimWords w n with
  | case1 n _ ih => exact Nat.le_succ_of_le ih
  | case2 n _ => exact Nat.le_refl _
  | case3 n _ => exact Nat.le_refl _

/-- Leading zeros have no value. -/
lemma wordsVal_trimWords (w : Nat → UInt64) (n : Nat) : wordsVal w (trimWords w n) = wordsVal w n := by
  fun_induction trimWords w n with
  | case1 n hzero ih =>
    rw [ih, wordsVal_succ w (n + 1), hzero, UInt64.toNat_zero, Nat.mul_zero]
    rfl
  | case2 n _ => rfl
  | case3 n _ => rfl

/-- What is left are the words that count. -/
lemma trimWords_eq (w : Nat → UInt64) (hn : 1 ≤ n) : trimWords w n = wordCount (wordsVal w n) := by
  fun_induction trimWords w n with
  | case1 n hzero ih =>
    rw [ih (Nat.le_add_left 1 n), wordsVal_succ w (n + 1), hzero, UInt64.toNat_zero, Nat.mul_zero]
    rfl
  | case2 n htop => exact (wordCount_wordsVal (.inr htop)).symm
  | case3 n hne =>
    cases n with
    | zero => exact absurd hn (by decide)
    | succ n =>
      cases n with
      | zero => exact (wordCount_wordsVal (.inl rfl)).symm
      | succ n => exact absurd rfl (hne n)

lemma normal_setN (s : Mem Loc) (r : Loc) (hn : 1 ≤ n) : (s.setN r (trimWords (s r).w n) r).Normal := by
  rw [BN.Normal, val_setN, wordsVal_trimWords, Mem.setN, Mem.put_self, trimWords_eq _ hn]

lemma BN.Normal.pos (h : a.Normal) : 1 ≤ a.n := by
  rw [h, wordCount]
  exact Nat.le_add_left 1 _

lemma BN.Normal.n_le (h : a.Normal) (hk : 1 ≤ k) (hv : a.val < wordBase ^ k) : a.n ≤ k :=
  h.le.trans (wordCount_le hk hv)

lemma val_of_one_word (h : a.n = 1) : a.val = (a.w 0).toNat := by
  rw [BN.val, BN.words, h]
  exact Nat.ofDigits_singleton

lemma val_of_bnIsZero (h : bnIsZero a = true) : a.val = 0 := by
  rw [bnIsZero, Bool.and_eq_true, decide_eq_true_iff, decide_eq_true_iff] at h
  rw [val_of_one_word h.1, h.2]
  rfl

lemma bnIsZero_iff (h : a.Normal) : bnIsZero a = true ↔ a.val = 0 := by
  refine ⟨val_of_bnIsZero, fun hzero => ?_⟩
  have hn : a.n = 1 := by
    rw [h, hzero, wordCount, Nat.log_zero_right]
  rw [val_of_one_word hn] at hzero
  have hword : a.w 0 = 0 := UInt64.toNat_inj.mp hzero
  rw [bnIsZero, hn, hword]
  rfl

lemma BN.Normal.one_word (h : a.Normal) (hv : a.val < wordBase) : a.n = 1 :=
  Nat.le_antisymm (h.n_le (Nat.le_refl 1) (by rwa [Nat.pow_one])) h.pos

lemma one_le_n_of_val (h : a.val ≠ 0) : 1 ≤ a.n := by
  by_contra hnone
  have hlt := a.val_lt
  rw [Nat.lt_one_iff.mp (Nat.not_le.mp hnone), pow_zero] at hlt
  omega

/-! ## Comparison -/

/-- The loop compares the words below `i`. -/
lemma bnCmpLoop_eq (a b : BN) (i : Nat) : bnCmpLoop a b i =
      if wordsVal a.word i < wordsVal b.word i then -1 else if wordsVal b.word i < wordsVal a.word i then 1 else 0 := by
  induction i with
  | zero => rfl
  | succ i ih =>
    rw [bnCmpLoop]
    by_cases heq : a.word i = b.word i
    · rw [if_neg (not_not.mpr heq), ih, wordsVal_succ, wordsVal_succ, heq]
      simp only [Nat.add_lt_add_iff_right]
    · rw [if_pos heq]
      by_cases hlt : b.word i < a.word i
      · have hval := wordsVal_lt_of_top hlt
        rw [if_pos hlt, if_neg (Nat.lt_asymm hval), if_pos hval]
      · have hgt : a.word i < b.word i := UInt64.lt_of_le_of_ne (UInt64.not_lt.mp hlt) heq
        rw [if_neg hlt, if_pos (wordsVal_lt_of_top hgt)]

/-- **A comparison is one of the values.** -/
theorem bnCmp_eq (a b : BN) : bnCmp a b = if a.val < b.val then -1 else if b.val < a.val then 1 else 0 := by
  rw [bnCmp, bnCmpLoop_eq, wordsVal_word a (Nat.le_max_left _ _), wordsVal_word b (Nat.le_max_right _ _)]

lemma bnCmp_neg_iff {b : BN} : bnCmp a b < 0 ↔ a.val < b.val := by
  rw [bnCmp_eq]
  split
  · simp only [*, Int.reduceNeg, Int.reduceLT]
  · split <;> simp only [*, Int.reduceLT, Int.lt_irrefl]

lemma bnCmp_nonneg_iff {b : BN} : 0 ≤ bnCmp a b ↔ b.val ≤ a.val := by
  rw [← Int.not_lt, bnCmp_neg_iff, Nat.not_lt]

lemma bnCmp_zero_iff {b : BN} : bnCmp a b = 0 ↔ a.val = b.val := by
  rw [bnCmp_eq]
  split
  · next h => exact iff_of_false (by decide) (Nat.ne_of_lt h)
  · split
    · next h => exact iff_of_false (by decide) (Nat.ne_of_gt h)
    · exact iff_of_true rfl (by omega)

/-! ## Addition -/

/-- The words from `i` on are as they were, also those of the result. -/
lemma bnAddLoop_word (r a b : Loc) (s : Mem Loc) (x : Loc) (hk : i ≤ k) :
    ((bnAddLoop r a b s i).1 x).word k = (s x).word k := by
  induction i with
  | zero => rfl
  | succ i ih =>
    rw [← ih (by omega)]
    by_cases hx : x = r
    · simp only [bnAddLoop, hx, BN.word, Mem.setWord_w, Mem.setWord_n, if_neg (show k ≠ i by omega)]
    · exact congrArg (BN.word · k) (Mem.setWord_of_ne _ _ _ hx)

/-- A word and the carry out of it. -/
lemma word_carry (x : Nat) : (UInt64.ofNat x).toNat + wordBase * (x / wordBase) = x := by
  rw [UInt64.toNat_ofNat']
  exact Nat.mod_add_div x wordBase

/-- The words written so far and the carry make up the sum of the words read. -/
lemma bnAddLoop_val (r a b : Loc) (s : Mem Loc) (i : Nat) :
    wordsVal ((bnAddLoop r a b s i).1 r).w i + wordBase ^ i * (bnAddLoop r a b s i).2
        = wordsVal (s a).word i + wordsVal (s b).word i ∧ (bnAddLoop r a b s i).2 ≤ 1 := by
  induction i with
  | zero => exact ⟨rfl, Nat.zero_le 1⟩
  | succ i ih =>
    obtain ⟨hval, hcarry⟩ := ih
    have hta := bnAddLoop_word r a b s a (Nat.le_refl i)
    have htb := bnAddLoop_word r a b s b (Nat.le_refl i)
    rw [bnAddLoop]
    generalize bnAddLoop r a b s i = t at hval hcarry hta htb ⊢
    simp only [hta, htb] at hval hcarry ⊢
    constructor
    · rw [wordsVal_setWord, wordsVal_succ, wordsVal_succ, pow_succ, mul_assoc, add_assoc, ← mul_add, word_carry,
        mul_add, mul_add]
      omega
    · have hla := ((s a).word i).toNat_lt
      have hlb := ((s b).word i).toNat_lt
      exact Nat.le_of_lt_succ (Nat.div_lt_of_lt_mul (by unfold wordBase; omega))

/-- **A sum is exact**, also in place. -/
theorem bnAdd_val (s : Mem Loc) (r a b : Loc) : (bnAdd s r a b r).val = (s a).val + (s b).val := by
  obtain ⟨hval, hcarry⟩ := bnAddLoop_val r a b s (max (s a).n (s b).n)
  rw [wordsVal_word _ (Nat.le_max_left _ _), wordsVal_word _ (Nat.le_max_right _ _)] at hval
  rw [bnAdd]
  generalize bnAddLoop r a b s (max (s a).n (s b).n) = t at hval hcarry ⊢
  obtain ⟨t, c⟩ := t
  by_cases hc : c = 0
  · subst hc
    rw [← hval]
    exact val_setN _ _ _
  · have hone : c = 1 := Nat.le_antisymm hcarry (Nat.one_le_iff_ne_zero.mpr hc)
    subst hone
    rw [← hval]
    exact (val_setN _ _ _).trans (wordsVal_setWord _ _ _ _)

lemma bnAdd_n_le (s : Mem Loc) (r a b : Loc) : (bnAdd s r a b r).n ≤ max (s a).n (s b).n + 1 := by
  simp only [bnAdd]
  split
  · exact Nat.le_of_eq (congrArg BN.n (Mem.put_self _ _ _))
  · exact Nat.le_succ_of_le (Nat.le_of_eq (congrArg BN.n (Mem.put_self _ _ _)))

/-! ## Subtraction -/

lemma bnSubLoop_of_ne (r a b : Loc) (s : Mem Loc) (i : Nat) (hx : x ≠ r) : (bnSubLoop r a b s i).1 x = s x := by
  induction i with
  | zero => rfl
  | succ i ih => exact (Mem.setWord_of_ne _ _ _ hx).trans ih

lemma bnSub_of_ne (s : Mem Loc) (r a b : Loc) (hx : x ≠ r) : bnSub s r a b x = s x :=
  (Mem.setN_of_ne _ _ hx).trans (bnSubLoop_of_ne r a b s _ hx)

/-- A word and the borrow out of it. -/
lemma word_borrow {x y c : Nat} (hx : x < wordBase) (hy : y < wordBase) (hc : c ≤ 1) :
    (UInt64.ofNat (((x : Int) - y - c) % wordBase).toNat).toNat + y + c
      = x + wordBase * (if (x : Int) - y - c < 0 then 1 else 0) := by
  rw [UInt64.toNat_ofNat']
  unfold wordBase at *
  split <;> omega

/-- The loop of `bn_sub` after `i` rounds. `r` may be the first argument: the words from `i` on are
as before. -/
structure SubAt (s t : Mem Loc) (r a b : Loc) (i c : Nat) : Prop where
  val : wordsVal (t r).w i + wordsVal (s b).word i = wordsVal (s a).w i + wordBase ^ i * c
  borrow : c ≤ 1
  frame : ∀ k, i ≤ k → (t r).w k = (s r).w k

/-- The loop, by induction on the rounds. -/
lemma bnSubLoop_at (a : Loc) (hb : b ≠ r) (s : Mem Loc) (i : Nat) :
    SubAt s (bnSubLoop r a b s i).1 r a b i (bnSubLoop r a b s i).2 := by
  induction i with
  | zero => exact ⟨rfl, Nat.zero_le 1, fun _ _ => rfl⟩
  | succ i ih =>
    have hta : ((bnSubLoop r a b s i).1 a).w i = (s a).w i := by
      by_cases ha : a = r
      · rw [ha]
        rw [ha] at ih
        exact ih.frame i (Nat.le_refl i)
      · rw [bnSubLoop_of_ne r a b s i ha]
    have htb : (bnSubLoop r a b s i).1 b = s b := bnSubLoop_of_ne r a b s i hb
    rw [bnSubLoop]
    generalize bnSubLoop r a b s i = t at ih hta htb ⊢
    obtain ⟨hval, hborrow, hframe⟩ := ih
    dsimp only at hta htb hval hborrow hframe ⊢
    rw [hta, htb]
    have hround := word_borrow ((s a).w i).toNat_lt ((s b).word i).toNat_lt hborrow
    refine ⟨?_, ?_, ?_⟩
    · rw [wordsVal_setWord, wordsVal_succ, wordsVal_succ, pow_succ, mul_assoc]
      have hscaled := congrArg (wordBase ^ i * ·) hround
      simp only [mul_add] at hscaled
      omega
    · split <;> decide
    · intro k hk
      rw [Mem.setWord_w, if_neg (by omega)]
      exact hframe k (by omega)

/-- **A difference, modulo the words of the first argument.** -/
theorem bnSub_val (a : Loc) (hb : b ≠ r) (s : Mem Loc) :
    ((bnSub s r a b r).val : Int) = ((s a).val - (s b).val) % (wordBase ^ (s a).n : Nat) := by
  obtain ⟨hval, -, -⟩ := bnSubLoop_at a hb s (s a).n
  have hlt := wordsVal_lt ((bnSubLoop r a b s (s a).n).1 r).w (s a).n
  have hres : (bnSub s r a b r).val = wordsVal ((bnSubLoop r a b s (s a).n).1 r).w (s a).n := by
    rw [bnSub, val_setN, wordsVal_trimWords]
  rw [wordsVal_word_mod] at hval
  rw [hres]
  generalize wordsVal ((bnSubLoop r a b s (s a).n).1 r).w (s a).n = v at hval hlt
  generalize (bnSubLoop r a b s (s a).n).2 = c at hval
  have ha : wordsVal (s a).w (s a).n = (s a).val := rfl
  rw [ha] at hval
  have hmod := Nat.mod_add_div (s b).val (wordBase ^ (s a).n)
  generalize wordBase ^ (s a).n = M at *
  have hdiff : ((s a).val : Int) - (s b).val = v + M * (-(c : Int) - ((s b).val / M : Nat)) := by
    rw [mul_sub, mul_neg]
    omega
  rw [hdiff, Int.add_mul_emod_self_left]
  exact (Int.emod_eq_of_lt (Int.natCast_nonneg v) (by exact_mod_cast hlt)).symm

lemma bnSub_of_le (a : Loc) (hb : b ≠ r) (hle : (s b).val ≤ (s a).val) :
    (bnSub s r a b r).val = (s a).val - (s b).val := by
  have hval := bnSub_val a hb s
  have hlt := (s a).val_lt
  rw [Int.emod_eq_of_lt (by omega) (by omega)] at hval
  omega

/-- **Comparison, sum and difference are exact.** The result may be one of the arguments, or for a
difference the first. -/
theorem bn_exact {Loc : Type} [DecidableEq Loc] (s : Mem Loc) (r a b : Loc) :
    bnCmp (s a) (s b) = Int.sign ((s a).val - (s b).val) ∧
    (bnAdd s r a b r).val = (s a).val + (s b).val ∧ (bnAdd s r a b r).n ≤ max (s a).n (s b).n + 1 ∧
    (b ≠ r → (s b).val ≤ (s a).val → (bnSub s r a b r).val = (s a).val - (s b).val) := by
  refine ⟨?_, bnAdd_val s r a b, bnAdd_n_le s r a b, bnSub_of_le a⟩
  rw [bnCmp_eq]
  split
  · rw [Int.sign_eq_neg_one_of_neg (by omega)]
  · split
    · rw [Int.sign_eq_one_of_pos (by omega)]
    · rw [Int.sign_eq_zero_iff_zero.mpr (by omega)]

lemma bnSub_normal {a : Loc} (b : Loc) (ha : 1 ≤ (s a).n) : (bnSub s r a b r).Normal :=
  normal_setN _ _ ha

/-! ## Multiplication -/

lemma clearWords_of_ne (s : Mem Loc) (m : Nat) (hx : x ≠ r) : clearWords s r m x = s x := by
  induction m with
  | zero => rfl
  | succ m ih => exact (Mem.setWord_of_ne _ _ _ hx).trans ih

lemma bnMulRow_of_ne (r a b : Loc) (i : Nat) (s : Mem Loc) (j : Nat) (hx : x ≠ r) :
    (bnMulRow r a b i s j).1 x = s x := by
  induction j with
  | zero => rfl
  | succ j ih => exact (Mem.setWord_of_ne _ _ _ hx).trans ih

lemma bnMulRows_of_ne (r a b : Loc) (s : Mem Loc) (i : Nat) (hx : x ≠ r) : bnMulRows r a b s i x = s x := by
  induction i with
  | zero => rfl
  | succ i ih =>
    have hrow := bnMulRow_of_ne r a b i (bnMulRows r a b s i) (bnMulRows r a b s i b).n hx
    rw [bnMulRows]
    generalize bnMulRow r a b i (bnMulRows r a b s i) (bnMulRows r a b s i b).n = t at hrow ⊢
    dsimp only at hrow ⊢
    split
    · exact (Mem.setWord_of_ne _ _ _ hx).trans (hrow.trans ih)
    · exact hrow.trans ih

/-- Nothing but the result is written. -/
lemma bnMul_of_ne (s : Mem Loc) (r a b : Loc) (hx : x ≠ r) : bnMul s r a b x = s x :=
  (Mem.setN_of_ne _ _ hx).trans ((bnMulRows_of_ne _ _ _ _ _ hx).trans (clearWords_of_ne s _ hx))

/-- The first `m` words are 0. -/
def Zeroed (a : BN) (m : Nat) : Prop := ∀ k < m, a.w k = 0

lemma clearWords_zeroed (s : Mem Loc) (r : Loc) (m : Nat) : Zeroed (clearWords s r m r) m := by
  induction m with
  | zero => exact fun k hk => absurd hk (Nat.not_lt_zero k)
  | succ m ih =>
    intro k hk
    rw [clearWords, Mem.setWord_w]
    split
    · rfl
    · exact ih k (by omega)

/-- The inner loop after `j` rounds. -/
structure RowAt (s t : Mem Loc) (r a b : Loc) (i j c : Nat) : Prop where
  val : wordsVal (t r).w (i + j) + wordBase ^ (i + j) * c
            = wordsVal (s r).w (i + j) + wordBase ^ i * (((s a).w i).toNat * wordsVal (s b).w j)
  carry : c < wordBase
  frame : ∀ k, i + j ≤ k → (t r).w k = (s r).w k

/-- One row: the carry makes up the rest. -/
lemma bnMulRow_at {a : Loc} (ha : a ≠ r) (hb : b ≠ r) (s : Mem Loc) (i j : Nat) :
    RowAt s (bnMulRow r a b i s j).1 r a b i j (bnMulRow r a b i s j).2 := by
  induction j with
  | zero => exact ⟨rfl, wordBase_pos, fun _ _ => rfl⟩
  | succ j ih =>
    have hta := bnMulRow_of_ne r a b i s j ha
    have htb := bnMulRow_of_ne r a b i s j hb
    rw [bnMulRow]
    generalize bnMulRow r a b i s j = t at ih hta htb ⊢
    obtain ⟨t, c⟩ := t
    obtain ⟨hval, hcarry, hframe⟩ := ih
    dsimp only at hta htb hval hcarry hframe ⊢
    rw [hta, htb, hframe (i + j) (Nat.le_refl _)]
    have hla := ((s a).w i).toNat_lt
    have hlb := ((s b).w j).toNat_lt
    have hlr := ((s r).w (i + j)).toNat_lt
    refine ⟨?_, ?_, ?_⟩
    · generalize ((s a).w i).toNat = x at hval ⊢
      have hcarried := word_carry (x * ((s b).w j).toNat + ((s r).w (i + j)).toNat + c)
      rw [← Nat.add_assoc, wordsVal_setWord, wordsVal_succ (s r).w, wordsVal_succ (s b).w, pow_succ]
      calc _ = wordsVal (t r).w (i + j) + wordBase ^ (i + j) *
                ((UInt64.ofNat (x * ((s b).w j).toNat + ((s r).w (i + j)).toNat + c)).toNat
                  + wordBase * ((x * ((s b).w j).toNat + ((s r).w (i + j)).toNat + c) / wordBase)) := by ring
        _ = wordsVal (t r).w (i + j) + wordBase ^ (i + j) * c
              + wordBase ^ (i + j) * (x * ((s b).w j).toNat + ((s r).w (i + j)).toNat) := by
          rw [hcarried]
          ring
        _ = _ := by
          rw [hval, pow_add]
          ring
    · have hprod : ((s a).w i).toNat * ((s b).w j).toNat ≤ (wordBase - 1) * (wordBase - 1) :=
        Nat.mul_le_mul (by unfold wordBase; omega) (by unfold wordBase; omega)
      refine Nat.div_lt_of_lt_mul ?_
      unfold wordBase at *
      omega
    · intro k hk
      rw [Mem.setWord_w, if_neg (by omega)]
      exact hframe k (by omega)

/-- The outer loop after `i` rounds, for a result of which `m` words were cleared. -/
structure RowsAt (s t : Mem Loc) (r a b : Loc) (m i : Nat) : Prop where
  val : wordsVal (t r).w (i + (s b).n) = wordsVal (s a).w i * (s b).val
  zero : ∀ k, i + (s b).n ≤ k → k < m → (t r).w k = 0

/-- Each row adds the product by one more word. -/
lemma bnMulRows_at {a : Loc} (ha : a ≠ r) (hb : b ≠ r) {m : Nat} (hzero : Zeroed (s r) m)
    (hi : i + (s b).n ≤ m) : RowsAt s (bnMulRows r a b s i) r a b m i := by
  induction i with
  | zero =>
    refine ⟨?_, fun k _ hk => hzero k hk⟩
    rw [show wordsVal (s a).w 0 = 0 from rfl, Nat.zero_mul]
    exact wordsVal_zero (fun k hk => hzero k (Nat.lt_of_lt_of_le hk hi))
  | succ i ih =>
    obtain ⟨hval, htop⟩ := ih (by omega)
    have hta := bnMulRows_of_ne r a b s i ha
    have htb := bnMulRows_of_ne r a b s i hb
    have hrow := bnMulRow_at ha hb (bnMulRows r a b s i) i (s b).n
    have hrb := bnMulRow_of_ne r a b i (bnMulRows r a b s i) (s b).n hb
    have hclear : (bnMulRows r a b s i r).w (i + (s b).n) = 0 := htop _ (Nat.le_refl _) (by omega)
    rw [bnMulRows, htb]
    generalize bnMulRows r a b s i = t at *
    generalize bnMulRow r a b i t (s b).n = u at *
    obtain ⟨u, c⟩ := u
    obtain ⟨hu, hc, hframe⟩ := hrow
    dsimp only at hu hc hframe hrb ⊢
    have hword : (UInt64.ofNat c).toNat = c := by
      rw [UInt64.toNat_ofNat']
      exact Nat.mod_eq_of_lt hc
    have hplain : (u r).w (i + (s b).n) = 0 := (hframe _ (Nat.le_refl _)).trans hclear
    -- the carry goes into a word that is still 0
    have hnext : ∀ v : Mem Loc, (v r).w (i + (s b).n) = UInt64.ofNat c →
        (∀ k, k ≠ i + (s b).n → (v r).w k = (u r).w k) → RowsAt s v r a b m (i + 1) := by
      intro v hvc hv
      refine ⟨?_, ?_⟩
      · have hsame : wordsVal (v r).w (i + (s b).n) = wordsVal (u r).w (i + (s b).n) :=
          wordsVal_congr (fun k hk => hv k (Nat.ne_of_lt hk))
        have hb' : wordsVal (s b).w (s b).n = (s b).val := rfl
        rw [hta, htb, hb', hval] at hu
        rw [Nat.add_right_comm, wordsVal_succ, hvc, hword, hsame, hu, wordsVal_succ]
        ring
      · intro k hk hkm
        rw [hv k (by omega), hframe k (by omega)]
        exact htop k (by omega) hkm
    split
    · refine hnext _ ?_ ?_
      · rw [hrb, htb, Mem.setWord_w, if_pos rfl, hplain, UInt64.zero_add]
      · intro k hk
        rw [hrb, htb, Mem.setWord_w, if_neg hk]
    · next hzero' =>
      rw [not_not] at hzero'
      refine hnext _ ?_ (fun _ _ => rfl)
      rw [hplain, hzero']
      rfl

/-- Words above the product are left. -/
lemma bnMulRows_frame {a : Loc} (ha : a ≠ r) (hb : b ≠ r) (s : Mem Loc) (hk : i + (s b).n ≤ k) :
    (bnMulRows r a b s i r).w k = (s r).w k := by
  induction i with
  | zero => rfl
  | succ i ih =>
    have hrow := (bnMulRow_at ha hb (bnMulRows r a b s i) i (s b).n).frame k (by omega)
    have hn : ((bnMulRow r a b i (bnMulRows r a b s i) (s b).n).1 b).n = (s b).n := by
      rw [bnMulRow_of_ne _ _ _ _ _ _ hb, bnMulRows_of_ne _ _ _ _ _ hb]
    simp only [bnMulRows, bnMulRows_of_ne r a b s i hb]
    split
    · rw [hn, Mem.setWord_w, if_neg (by omega), hrow, ih (by omega)]
    · rw [hrow, ih (by omega)]

lemma clearWords_frame (s : Mem Loc) (r : Loc) {m : Nat} (hk : m ≤ k) : (clearWords s r m r).w k = (s r).w k := by
  induction m with
  | zero => rfl
  | succ m ih => rw [clearWords, Mem.setWord_w, if_neg (by omega), ih (by omega)]

/-- **A product is exact.** -/
theorem bnMul_val {a : Loc} (ha : a ≠ r) (hb : b ≠ r) (s : Mem Loc) :
    (bnMul s r a b r).val = (s a).val * (s b).val := by
  have hca := clearWords_of_ne s ((s a).n + (s b).n) ha
  have hcb := clearWords_of_ne s ((s a).n + (s b).n) hb
  have hrows := bnMulRows_at ha hb (clearWords_zeroed s r ((s a).n + (s b).n)) (i := (s a).n) (by rw [hcb])
  rw [bnMul, val_setN, wordsVal_trimWords, hca]
  have hval := hrows.val
  rw [hca, hcb] at hval
  exact hval

/-- **A product is exact and written where it belongs**, for arguments whose words fit the array of
the result, and in normal form if the arguments have a word. -/
theorem bnMul_exact {Loc : Type} [DecidableEq Loc] (s : Mem Loc) {r a b : Loc} (ha : a ≠ r) (hb : b ≠ r)
    (hfit : (s a).n + (s b).n ≤ bnMaxWords) :
    (bnMul s r a b r).val = (s a).val * (s b).val ∧ (bnMul s r a b r).n ≤ bnMaxWords ∧
    ((bnMul s r a b r).Normal ↔ 1 ≤ (s a).n + (s b).n) ∧ ((s a).n + (s b).n = 0 → (bnMul s r a b r).n = 0) ∧
    (∀ k, (s a).n + (s b).n ≤ k → (bnMul s r a b r).w k = (s r).w k) ∧ ∀ x, x ≠ r → bnMul s r a b x = s x := by
  have hn : (bnMul s r a b r).n ≤ (s a).n + (s b).n := by
    simp only [bnMul, Mem.setN, Mem.put_self]
    exact trimWords_le _ _
  refine ⟨bnMul_val ha hb s, hn.trans hfit, ⟨fun h => h.pos.trans hn, normal_setN _ _⟩,
    fun h => by omega, fun k hk => ?_,
    fun x hx => bnMul_of_ne s r a b hx⟩
  simp only [bnMul, Mem.setN, Mem.put_self]
  rw [clearWords_of_ne s _ ha, bnMulRows_frame ha hb _ (by rw [clearWords_of_ne s _ hb]; exact hk),
    clearWords_frame s r hk]

/-- Two numbers of two words, all of whose bits are set: every carry is taken. -/
theorem bnMul_exact_ones :
    (bnMulTo bnNull ⟨fun _ => 0xFFFFFFFFFFFFFFFF, 2⟩ ⟨fun _ => 0xFFFFFFFFFFFFFFFF, 2⟩).val = (2 ^ 128 - 1) ^ 2 ∧
    (bnMulTo bnNull ⟨fun _ => 0xFFFFFFFFFFFFFFFF, 2⟩ ⟨fun _ => 0xFFFFFFFFFFFFFFFF, 2⟩).Normal := by
  have h := bnMul_exact (args bnNull ⟨fun _ => 0xFFFFFFFFFFFFFFFF, 2⟩ ⟨fun _ => 0xFFFFFFFFFFFFFFFF, 2⟩)
    (show Arg.fst ≠ .out by decide) (show Arg.snd ≠ .out by decide) (by decide)
  exact ⟨h.1, h.2.2.1.mpr (by decide)⟩

theorem bnMul_no_words : (bnMulTo bnNull ⟨fun _ => 0, 0⟩ ⟨fun _ => 0, 0⟩).n = 0 := rfl

end

/-! ## The shift -/

/-- One word of the shift, and the bit that is lost. -/
lemma toNat_shift (x y : UInt64) :
    2 * ((x >>> 1) ||| (y <<< 63)).toNat + x.toNat % 2 = x.toNat + wordBase * (y.toNat % 2) := by
  have hor : ((x >>> 1) ||| (y <<< 63)).toNat = x.toNat / 2 + 2 ^ 63 * (y.toNat % 2) := by
    have hx : (x >>> 1).toNat = x.toNat / 2 := by
      rw [UInt64.toNat_shiftRight]
      exact Nat.shiftRight_eq_div_pow x.toNat 1
    have hy : (y <<< 63).toNat = 2 ^ 63 * (y.toNat % 2) := by
      rw [UInt64.toNat_shiftLeft]
      show y.toNat <<< 63 % 2 ^ 64 = _
      rw [Nat.shiftLeft_eq]
      omega
    have hlt : x.toNat / 2 < 2 ^ 63 := by
      have := x.toNat_lt
      omega
    rw [UInt64.toNat_or, hx, hy, Nat.or_comm, Nat.add_comm]
    exact (Nat.two_pow_add_eq_or_of_lt hlt _).symm
  rw [hor]
  unfold wordBase
  omega

/-- **The shift halves.** -/
theorem bnShr_val {e : BN} (he : 1 ≤ e.n) : (bnShr e).val = e.val / 2 := by
  obtain ⟨n, hn⟩ := Nat.exists_eq_add_of_le' he
  have hword : ∀ i, (bnShr e).w i = if i + 1 < e.n then (e.w i >>> 1) ||| (e.w (i + 1) <<< 63)
      else if i + 1 = e.n then e.w i >>> 1 else e.w i := fun _ => rfl
  have hlow : ∀ k ≤ n, 2 * wordsVal (bnShr e).w k + (e.w 0).toNat % 2
      = wordsVal e.w k + wordBase ^ k * ((e.w k).toNat % 2) := by
    intro k
    induction k with
    | zero => exact fun _ => (Nat.zero_add _).trans ((Nat.one_mul _).symm.trans (Nat.zero_add _).symm)
    | succ k ih =>
      intro hk
      have ih := ih (by omega)
      rw [wordsVal_succ, wordsVal_succ, hword, if_pos (by omega)]
      generalize hx : ((e.w k >>> 1) ||| (e.w (k + 1) <<< 63)).toNat = x
      have hshift := toNat_shift (e.w k) (e.w (k + 1))
      rw [hx] at hshift
      calc 2 * (wordsVal (bnShr e).w k + wordBase ^ k * x) + (e.w 0).toNat % 2
          = 2 * wordsVal (bnShr e).w k + (e.w 0).toNat % 2 + wordBase ^ k * (2 * x) := by ring
        _ = wordsVal e.w k + wordBase ^ k * (2 * x + (e.w k).toNat % 2) := by rw [ih]; ring
        _ = _ := by rw [hshift]; ring
  have htop : (bnShr e).w n = e.w n >>> 1 := by rw [hword, if_neg (by omega), if_pos (by omega)]
  have hhalf : (e.w n >>> 1).toNat = (e.w n).toNat / 2 := by
    rw [UInt64.toNat_shiftRight]
    exact Nat.shiftRight_eq_div_pow (e.w n).toNat 1
  have hval : (bnShr e).val = wordsVal (bnShr e).w (n + 1) := by
    rw [← hn]
    exact wordsVal_trimWords _ _
  have heval : e.val = wordsVal e.w (n + 1) := by
    rw [← hn]
    rfl
  rw [hval, heval, wordsVal_succ, wordsVal_succ, htop, hhalf]
  have hlast := hlow n (Nat.le_refl n)
  have hmod := congrArg (wordBase ^ n * ·) (Nat.mod_add_div (e.w n).toNat 2)
  simp only [mul_add, mul_left_comm _ 2] at hmod
  omega

lemma bnShr_normal {e : BN} (he : 1 ≤ e.n) : (bnShr e).Normal := by
  have hval : (bnShr e).val = wordsVal (bnShr e).w e.n := wordsVal_trimWords _ _
  rw [BN.Normal, hval]
  exact trimWords_eq _ he

lemma BN.val_mod_two (h : 1 ≤ a.n) : a.val % 2 = (a.w 0).toNat % 2 := by
  have hlow := a.val_digit 0
  rw [pow_zero, Nat.div_one, if_pos (show 0 < a.n from h)] at hlow
  rw [← hlow, Nat.mod_mod_of_dvd _ (by decide)]

/-! ## Calls with distinct arguments -/

lemma bnAddTo_val (old a b : BN) : (bnAddTo old a b).val = a.val + b.val := bnAdd_val _ _ _ _

lemma bnMulTo_val (old a b : BN) : (bnMulTo old a b).val = a.val * b.val := bnMul_val (by decide) (by decide) _

lemma bnSubTo_val (old a b : BN) : ((bnSubTo old a b).val : Int) = (a.val - b.val) % (wordBase ^ a.n : Nat) :=
  bnSub_val Arg.fst (show Arg.snd ≠ Arg.out by decide) (args old a b)

lemma bnSubTo_of_le (old : BN) {b : BN} (h : b.val ≤ a.val) : (bnSubTo old a b).val = a.val - b.val :=
  bnSub_of_le (s := args old a b) Arg.fst (show Arg.snd ≠ Arg.out by decide) h

lemma bnSubTo_normal (old b : BN) (h : 1 ≤ a.n) : (bnSubTo old a b).Normal :=
  bnSub_normal (s := args old a b) (a := Arg.fst) Arg.snd h

lemma bnSubFrom_of_le {b : BN} (h : b.val ≤ a.val) : (bnSubFrom a b).val = a.val - b.val :=
  bnSub_of_le (s := args a a b) Arg.out (show Arg.snd ≠ Arg.out by decide) h

lemma bnNull_val : bnNull.val = 0 := rfl

lemma bnOne_val : bnOne.val = 1 := val_of_one_word rfl

lemma bnSetU64_val (v : UInt64) : (bnSetU64 v).val = v.toNat := val_of_one_word rfl

lemma BN.val_copy (old a : BN) : (old.copy a).val = a.val := wordsVal_congr (fun _ hi => if_pos hi)

end PigOS.Crypto
