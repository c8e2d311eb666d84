import PigOS.Crypto.Correctness.Residues
import PigOS.Lib.Euclid

/-!
# `Crypto.Correctness.Inverses` — when does `bn_modinv` find the inverse?

`bn_modinv` is the extended Euclidean algorithm, with two ways to divide. `bn_mod` gives the
remainder and no quotient, so that the coefficient is lost. The quotient by a single word is right
for a dividend of two words, and for a longer one only if the divisor divides what is neglected
(`QuotientExact`). The coefficients are single words; a negative one is stored modulo `2^64`, and
the correction by `m` is never made.

For a single word `a` the coefficients are those of Euclid's algorithm modulo `2^64` (`Tracks`): the
inverse is found if it is a single word in the lower half of the residues, or the modulus is `2^64`.
-/

namespace PigOS.Crypto

variable {a m : BN} {s : ModinvState}

/-! ## The quotient -/

/-- Dividing by `d`, what is left of each word above the second does not reach the next lower
one. -/
def QuotientExact (d : Nat) (a : BN) : Prop := ∀ i, 2 ≤ i → i < a.n → d ∣ wordBase * (a.w i).toNat

lemma quotientExact_of_lt (h : a.val < wordBase ^ 2) (d : Nat) : QuotientExact d a := by
  intro i hi hin
  have hdigit := a.val_digit i
  rw [if_pos hin, Nat.div_eq_of_lt (Nat.lt_of_lt_of_le h (Nat.pow_le_pow_right wordBase_pos hi)),
    Nat.zero_mod] at hdigit
  rw [← hdigit]
  exact dvd_zero d

/-- Only what is left of the upper word counts, since the rest does not fit the quotient's word. -/
lemma toNat_quotientWord {x y d : Nat} (hd : 0 < d) (hy : y < wordBase) :
    (UInt64.ofNat ((x * wordBase + y) / d)).toNat = (x % d * wordBase + y) / d := by
  have hsplit : x * wordBase + y = x % d * wordBase + y + d * (x / d * wordBase) := by
    conv_lhs => rw [← Nat.mod_add_div x d]
    ring
  have hlt : (x % d * wordBase + y) / d < wordBase := by
    refine Nat.div_lt_of_lt_mul ?_
    have hmul := Nat.mul_le_mul_right wordBase (Nat.mod_lt x hd)
    rw [Nat.succ_mul] at hmul
    omega
  rw [UInt64.toNat_ofNat', hsplit, Nat.add_mul_div_left _ _ hd]
  show ((x % d * wordBase + y) / d + x / d * wordBase) % wordBase = _
  rw [Nat.add_mul_mod_self_right, Nat.mod_eq_of_lt hlt]

lemma bnQuotient_w (d : UInt64) {i : Nat} (hd : 0 < d.toNat) (hi : i < a.n) :
    ((bnQuotient a d).w i).toNat = ((a.word (i + 1)).toNat % d.toNat * wordBase + (a.word i).toNat) / d.toNat := by
  show (if i < a.n then _ else _ : UInt64).toNat = _
  rw [if_pos hi, toNat_quotientWord hd (a.w i).toNat_lt, show a.word i = a.w i from if_pos hi]

/-- **The quotient by a single word.** -/
theorem bnQuotient_val {d : UInt64} (hd : 0 < d.toNat) (hn : 1 ≤ a.n) (h : QuotientExact d.toNat a) :
    (bnQuotient a d).val = a.val / d.toNat := by
  -- the words below `k`, with what is left of the word above them
  have hlow : ∀ k, 1 ≤ k → k ≤ a.n →
      wordsVal a.word k + wordBase ^ k * ((a.word k).toNat % d.toNat) =
        d.toNat * wordsVal (bnQuotient a d).w k
          + ((a.word 1).toNat % d.toNat * wordBase + (a.word 0).toNat) % d.toNat := by
    intro k hk
    induction k, hk using Nat.le_induction with
    | base =>
      intro hle
      have hdiv := Nat.div_add_mod ((a.word 1).toNat % d.toNat * wordBase + (a.word 0).toNat) d.toNat
      rw [wordsVal_succ, wordsVal_succ, bnQuotient_w d hd hle]
      show 0 + wordBase ^ 0 * _ + wordBase ^ 1 * _ = d.toNat * (0 + wordBase ^ 0 * _) + _
      rw [pow_zero, pow_one, one_mul, one_mul, zero_add, zero_add, hdiv]
      ring
    | succ k hk ih =>
      intro hle
      have hkn : k < a.n := by omega
      have hleft : d.toNat ∣ (a.word (k + 1)).toNat % d.toNat * wordBase := by
        rw [Nat.dvd_iff_mod_eq_zero, Nat.mod_mul_mod, ← Nat.dvd_iff_mod_eq_zero, mul_comm]
        by_cases hlt : k + 1 < a.n
        · rw [show a.word (k + 1) = a.w (k + 1) from if_pos hlt]
          exact h (k + 1) (by omega) hlt
        · rw [show a.word (k + 1) = 0 from if_neg hlt]
          exact dvd_zero _
      have hdiv := Nat.div_add_mod ((a.word (k + 1)).toNat % d.toNat * wordBase + (a.word k).toNat) d.toNat
      rw [Nat.add_mod, Nat.mod_eq_zero_of_dvd hleft, zero_add, Nat.mod_mod] at hdiv
      have ih := ih (by omega)
      rw [wordsVal_succ, wordsVal_succ, bnQuotient_w d hd hkn, pow_succ]
      generalize (a.word (k + 1)).toNat % d.toNat = x at hdiv ⊢
      generalize (x * wordBase + (a.word k).toNat) / d.toNat = q at hdiv ⊢
      calc wordsVal a.word k + wordBase ^ k * (a.word k).toNat + wordBase ^ k * wordBase * x
          = wordsVal a.word k + wordBase ^ k * (x * wordBase + (a.word k).toNat) := by ring
        _ = wordsVal a.word k + wordBase ^ k * ((a.word k).toNat % d.toNat) + wordBase ^ k * (d.toNat * q) := by
            rw [← hdiv]
            ring
        _ = _ := by
            rw [ih]
            ring
  have hall := hlow a.n hn (Nat.le_refl _)
  rw [wordsVal_word a (Nat.le_refl _), show a.word a.n = 0 from if_neg (Nat.lt_irrefl _),
    UInt64.toNat_zero, Nat.zero_mod,
    mul_zero, add_zero] at hall
  have hval : (bnQuotient a d).val = wordsVal (bnQuotient a d).w a.n := rfl
  rw [hval, hall, Nat.mul_add_div hd, Nat.div_eq_of_lt (Nat.mod_lt _ hd), add_zero]

/-! ## The remainders -/

/-- The next division is exact. -/
def DividesExactly (s : ModinvState) : Prop := s.r1.n = 1 → QuotientExact s.r1.val s.r0

lemma modinvStep_r0 (mod : BN → BN → BN) (s : ModinvState) : (modinvStep mod s).r0 = s.r1 := by
  unfold modinvStep
  split <;> rfl

lemma modinvStep_t0 (mod : BN → BN → BN) (s : ModinvState) : (modinvStep mod s).t0 = s.t1 := by
  unfold modinvStep
  split <;> rfl

section
variable {mod : BN → BN → BN} (hmod : ModExact mod)
include hmod

lemma modinvStep_r1 (hr : s.r1.val ≠ 0) (hlt : s.r1.val < s.r0.val) (hdiv : DividesExactly s) :
    (modinvStep mod s).r1.val = s.r0.val % s.r1.val ∧ (modinvStep mod s).r1.Normal := by
  have hn : 1 ≤ s.r0.n := one_le_n_of_val (by omega)
  unfold modinvStep
  split
  · next hword =>
    have hval : s.r1.val = (s.r1.w 0).toNat := val_of_one_word hword.1
    have hexact := hdiv hword.1
    rw [hval] at hexact hr
    have hprod : (bnMulTo bnNull (bnQuotient s.r0 (s.r1.w 0)) s.r1).val = s.r1.val * (s.r0.val / s.r1.val) := by
      rw [bnMulTo_val, bnQuotient_val (Nat.pos_of_ne_zero hr) hn hexact, hval, mul_comm]
    have hsplit := Nat.mod_add_div s.r0.val s.r1.val
    refine ⟨?_, bnSubTo_normal _ _ hn⟩
    rw [bnSubTo_of_le bnNull (by rw [hprod]; omega), hprod]
    omega
  · exact ⟨hmod.val _ _ (Nat.pos_of_ne_zero hr), hmod.normal _ _ (Nat.pos_of_ne_zero hr)⟩

/-- **The loop ends with the greatest common divisor**, for every invariant under which the
divisions are exact. -/
theorem modinvLoop_gcd {I : ModinvState → Prop} (hexact : ∀ s, I s → s.r1.val ≠ 0 → DividesExactly s)
    (hstep : ∀ s, I s → s.r1.val ≠ 0 → s.r1.val < s.r0.val → I (modinvStep mod s)) (hI : I s)
    (hlt : s.r1.val < s.r0.val) (hnorm : s.r1.val ≠ 0 ∨ s.r1.Normal) :
    ∃ rounds s', modinvLoop mod rounds s = some s' ∧ I s' ∧ s'.r1.val = 0 ∧
      s'.r0.val = Nat.gcd s.r0.val s.r1.val := by
  induction hr : s.r1.val using Nat.strong_induction_on generalizing s with
  | _ v ih =>
    by_cases hzero : s.r1.val = 0
    · have hnorm := hnorm.resolve_left (not_not.mpr hzero)
      refine ⟨1, s, ?_, hI, hzero, ?_⟩
      · rw [modinvLoop, if_pos ((bnIsZero_iff hnorm).mpr hzero)]
      · rw [← hr, hzero, Nat.gcd_zero_right]
    · obtain ⟨hval, hnormal⟩ := modinvStep_r1 hmod hzero hlt (hexact s hI hzero)
      have hless : (modinvStep mod s).r1.val < s.r1.val := by
        rw [hval]
        exact Nat.mod_lt _ (Nat.pos_of_ne_zero hzero)
      obtain ⟨rounds, s', hloop, hI', hend, hgcd⟩ := ih _ (hr ▸ hless) (hstep s hI hzero hlt)
        (by rw [modinvStep_r0]; exact hless) (.inr hnormal) rfl
      refine ⟨rounds + 1, s', ?_, hI', hend, ?_⟩
      · rw [modinvLoop, if_neg (fun h => hzero (val_of_bnIsZero h)), hloop]
      · rw [hgcd, modinvStep_r0, hval, ← hr, Nat.gcd_comm, ← Nat.gcd_rec, Nat.gcd_comm]

end

/-! ## The result -/

variable {mod : BN → BN → BN} {rounds : Nat}

lemma modinvLoop_unique {k k' : Nat} {s₁ s₂ : ModinvState} (h₁ : modinvLoop mod k s = some s₁)
    (h₂ : modinvLoop mod k' s = some s₂) : s₁ = s₂ := by
  induction k generalizing k' s with
  | zero => exact nomatch h₁
  | succ k ih =>
    cases k' with
    | zero => exact nomatch h₂
    | succ k' =>
      rw [modinvLoop] at h₁ h₂
      split at h₁
      · next hzero =>
        rw [if_pos hzero] at h₂
        exact (Option.some.inj h₁).symm.trans (Option.some.inj h₂)
      · next hzero =>
        rw [if_neg hzero] at h₂
        exact ih h₁ h₂

/-- `bn_modinv` ends; it returns 1 and the inverse for coprime numbers, and 0 for others. -/
def ModinvRight (mod : BN → BN → BN) (a m : BN) : Prop :=
  ∀ r, ∃ rounds ok c, bnModinv mod rounds r a m = some (ok, c) ∧
    (a.val.Coprime m.val → ok = true ∧ c.val < m.val ∧ a.val * c.val ≡ 1 [MOD m.val]) ∧
    (¬a.val.Coprime m.val → ok = false)

lemma bnModinv_of_loop
    (h : modinvLoop mod rounds ⟨bnNull, bnOne, m, a⟩ = some s) (r : BN) :
    bnModinv mod rounds r a m = some (if s.r0.val = 1 then (true, r.copy s.t0) else (false, r)) := by
  have hnonneg : ¬bnCmp s.t0 bnNull < 0 := by
    rw [bnCmp_neg_iff, bnNull_val]
    exact Nat.not_lt_zero _
  rw [bnModinv, h, Option.map_some, if_neg hnonneg]
  by_cases hone : s.r0.val = 1
  · rw [if_pos hone, if_neg (not_not.mpr (bnCmp_zero_iff.mpr (hone.trans bnOne_val.symm)))]
  · rw [if_neg hone, if_pos (fun h => hone ((bnCmp_zero_iff.mp h).trans bnOne_val))]

/-- A loop that ends with the greatest common divisor: what is left to ask is the coefficient. -/
lemma modinvRight_iff
    (h : modinvLoop mod rounds ⟨bnNull, bnOne, m, a⟩ = some s) (hgcd : s.r0.val = Nat.gcd m.val a.val) :
    ModinvRight mod a m ↔
      (a.val.Coprime m.val → s.t0.val < m.val ∧ a.val * s.t0.val ≡ 1 [MOD m.val]) := by
  have hone : s.r0.val = 1 ↔ a.val.Coprime m.val := by
    rw [hgcd, Nat.gcd_comm, Nat.coprime_iff_gcd_eq_one]
  constructor
  · intro hright hco
    obtain ⟨rounds', ok, c, hres, hinv, -⟩ := hright bnNull
    obtain ⟨s', hs', -⟩ := Option.map_eq_some_iff.mp hres
    obtain rfl := modinvLoop_unique h hs'
    rw [bnModinv_of_loop hs' bnNull, if_pos (hone.mpr hco)] at hres
    obtain ⟨-, rfl⟩ := Prod.mk.inj (Option.some.inj hres)
    rw [BN.val_copy] at hinv
    exact (hinv hco).2
  · intro hcoeff r
    by_cases hco : a.val.Coprime m.val
    · refine ⟨rounds, true, r.copy s.t0, ?_, fun _ => ⟨rfl, ?_⟩, fun hnot => absurd hco hnot⟩
      · rw [bnModinv_of_loop h, if_pos (hone.mpr hco)]
      · rw [BN.val_copy]
        exact hcoeff hco
    · refine ⟨rounds, false, r, ?_, fun h => absurd h hco, fun _ => rfl⟩
      rw [bnModinv_of_loop h, if_neg (fun h => hco (hone.mp h))]

/-! ## A single word -/

/-- The loop follows Euclid's algorithm, with the coefficients modulo `2^64`. -/
structure Tracks (s : ModinvState) (e : Euclid.State) : Prop where
  r₀ : s.r0.val = e.r0
  r₁ : s.r1.val = e.r1
  word : s.r1.n = 1
  exactly : QuotientExact s.r1.val s.r0
  word₀ : s.t0.n = 1
  word₁ : s.t1.n = 1
  t₀ : (s.t0.val : Int) ≡ e.t0 [ZMOD wordBase]
  t₁ : (s.t1.val : Int) ≡ e.t1 [ZMOD wordBase]

lemma Tracks.step (hmod : ModExact mod) {e : Euclid.State} (h : Tracks s e)
    (hr : s.r1.val ≠ 0) (hlt : s.r1.val < s.r0.val) : Tracks (modinvStep mod s) (Euclid.step e) := by
  obtain ⟨hrem, hnormal⟩ := modinvStep_r1 hmod hr hlt (fun _ => h.exactly)
  have hval : s.r1.val = (s.r1.w 0).toNat := val_of_one_word h.word
  have hpos : 0 < (s.r1.w 0).toNat := hval ▸ Nat.pos_of_ne_zero hr
  have hquot : (bnQuotient s.r0 (s.r1.w 0)).val = e.r0 / e.r1 := by
    rw [bnQuotient_val hpos (one_le_n_of_val (by omega)) (hval ▸ h.exactly), ← hval, h.r₀, h.r₁]
  have ht₁ : (modinvStep mod s).t1 = bnSubTo bnNull s.t0 (bnMulTo bnNull (bnQuotient s.r0 (s.r1.w 0)) s.t1) := by
    rw [modinvStep, if_pos ⟨h.word, UInt64.lt_iff_toNat_lt.mpr hpos⟩]
  have hcoeff : ((modinvStep mod s).t1.val : Int) = (s.t0.val - (e.r0 / e.r1 : Nat) * s.t1.val) % (wordBase : Int) := by
    rw [ht₁, bnSubTo_val, bnMulTo_val, hquot, h.word₀, pow_one, Nat.cast_mul]
  have hsmall : (modinvStep mod s).t1.val < wordBase := by
    have hbase : (0 : Int) < wordBase := by decide
    have hlt := Int.emod_lt_of_pos ((s.t0.val : Int) - (e.r0 / e.r1 : Nat) * s.t1.val) hbase
    rw [← hcoeff] at hlt
    exact_mod_cast hlt
  refine ⟨?_, ?_, ?_, ?_, ?_, ?_, ?_, ?_⟩
  · rw [modinvStep_r0, h.r₁]
    rfl
  · rw [hrem, h.r₀, h.r₁]
    rfl
  · refine hnormal.one_word ?_
    rw [hrem]
    exact Nat.lt_trans (Nat.mod_lt _ (Nat.pos_of_ne_zero hr)) (hval ▸ (s.r1.w 0).toNat_lt)
  · rw [modinvStep_r0]
    intro i hi hin
    have := h.word
    omega
  · rw [modinvStep_t0]
    exact h.word₁
  · have hnorm : (modinvStep mod s).t1.Normal := ht₁ ▸ bnSubTo_normal _ _ (h.word₀ ▸ Nat.le_refl 1)
    exact hnorm.one_word hsmall
  · rw [modinvStep_t0]
    exact h.t₁
  · rw [hcoeff]
    exact (Int.mod_modEq _ _).trans (h.t₀.sub (h.t₁.mul_left _))

lemma tracks_start (hword : a.n = 1) (hexact : QuotientExact a.val m) :
    Tracks ⟨bnNull, bnOne, m, a⟩ (Euclid.start a.val m.val) where
  r₀ := rfl
  r₁ := rfl
  word := hword
  exactly := hexact
  word₀ := rfl
  word₁ := rfl
  t₀ := Int.ModEq.refl _
  t₁ := by
    rw [bnOne_val]
    exact Int.ModEq.refl _

/-- The inverse is a single word and in the lower half of the residues; or the modulus is `2^64`. -/
def SmallInverse (a m : Nat) : Prop := ∃ x, a * x ≡ 1 [MOD m] ∧ x < wordBase ∧ (2 * x ≤ m ∨ m = wordBase)

lemma modinvRight_word_iff (hmod : ModExact mod) (ha : 0 < a.val) (ham : a.val < m.val)
    (hword : a.n = 1) (hexact : QuotientExact a.val m) :
    ModinvRight mod a m ↔ (a.val.Coprime m.val → SmallInverse a.val m.val) := by
  obtain ⟨rounds, s, hloop, ⟨e, htracks, hinv⟩, hend, hgcd⟩ := modinvLoop_gcd hmod
    (I := fun s => ∃ e, Tracks s e ∧ Euclid.Inv a.val m.val e)
    (fun s ⟨e, htracks, _⟩ _ _ => htracks.exactly)
    (fun s ⟨e, htracks, hinv⟩ hr hlt => ⟨_, htracks.step hmod hr hlt, hinv.step (htracks.r₁ ▸ hr)⟩)
    (s := ⟨bnNull, bnOne, m, a⟩) ⟨_, tracks_start hword hexact, Euclid.inv_start ha ham⟩ ham (.inl (Nat.ne_of_gt ha))
  rw [modinvRight_iff hloop hgcd]
  refine imp_congr_right (fun hco => ?_)
  have hsmall : s.t0.val < wordBase := by
    rw [val_of_one_word htracks.word₀]
    exact (s.t0.w 0).toNat_lt
  have hco : Nat.gcd m.val a.val = 1 := Nat.Coprime.symm hco
  exact hinv.wrapped_iff (htracks.r₁ ▸ hend) hco (by omega) hsmall htracks.t₀

/-! ## More than one word -/

section
variable (hmod : ModExact mod) (ha : 0 < a.val) (hwords : a.n ≠ 1)
include ha hwords

/-- The first division is one by `bn_mod`. -/
lemma modinvLoop_words (rounds : Nat) : modinvLoop mod (rounds + 1) ⟨bnNull, bnOne, m, a⟩ =
    modinvLoop mod rounds ⟨bnOne, bnNull, a, mod m a⟩ := by
  rw [modinvLoop, if_neg (fun h => Nat.ne_of_gt ha (val_of_bnIsZero h)), modinvStep, if_neg (fun h => hwords h.1)]

include hmod

/-- `a` divides `m`: it is the greatest common divisor, and its coefficient is 1. -/
lemma modinvRight_of_dvd (ham : a.val < m.val) (hdvd : a.val ∣ m.val) : ModinvRight mod a m := by
  have hzero : bnIsZero (mod m a) = true := by
    rw [bnIsZero_iff (hmod.normal m a ha), hmod.val m a ha]
    exact Nat.mod_eq_zero_of_dvd hdvd
  have hloop : modinvLoop mod 2 ⟨bnNull, bnOne, m, a⟩ = some ⟨bnOne, bnNull, a, mod m a⟩ := by
    rw [modinvLoop_words ha hwords, modinvLoop, if_pos hzero]
  have hgcd : Nat.gcd m.val a.val = a.val := Nat.gcd_eq_right hdvd
  refine (modinvRight_iff hloop hgcd.symm).mpr (fun hco => ?_)
  have hone : a.val = 1 := hgcd.symm.trans (Nat.Coprime.symm hco)
  rw [bnOne_val, hone]
  exact ⟨by omega, Nat.ModEq.refl 1⟩

/-- Behind the first division every remainder has two words at least, or no dividend has more. -/
lemma modinvLoop_words_gcd (hsize : wordBase ≤ Nat.gcd m.val a.val ∨ a.val < wordBase ^ 2) :
    ∃ rounds s, modinvLoop mod rounds ⟨bnNull, bnOne, m, a⟩ = some s ∧ s.r0.val = Nat.gcd m.val a.val := by
  have hval : (mod m a).val = m.val % a.val := hmod.val m a ha
  have hlt : (mod m a).val < a.val := hval ▸ Nat.mod_lt _ ha
  have hgcd : Nat.gcd a.val (mod m a).val = Nat.gcd m.val a.val := by
    rw [hval, Nat.gcd_comm, ← Nat.gcd_rec, Nat.gcd_comm]
  have hdiv : ∀ s : ModinvState, wordBase ≤ Nat.gcd s.r0.val s.r1.val ∨ s.r0.val < wordBase ^ 2 → s.r1.val ≠ 0 →
      DividesExactly s := by
    rintro s (hlarge | hshort) hr hword
    · have hle := Nat.gcd_le_right s.r0.val (Nat.pos_of_ne_zero hr)
      have hone : s.r1.val < wordBase := val_of_one_word hword ▸ (s.r1.w 0).toNat_lt
      omega
    · exact quotientExact_of_lt hshort _
  obtain ⟨rounds, s, hloop, -, -, hend⟩ := modinvLoop_gcd hmod
    (I := fun s => wordBase ≤ Nat.gcd s.r0.val s.r1.val ∨ s.r0.val < wordBase ^ 2) hdiv
    (fun s hI hr hlt => by
      rw [modinvStep_r0, (modinvStep_r1 hmod hr hlt (hdiv s hI hr)).1, Nat.gcd_comm, ← Nat.gcd_rec, Nat.gcd_comm]
      exact hI.imp_right hlt.trans)
    (s := ⟨bnOne, bnNull, a, mod m a⟩) (hgcd ▸ hsize) hlt (.inr (hmod.normal m a ha))
  exact ⟨rounds + 1, s, (modinvLoop_words ha hwords rounds).trans hloop, hend.trans hgcd⟩

end

/-- A condition under which the result is right. For more than one word the coefficient is lost,
unless the common divisor is found at once. -/
def ModinvWorks (a m : BN) : Prop :=
  (a.n = 1 ∧ QuotientExact a.val m ∧ (a.val.Coprime m.val → SmallInverse a.val m.val)) ∨
  (a.n ≠ 1 ∧ (a.val ∣ m.val ∨
    ¬a.val.Coprime m.val ∧ (wordBase ≤ Nat.gcd m.val a.val ∨ a.val < wordBase ^ 2)))

end PigOS.Crypto
