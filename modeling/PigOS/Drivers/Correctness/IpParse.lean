import PigOS.Drivers.Network

/-!
# `Drivers.Correctness.IpParse` — which strings `ip_parse` accepts

`ip_parse` gives every dotted quad its address. It accepts more than quads, though: numbers may be
missing or too large, and nothing behind a fourth dot is read.
-/

namespace PigOS.Drivers

open Kernel List

variable {c : CChar} {f s : CStr} {n : Nat}

/-! ## Dotted quads -/

def isDigit (c : CChar) : Prop := 0x30 ≤ c.val ∧ c.val ≤ 0x39

def isDot (c : CChar) : Prop := c.val = 0x2E

instance (c : CChar) : Decidable (isDigit c) := inferInstanceAs (Decidable (_ ∧ _))

instance (c : CChar) : Decidable (isDot c) := inferInstanceAs (Decidable (_ = _))

def number (f : CStr) : Nat := f.foldl (fun n c => n * 10 + (c.val.toNat - 0x30)) 0

/-- The decimal number `n`, at most 255. -/
structure Octet (f : CStr) (n : Nat) : Prop where
  ne : f ≠ []
  digits : ∀ c ∈ f, isDigit c
  value : number f = n
  le : n ≤ 255

def Quad (s : CStr) (a b c d : Nat) : Prop :=
  ∃ fa fb fc fd, s = fa ++ chr '.' :: (fb ++ chr '.' :: (fc ++ chr '.' :: fd)) ∧
    Octet fa a ∧ Octet fb b ∧ Octet fc c ∧ Octet fd d

/-- The address with these bytes, from the least significant one. -/
def addrOf (a b c d : Nat) : UInt32 := UInt32.ofNat (a + 256 * b + 65536 * c + 16777216 * d)

/-- The parse is right: quads have their address, and other strings have none. -/
structure Exact (s : CStr) : Prop where
  quad : ∀ a b c d, Quad s a b c d → ipParse s = some (addrOf a b c d)
  other : (¬ ∃ a b c d, Quad s a b c d) → ipParse s = none

/-! ## The loop -/

section Loop

variable {v : Nat → UInt32} {vi : Nat} {cur : UInt32}

/-- Digits go into the number. -/
def accumulate (f : CStr) (cur : UInt32) : UInt32 := f.foldl (fun n c => n * 10 + (c.val - 0x30).toUInt32) cur

lemma not_isDot_of_isDigit (h : isDigit c) : ¬ c.val = 0x2E := by
  intro hdot
  rw [isDigit, hdot] at h
  exact absurd h.1 (by decide)

lemma ipLoop_digits (hf : ∀ c ∈ f, isDigit c) (hvi : vi < 4) (rest : CStr) :
    ipLoop (f ++ rest) v vi cur = ipLoop rest v vi (accumulate f cur) := by
  induction f generalizing cur with
  | nil => rfl
  | cons c f ih =>
    obtain ⟨hc, hf⟩ := forall_mem_cons.mp hf
    rw [cons_append, ipLoop, if_neg (by omega), if_neg (not_isDot_of_isDigit hc), if_pos ⟨hc.1, hc.2⟩, ih hf]
    rfl

lemma ipLoop_dot (hvi : vi < 4) (rest : CStr) :
    ipLoop (chr '.' :: rest) v vi cur = ipLoop rest (Function.update v vi cur) (vi + 1) 0 := by
  rw [ipLoop, if_neg (by omega), if_pos (by decide)]

lemma toNat_digit (h : isDigit c) : (c.val - 0x30).toUInt32 = UInt32.ofNat (c.val.toNat - 0x30) := by
  rw [← UInt32.toNat_inj, UInt8.toNat_toUInt32, UInt8.toNat_sub_of_le _ _ h.1, UInt32.toNat_ofNat_of_lt']
  · rfl
  · have := c.val.toNat_lt
    show _ < 4294967296
    omega

lemma accumulate_eq (hf : ∀ c ∈ f, isDigit c) (n : Nat) :
    accumulate f (UInt32.ofNat n) = UInt32.ofNat (f.foldl (fun n c => n * 10 + (c.val.toNat - 0x30)) n) := by
  induction f generalizing n with
  | nil => rfl
  | cons c f ih =>
    obtain ⟨hc, hf⟩ := forall_mem_cons.mp hf
    have hstep : UInt32.ofNat n * 10 + (c.val - 0x30).toUInt32 = UInt32.ofNat (n * 10 + (c.val.toNat - 0x30)) := by
      rw [toNat_digit hc, UInt32.ofNat_add, UInt32.ofNat_mul]
      rfl
    show accumulate f (UInt32.ofNat n * 10 + (c.val - 0x30).toUInt32) = _
    rw [hstep, ih hf]
    rfl

lemma Octet.accumulate (h : Octet f n) : Drivers.accumulate f 0 = UInt32.ofNat n := by
  rw [← h.value]
  exact accumulate_eq h.digits 0

end Loop

/-! ## Quads -/

lemma shl_ofNat {k : Nat} (hk : k < 32) (h : 2 ^ k * n < 2 ^ 32) :
    UInt32.ofNat n <<< UInt32.ofNat k = UInt32.ofNat (2 ^ k * n) := by
  have hn : n < 2 ^ 32 := lt_of_le_of_lt (Nat.le_mul_of_pos_left n (Nat.two_pow_pos k)) h
  rw [← UInt32.toNat_inj, UInt32.toNat_shiftLeft, UInt32.toNat_ofNat_of_lt' hn,
    UInt32.toNat_ofNat_of_lt' (by show _ < 4294967296; omega),
    UInt32.toNat_ofNat_of_lt' h, Nat.mod_eq_of_lt hk, Nat.shiftLeft_eq, Nat.mul_comm, Nat.mod_eq_of_lt h]

lemma or_ofNat {m y k : Nat} (hy : y < 2 ^ k) (h : 2 ^ k * m + y < 2 ^ 32) :
    UInt32.ofNat (2 ^ k * m) ||| UInt32.ofNat y = UInt32.ofNat (2 ^ k * m + y) := by
  have hm : 2 ^ k * m < 2 ^ 32 := by omega
  have hy' : y < 2 ^ 32 := by omega
  rw [← UInt32.toNat_inj, UInt32.toNat_or, UInt32.toNat_ofNat_of_lt' hm,
    UInt32.toNat_ofNat_of_lt' hy', UInt32.toNat_ofNat_of_lt' h,
    Nat.two_pow_add_eq_or_of_lt hy]

lemma joinBytes {a b c d : Nat} (ha : a ≤ 255) (hb : b ≤ 255) (hc : c ≤ 255) (hd : d ≤ 255) :
    (UInt32.ofNat d <<< 24) ||| (UInt32.ofNat c <<< 16) ||| (UInt32.ofNat b <<< 8) |||
      UInt32.ofNat a = addrOf a b c d := by
  have h24 : UInt32.ofNat d <<< 24 = UInt32.ofNat (2 ^ 24 * d) := shl_ofNat (k := 24) (by decide) (by omega)
  have h16 : UInt32.ofNat c <<< 16 = UInt32.ofNat (2 ^ 16 * c) := shl_ofNat (k := 16) (by decide) (by omega)
  have h8 : UInt32.ofNat b <<< 8 = UInt32.ofNat (2 ^ 8 * b) := shl_ofNat (k := 8) (by decide) (by omega)
  have hdc : 2 ^ 24 * d + 2 ^ 16 * c = 2 ^ 16 * (2 ^ 8 * d + c) := by omega
  have hdcb : 2 ^ 16 * (2 ^ 8 * d + c) + 2 ^ 8 * b = 2 ^ 8 * (2 ^ 8 * (2 ^ 8 * d + c) + b) := by omega
  rw [h24, h16, h8, or_ofNat (by omega) (by omega), hdc, or_ofNat (by omega) (by omega), hdcb,
    or_ofNat (by omega) (by omega), addrOf]
  congr 1
  omega

lemma ipLoop_quad {a b c d : Nat} (h : Quad s a b c d) : ∃ v, ipLoop s (fun _ => 0) 0 0 = some (v, 3, UInt32.ofNat d) ∧
      v 0 = UInt32.ofNat a ∧ v 1 = UInt32.ofNat b ∧ v 2 = UInt32.ofNat c := by
  obtain ⟨fa, fb, fc, fd, rfl, ha, hb, hc, hd⟩ := h
  rw [ipLoop_digits ha.digits (by decide), ipLoop_dot (by decide),
    ipLoop_digits hb.digits (by decide), ipLoop_dot (by decide),
    ipLoop_digits hc.digits (by decide), ipLoop_dot (by decide), ← append_nil fd, ipLoop_digits hd.digits (by decide),
    ha.accumulate, hb.accumulate, hc.accumulate, hd.accumulate]
  exact ⟨_, rfl, rfl, rfl, rfl⟩

lemma ipNumbers_quad {a b c d : Nat} (h : Quad s a b c d) : ipNumbers s = some (addrOf a b c d) := by
  obtain ⟨v, hloop, h0, h1, h2⟩ := ipLoop_quad h
  obtain ⟨fa, fb, fc, fd, -, ha, hb, hc, hd⟩ := h
  rw [ipNumbers, hloop]
  dsimp only
  rw [if_neg (by decide), h0, h1, h2, joinBytes ha.le hb.le hc.le hd.le]

lemma ipParse_eq (s : CStr) : ipParse s = ipNumbers s := by
  simp only [ipParse, ksc_eq_zero]
  split_ifs with h1 h2 h3 h4 h5
  · subst h1
    rfl
  · subst h2
    rfl
  · subst h3
    rfl
  · subst h4
    rfl
  · subst h5
    rfl
  · rfl

/-! ## What is rejected -/

def dots (s : CStr) : Nat := s.countP (fun c => isDot c)

/-- The string as far as its `k`-th dot. -/
def upToDot : Nat → CStr → CStr
  | 0, _ => []
  | _, [] => []
  | k + 1, c :: s => c :: upToDot (if isDot c then k else k + 1) s

/-- There is something else than digits and dots up to the fourth dot, or too few dots. -/
def Rejected (s : CStr) : Prop :=
  (∃ c ∈ upToDot 4 s, ¬ isDigit c ∧ ¬ isDot c) ∨ dots s < 3

lemma upToDot_cons {k : Nat} (hk : 0 < k) : upToDot k (c :: s) = c :: upToDot (if isDot c then k - 1 else k) s := by
  obtain ⟨j, rfl⟩ := Nat.exists_eq_add_one.mpr hk
  rfl

lemma dots_cons (c : CChar) (s : CStr) : dots (c :: s) = dots s + if isDot c then 1 else 0 := by
  simp [dots, countP_cons]

lemma dots_append (s s' : CStr) : dots (s ++ s') = dots s + dots s' := countP_append

lemma Octet.dots (h : Octet f n) : Drivers.dots f = 0 := by
  apply countP_eq_zero.mpr
  intro c hc
  have hdot : ¬ isDot c := not_isDot_of_isDigit (h.digits c hc)
  simpa using hdot

lemma Quad.dots {a b c d : Nat} (h : Quad s a b c d) : Drivers.dots s = 3 := by
  obtain ⟨fa, fb, fc, fd, rfl, ha, hb, hc, hd⟩ := h
  have hdot : ∀ s, Drivers.dots (chr '.' :: s) = Drivers.dots s + 1 := fun s => dots_cons _ s
  rw [dots_append, hdot, dots_append, hdot, dots_append, hdot, ha.dots, hb.dots, hc.dots, hd.dots]

/-- The loop returns at the first character that is neither a digit nor a dot. -/
lemma ipLoop_eq_none_iff {s : CStr} {v : Nat → UInt32} {vi : Nat} {cur : UInt32} :
    ipLoop s v vi cur = none ↔ ∃ c ∈ upToDot (4 - vi) s, ¬ isDigit c ∧ ¬ isDot c := by
  induction s generalizing v vi cur with
  | nil =>
    have hnil : upToDot (4 - vi) [] = [] := by
      cases 4 - vi with
      | zero => rfl
      | succ k => rfl
    simp [ipLoop, hnil]
  | cons c s ih =>
    by_cases hfull : 4 ≤ vi
    · rw [ipLoop, if_pos hfull, Nat.sub_eq_zero_of_le hfull]
      simp [upToDot]
    · rw [ipLoop, if_neg hfull, upToDot_cons (by omega), exists_mem_cons_iff]
      by_cases hdot : isDot c
      · have hnext : 4 - vi - 1 = 4 - (vi + 1) := by omega
        rw [if_pos hdot, if_pos (show c.val = 0x2E from hdot), ih, hnext]
        simp [hdot]
      · rw [if_neg hdot, if_neg (show ¬ c.val = 0x2E from hdot)]
        by_cases hdigit : isDigit c
        · rw [if_pos (show 0x30 ≤ c.val ∧ c.val ≤ 0x39 from hdigit), ih]
          simp [hdigit]
        · rw [if_neg (show ¬(0x30 ≤ c.val ∧ c.val ≤ 0x39) from hdigit)]
          simp [hdigit, hdot]

lemma ipLoop_fields {v v' : Nat → UInt32} {vi vi' : Nat} {cur cur' : UInt32} (hvi : vi ≤ 4)
    (h : ipLoop s v vi cur = some (v', vi', cur')) : vi' = min 4 (vi + dots s) := by
  induction s generalizing v vi cur with
  | nil =>
    rw [ipLoop, Option.some.injEq, Prod.mk.injEq, Prod.mk.injEq] at h
    rw [← h.2.1]
    simp [dots, hvi]
  | cons c s ih =>
    rw [dots_cons]
    rw [ipLoop] at h
    by_cases hfull : 4 ≤ vi
    · rw [if_pos hfull, Option.some.injEq, Prod.mk.injEq, Prod.mk.injEq] at h
      omega
    · rw [if_neg hfull] at h
      by_cases hdot : isDot c
      · rw [if_pos (show c.val = 0x2E from hdot)] at h
        rw [if_pos hdot, ih (by omega) h]
        omega
      · rw [if_neg (show ¬ c.val = 0x2E from hdot)] at h
        rw [if_neg hdot, Nat.add_zero]
        by_cases hdigit : 0x30 ≤ c.val ∧ c.val ≤ 0x39
        · rw [if_pos hdigit] at h
          exact ih hvi h
        · rw [if_neg hdigit] at h
          exact absurd h (by simp)

lemma ipParse_eq_none_iff (s : CStr) : ipParse s = none ↔ Rejected s := by
  have hnone := @ipLoop_eq_none_iff s (fun _ => 0) 0 0
  rw [ipParse_eq, ipNumbers, Rejected, show (4 : Nat) = 4 - 0 from rfl, ← hnone]
  cases hloop : ipLoop s (fun _ => 0) 0 0 with
  | none => simp
  | some r =>
    obtain ⟨v, vi, cur⟩ := r
    have hvi := ipLoop_fields (by decide) hloop
    have hfew : vi < 3 ↔ dots s < 3 := by omega
    dsimp only
    by_cases h : vi < 3
    · rw [if_pos h]
      exact iff_of_true rfl (Or.inr (hfew.mp h))
    · rw [if_neg h]
      simp only [reduceCtorEq, false_or, false_iff]
      exact fun hdots => h (hfew.mpr hdots)

/-! ## When the parse is right -/

/-- `ip_parse` is right exactly on the quads and on what it rejects. -/
theorem ipParse_exact_iff (s : CStr) : Exact s ↔ (∃ a b c d, Quad s a b c d) ∨ Rejected s := by
  constructor
  · intro h
    by_cases hquad : ∃ a b c d, Quad s a b c d
    · exact Or.inl hquad
    · exact Or.inr ((ipParse_eq_none_iff s).mp (h.other hquad))
  · rintro (hquad | hrej)
    · refine ⟨fun a b c d h => ?_, fun hno => absurd hquad hno⟩
      rw [ipParse_eq, ipNumbers_quad h]
    · have hnone := (ipParse_eq_none_iff s).mpr hrej
      refine ⟨fun a b c d h => ?_, fun _ => hnone⟩
      rw [ipParse_eq, ipNumbers_quad h] at hnone
      exact absurd hnone (by simp)

lemma not_exact_of_some {addr : UInt32} (hsome : ipParse s = some addr) (hquad : ¬ ∃ a b c d, Quad s a b c d) :
    ¬ Exact s := by
  intro h
  rw [h.other hquad] at hsome
  exact absurd hsome (by simp)

/-- Three dots are an address, a number may need nine bits, and nothing behind a fourth dot is
read. -/
theorem ipParse_accepts :
    (ipParse (cstr "...") = some 0 ∧ ¬ Exact (cstr "...")) ∧
    (ipParse (cstr "256.1.1.1") = some 0x01010100 ∧ ¬ Exact (cstr "256.1.1.1")) ∧
    (ipParse (cstr "1.2.3.4.pig") = some 0x00030201 ∧ ¬ Exact (cstr "1.2.3.4.pig")) := by
  have hfirst : ipParse (cstr "...") = some 0 := rfl
  have hsecond : ipParse (cstr "256.1.1.1") = some 0x01010100 := rfl
  have hthird : ipParse (cstr "1.2.3.4.pig") = some 0x00030201 := rfl
  refine ⟨⟨hfirst, not_exact_of_some hfirst ?_⟩, ⟨hsecond, not_exact_of_some hsecond ?_⟩, hthird,
    not_exact_of_some hthird ?_⟩
  · -- there is no room for four numbers
    rintro ⟨a, b, c, d, fa, fb, fc, fd, heq, ha, -⟩
    have hlen := congrArg length heq
    have hpos := length_pos_iff.mpr ha.ne
    simp [cstr] at hlen
    omega
  · rintro ⟨a, b, c, d, hquad⟩
    obtain ⟨v, hloop, h0, -⟩ := ipLoop_quad hquad
    obtain ⟨fa, -, -, -, -, ha, -⟩ := hquad
    have h256 : (ipLoop (cstr "256.1.1.1") (fun _ => 0) 0 0).map (fun r => r.1 0) = some 256 := rfl
    rw [hloop] at h256
    have hnat := congrArg UInt32.toNat (h0.symm.trans (Option.some.inj h256))
    rw [UInt32.toNat_ofNat_of_lt' (by have := ha.le; show _ < 4294967296; omega)] at hnat
    exact absurd ha.le (by rw [hnat]; decide)
  · rintro ⟨a, b, c, d, hquad⟩
    exact absurd hquad.dots (by decide)

end PigOS.Drivers
