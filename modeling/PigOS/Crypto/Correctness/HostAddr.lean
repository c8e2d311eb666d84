import PigOS.Crypto.TlsConnect
import PigOS.Drivers.Correctness.IpParse

/-!
# `Crypto.Correctness.HostAddr` — the two readers of an address

`tls_connect` counts the parts of a host name instead of checking them, and joins the numbers from
the most significant byte on, where `ip_parse` has the first number in the least significant one.
-/

namespace PigOS.Crypto

open Kernel Drivers List

variable {parts : Nat} {host : CStr} {f rest : CStr} {a b c d : Nat}

/-- `tls_connect` takes the name for a numeric address. -/
def Numeric (host : CStr) : Prop := (hostLoop host 0 0 0).2 = 4

/-- The readers agree: on the address of a quad, and on other strings not being one. -/
structure ReadersAgree (host : CStr) : Prop where
  quad : (∃ a b c d, Quad host a b c d) → hostAddr host = ipParse host
  other : (¬ ∃ a b c d, Quad host a b c d) → ¬ Numeric host

/-! ## The parts -/

lemma hostLoop_parts {s : CStr} (hs : s ≠ []) (hip oct : UInt32) (hparts : parts ≤ 4) :
    (hostLoop s hip oct parts).2 = min 4 (parts + dots s.dropLast + 1) := by
  induction s generalizing hip oct parts with
  | nil => exact absurd rfl hs
  | cons c s ih =>
    by_cases hfull : 4 ≤ parts
    · rw [hostLoop, if_pos hfull]
      omega
    · rw [hostLoop, if_neg hfull]
      cases s with
      | nil =>
        rw [if_pos (Or.inr rfl), hostLoop]
        simp [dots]
        omega
      | cons c' s =>
        have ih := fun hip oct {parts} (h : parts ≤ 4) => ih (cons_ne_nil c' s) hip oct h
        rw [dropLast_cons_cons, dots_cons]
        by_cases hdot : isDot c
        · rw [if_pos (Or.inl (show c.val = 0x2E from hdot)), ih _ _ (by omega), if_pos hdot]
          omega
        · have hmore : ¬(c.val = 0x2E ∨ c' :: s = []) := by
            rintro (h | h)
            · exact hdot h
            · exact absurd h (cons_ne_nil _ _)
          rw [if_neg hmore, ih _ _ hparts, if_neg hdot]
          rfl

lemma numeric_iff (host : CStr) : Numeric host ↔ 3 ≤ dots host.dropLast := by
  cases host with
  | nil => exact iff_of_false (fun h => absurd (show (0 : Nat) = 4 from h) (by decide)) (by decide)
  | cons c s =>
    rw [Numeric, hostLoop_parts (cons_ne_nil c s) 0 0 (by decide)]
    omega

/-! ## Quads -/

lemma hostLoop_digits (hf : ∀ c ∈ f, Drivers.isDigit c) (hrest : rest ≠ []) (hip oct : UInt32)
    (hparts : parts < 4) : hostLoop (f ++ rest) hip oct parts = hostLoop rest hip (accumulate f oct) parts := by
  induction f generalizing oct with
  | nil => rfl
  | cons c f ih =>
    obtain ⟨hc, hf⟩ := forall_mem_cons.mp hf
    have hmore : ¬(c.val = 0x2E ∨ f ++ rest = []) := by
      rintro (h | h)
      · exact not_isDot_of_isDigit hc h
      · exact hrest (append_eq_nil_iff.mp h).2
    rw [cons_append, hostLoop, if_neg (by omega)]
    rw [if_neg hmore, if_pos (show 0x30 ≤ c.val ∧ c.val ≤ 0x39 from hc), ih hf]
    rfl

lemma hostLoop_dot (hip oct : UInt32) (hparts : parts < 4) :
    hostLoop (chr '.' :: rest) hip oct parts = hostLoop rest ((hip <<< 8) ||| oct) 0 (parts + 1) := by
  rw [hostLoop, if_neg (by omega)]
  rw [if_pos (Or.inl (by decide)), if_neg (by decide)]

lemma hostLoop_last (hne : f ≠ []) (hf : ∀ c ∈ f, Drivers.isDigit c) (hip oct : UInt32) :
    hostLoop f hip oct 3 = ((hip <<< 8) ||| accumulate f oct, 4) := by
  obtain ⟨front, last, rfl⟩ : ∃ front last, f = front ++ [last] := ⟨_, _, (dropLast_append_getLast hne).symm⟩
  have hlast := hf last (by simp)
  rw [hostLoop_digits (fun c hc => hf c (by simp [hc])) (cons_ne_nil _ _) hip oct (by decide),
    hostLoop, if_neg (by decide)]
  rw [if_pos (Or.inr rfl), if_pos (show 0x30 ≤ last.val ∧ last.val ≤ 0x39 from hlast), hostLoop, accumulate, accumulate,
    foldl_append]
  rfl

lemma join_byte {n y : Nat} (hn : n < 2 ^ 24) (hy : y ≤ 255) :
    (UInt32.ofNat n <<< 8) ||| UInt32.ofNat y = UInt32.ofNat (2 ^ 8 * n + y) := by
  have h8 : UInt32.ofNat n <<< 8 = UInt32.ofNat (2 ^ 8 * n) := shl_ofNat (k := 8) (by decide) (by omega)
  rw [h8, or_ofNat (by omega) (by omega)]

lemma hostLoop_quad (h : Quad host a b c d) : hostLoop host 0 0 0 = (addrOf d c b a, 4) := by
  obtain ⟨fa, fb, fc, fd, rfl, ha, hb, hc, hd⟩ := h
  have hle := And.intro ha.le (And.intro hb.le (And.intro hc.le hd.le))
  have hzero : (0 : UInt32) = UInt32.ofNat 0 := rfl
  rw [hostLoop_digits ha.digits (by simp) _ _ (by decide), hostLoop_dot _ _ (by decide),
    hostLoop_digits hb.digits (by simp) _ _ (by decide), hostLoop_dot _ _ (by decide),
    hostLoop_digits hc.digits (by simp) _ _ (by decide), hostLoop_dot _ _ (by decide), hostLoop_last hd.ne hd.digits,
    ha.accumulate, hb.accumulate, hc.accumulate, hd.accumulate, hzero, join_byte (by omega) ha.le,
    join_byte (by omega) hb.le,
    join_byte (by omega) hc.le, join_byte (by omega) hd.le, addrOf]
  congr 2
  omega

lemma hostAddr_quad (h : Quad host a b c d) : hostAddr host = some (addrOf d c b a) := by
  rw [hostAddr, hostLoop_quad h]
  rfl

lemma ipParse_quad (h : Quad host a b c d) : ipParse host = some (addrOf a b c d) := by
  rw [ipParse_eq, ipNumbers_quad h]

lemma addrOf_reverse_iff (h : Quad host a b c d) : addrOf d c b a = addrOf a b c d ↔ a = d ∧ b = c := by
  obtain ⟨fa, fb, fc, fd, -, ha, hb, hc, hd⟩ := h
  have hle := And.intro ha.le (And.intro hb.le (And.intro hc.le hd.le))
  rw [addrOf, addrOf, ← UInt32.toNat_inj, UInt32.toNat_ofNat_of_lt' (by show _ < 4294967296; omega),
    UInt32.toNat_ofNat_of_lt' (by show _ < 4294967296; omega)]
  omega

/-! ## When the readers agree -/

/-- The readers agree on a quad exactly when it is a palindrome, and on another string when there
are less than three dots before its last character. -/
theorem hostAddr_agree_iff (host : CStr) :
    ReadersAgree host ↔ (∃ a b c d, Quad host a b c d ∧ a = d ∧ b = c) ∨
      ((¬ ∃ a b c d, Quad host a b c d) ∧ dots host.dropLast < 3) := by
  constructor
  · intro h
    by_cases hquad : ∃ a b c d, Quad host a b c d
    · have hsame := h.quad hquad
      obtain ⟨a, b, c, d, hq⟩ := hquad
      rw [hostAddr_quad hq, ipParse_quad hq] at hsame
      exact Or.inl ⟨a, b, c, d, hq, (addrOf_reverse_iff hq).mp (Option.some.inj hsame)⟩
    · exact Or.inr ⟨hquad, Nat.lt_of_not_le fun hdots => h.other hquad ((numeric_iff host).mpr hdots)⟩
  · rintro (⟨a, b, c, d, hq, heq⟩ | ⟨hno, hdots⟩)
    · refine ⟨fun _ => ?_, fun hno => absurd ⟨a, b, c, d, hq⟩ hno⟩
      rw [hostAddr_quad hq, ipParse_quad hq, (addrOf_reverse_iff hq).mpr heq]
    · refine ⟨fun hquad => absurd hquad hno, fun _ hnum => ?_⟩
      have := (numeric_iff host).mp hnum
      omega

lemma octet_of_all {n : Nat} (hne : f ≠ []) (hf : f.all (fun c => decide (Drivers.isDigit c)) = true)
    (hn : number f = n) (hle : n ≤ 255) : Octet f n :=
  ⟨hne, fun c hc => of_decide_eq_true (all_eq_true.mp hf c hc), hn, hle⟩

lemma quad_gateway : Quad (cstr "10.0.2.2") 10 0 2 2 :=
  ⟨cstr "10", cstr "0", cstr "2", cstr "2", rfl, octet_of_all (by decide) (by decide) rfl (by decide),
    octet_of_all (by decide) (by decide) rfl (by decide), octet_of_all (by decide) (by decide) rfl (by decide),
    octet_of_all (by decide) (by decide) rfl (by decide)⟩

/-- `10.0.2.2` is `2.2.0.10` for `tls_connect`; and a name with three dots is an address. -/
theorem hostAddr_gateway :
    (hostAddr (cstr "10.0.2.2") = some 0x0A000202 ∧ ipParse (cstr "10.0.2.2") = some 0x0202000A ∧
      ¬ ReadersAgree (cstr "10.0.2.2")) ∧
    (hostAddr (cstr "www.pig.example.org") = some 0 ∧ ¬ ReadersAgree (cstr "www.pig.example.org")) := by
  refine ⟨⟨rfl, rfl, ?_⟩, rfl, ?_⟩
  · intro h
    have hsame := h.quad ⟨_, _, _, _, quad_gateway⟩
    exact absurd hsame (by decide)
  · intro h
    refine h.other ?_ ((numeric_iff _).mpr (by decide))
    -- a quad begins with a digit
    rintro ⟨a, b, c, d, fa, fb, fc, fd, heq, ha, -⟩
    obtain ⟨first, rest, rfl⟩ := exists_cons_of_ne_nil ha.ne
    have hfirst : chr 'w' = first := (cons.inj heq).1
    exact absurd (ha.digits first mem_cons_self) (by rw [← hfirst]; decide)

end PigOS.Crypto
