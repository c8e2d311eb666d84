import PigOS.Kernel.Correctness.Resolve
import PigOS.Kernel.PathBuffer

/-!
# `Kernel.Correctness.PathBuffer` — the resolver stays inside its buffer

`Stored n out s` is the simulation relation: the array holds the C string `s`, and nothing was
written at or behind index `n`. Each loop takes an array that stores a string to one that stores
what the string model makes of it, within a number of rounds that the length of its input bounds
(`fsResolve_stored`).
-/

namespace PigOS.Kernel

open List

variable {l k : Nat} {a cwd : CStr}
namespace Out

variable {fuel : Nat}

/-! ## The relation -/

/-- The array begins with `s`, leaves room for a terminator and was not written at or behind index
`n`. -/
structure Text (n : Nat) (out : Bytes) (s : CStr) : Prop where
  starts : out.Starts (s.map Subtype.val)
  top : out.top ≤ n
  room : s.length < n

/-- The array holds the C string `s`. -/
structure Stored (n : Nat) (out : Bytes) (s : CStr) : Prop where
  starts : out.Starts (s.map Subtype.val ++ [0])
  top : out.top ≤ n
  room : s.length < n

section Relation

variable {n : Nat} {out : Bytes} {s t : CStr} {c : CChar}

lemma Stored.text (h : Stored n out s) : Text n out s := ⟨h.starts.left, h.top, h.room⟩

lemma Text.read_append (h : Text n out (s ++ c :: t)) : out.read s.length = c := by
  have hstarts := h.starts
  rw [map_append, map_cons] at hstarts
  have hread := hstarts.read_append
  rwa [length_map] at hread

lemma Stored.read_append (h : Stored n out (s ++ c :: t)) : out.read s.length = c := h.text.read_append

lemma Stored.read_length (h : Stored n out s) : out.read s.length = 0 := by
  have hread := h.starts.read_append
  rwa [length_map] at hread

lemma Stored.read_zero (h : Stored n out s) : out.read 0 = 0 ↔ s = [] := by
  cases s with
  | nil => exact ⟨fun _ => rfl, fun _ => h.read_length⟩
  | cons c s =>
    have hread : out.read 0 = c := Stored.read_append (s := []) h
    rw [hread]
    exact ⟨fun hc => absurd hc c.property, fun hs => absurd hs (cons_ne_nil c s)⟩

lemma Text.push (h : Text n out s) (hroom : s.length < n - 1) (c : CChar) :
    Text n (out.write s.length c) (s ++ [c]) where
  starts := by
    have hstarts := h.starts.write_end c.val
    rwa [length_map, ← map_singleton (f := Subtype.val), ← map_append] at hstarts
  top := Buffer.top_write_le h.top h.room
  room := by
    rw [length_append, length_singleton]
    omega

/-- `out[ol]=0` -/
lemma Text.close (h : Text n out s) : Stored n (out.write s.length 0) s where
  starts := by
    have hstarts := h.starts.write_end 0
    rwa [length_map] at hstarts
  top := Buffer.top_write_le h.top h.room
  room := h.room

lemma Stored.cut (h : Stored n out (s ++ t)) : Stored n (out.write s.length 0) s where
  starts := by
    have hsplit : ∃ y u, (s ++ t).map Subtype.val ++ [0] = s.map Subtype.val ++ y :: u := by
      rw [map_append, append_assoc]
      cases t with
      | nil => exact ⟨0, [], rfl⟩
      | cons c t => exact ⟨c, t.map Subtype.val ++ [0], rfl⟩
    obtain ⟨y, u, hsplit⟩ := hsplit
    have hstarts := h.starts
    rw [hsplit] at hstarts
    have hset := hstarts.set 0
    rw [length_map, ← singleton_append, ← append_assoc] at hset
    exact hset.left
  top := Buffer.top_write_le h.top (by
    have hroom := h.room
    rw [length_append] at hroom
    omega)
  room := by
    have hroom := h.room
    rw [length_append] at hroom
    omega

lemma Stored.cut_take (h : Stored n out s) (hl : l ≤ s.length) : Stored n (out.write l 0) (s.take l) := by
  rw [← take_append_drop l s] at h
  have hcut := h.cut
  rwa [length_take, Nat.min_eq_left hl] at hcut

lemma Stored.set (h : Stored n out (s ++ c :: t)) (d : CChar) :
    Stored n (out.write s.length d) (s ++ d :: t) where
  starts := by
    have hstarts := h.starts
    rw [map_append, map_cons, append_assoc, cons_append] at hstarts
    have hset := hstarts.set d.val
    rw [length_map] at hset
    rwa [map_append, map_cons, append_assoc, cons_append]
  top := Buffer.top_write_le h.top (by
    have hroom := h.room
    rw [length_append] at hroom
    omega)
  room := by
    have hroom := h.room
    rw [length_append, length_cons] at hroom ⊢
    exact hroom

end Relation

/-! ## Copying -/

variable {out : Bytes} {s : CStr} {c : CChar}

section Copying

variable {n : Nat}

lemma copyText_text (s : CStr) (h : Text n out a) :
    (copyText n s a.length out).1 = (a ++ s.take (n - 1 - a.length)).length ∧
      Text n (copyText n s a.length out).2 (a ++ s.take (n - 1 - a.length)) := by
  induction s generalizing a out with
  | nil =>
    rw [take_nil, append_nil]
    exact ⟨rfl, h⟩
  | cons c s ih =>
    rw [copyText]
    by_cases hroom : a.length < n - 1
    · have htake : a ++ (c :: s).take (n - 1 - a.length) = a ++ [c] ++ s.take (n - 1 - (a ++ [c]).length) := by
        rw [length_append, length_singleton, show n - 1 - a.length = n - 1 - (a.length + 1) + 1 by omega,
          take_succ_cons, append_assoc, singleton_append]
      have hlen : (a ++ [c]).length = a.length + 1 := by simp
      have hnext := ih (h.push hroom c)
      rw [hlen] at hnext
      rw [if_pos hroom, htake, hlen]
      exact hnext
    · rw [if_neg hroom, show n - 1 - a.length = 0 by omega, take_zero, append_nil]
      exact ⟨rfl, h⟩

lemma copyText_stored (s : CStr) (htop : out.top ≤ n) (hn : 0 < n) :
    (copyText n s 0 out).1 = (s.take (n - 1)).length ∧
      Stored n ((copyText n s 0 out).2.write (copyText n s 0 out).1 0) (s.take (n - 1)) := by
  have hempty : Text n out [] := ⟨Buffer.starts_nil out, htop, hn⟩
  obtain ⟨hlen, htext⟩ := copyText_text s hempty
  rw [nil_append, length_nil, Nat.sub_zero] at hlen htext
  refine ⟨hlen, ?_⟩
  rw [hlen]
  exact htext.close

lemma kcp_go_stored (s : CStr) (h : Text n out a) (hroom : (a ++ s).length < n) :
    Stored n (kcp.go out s a.length) (a ++ s) := by
  induction s generalizing a out with
  | nil =>
    rw [kcp.go, append_nil]
    exact h.close
  | cons c s ih =>
    rw [append_cons] at hroom
    have hlen : (a ++ [c]).length = a.length + 1 := by simp
    have hpush : a.length < n - 1 := by
      rw [length_append, hlen] at hroom
      omega
    have hnext := ih (h.push hpush c) hroom
    rw [hlen] at hnext
    rw [kcp.go, append_cons]
    exact hnext

lemma kcp_stored (htop : out.top ≤ n) (hs : s.length < n) : Stored n (kcp out s) s :=
  kcp_go_stored s (a := []) ⟨Buffer.starts_nil out, htop, Nat.zero_lt_of_lt hs⟩ hs

end Copying

/-! ## `path_normalize` -/

section Normalising

variable {n : Nat}

lemma ksl_append (t : CStr) (h : Stored n out (s ++ t))
    (hfuel : t.length < fuel) : ksl out fuel s.length = some (s ++ t).length := by
  induction t generalizing s fuel with
  | nil =>
    obtain ⟨fuel, rfl⟩ := Nat.exists_eq_add_one.mpr hfuel
    rw [append_nil] at h ⊢
    rw [ksl, if_pos h.read_length]
  | cons c t ih =>
    obtain ⟨fuel, rfl⟩ := Nat.exists_eq_add_one.mpr (Nat.zero_lt_of_lt hfuel)
    have hread : out.read s.length ≠ 0 := h.read_append ▸ c.property
    rw [append_cons] at h
    have hnext := ih h (Nat.lt_of_succ_lt_succ hfuel)
    rw [length_append, length_singleton] at hnext
    rw [ksl, if_neg hread, append_cons, hnext]

lemma ksl_eq (h : Stored n out s) (hfuel : s.length < fuel) : ksl out fuel 0 = some s.length :=
  ksl_append s (s := []) h hfuel

lemma shiftLeft_stored (t : CStr) (h : Stored n out (s ++ c :: t))
    (hfuel : t.length + 1 < fuel) : ∃ out', shiftLeft fuel s.length out = some out' ∧ Stored n out' (s ++ t) := by
  induction t generalizing s c out fuel with
  | nil =>
    obtain ⟨fuel, rfl⟩ : ∃ k, fuel = k + 1 + 1 := Nat.exists_eq_add_of_le' hfuel
    have hread : out.read s.length ≠ 0 := h.read_append ▸ c.property
    -- the byte after the last one is the terminator, and the loop stops there
    have hlast : out.read (s.length + 1) = 0 := by
      rw [show s.length + 1 = (s ++ [c]).length by rw [length_append, length_singleton]]
      exact h.read_length
    have hstop : (out.write s.length 0).read (s.length + 1) = 0 := by
      rw [Buffer.read_write_of_ne out 0 (Nat.succ_ne_self _)]
      exact hlast
    refine ⟨out.write s.length 0, ?_, ?_⟩
    · rw [shiftLeft, if_neg hread, hlast, shiftLeft, if_pos hstop]
    · rw [append_nil]
      exact h.cut
  | cons d t ih =>
    obtain ⟨fuel, rfl⟩ := Nat.exists_eq_add_one.mpr (Nat.zero_lt_of_lt hfuel)
    have hread : out.read s.length ≠ 0 := h.read_append ▸ c.property
    have hset := h.set d
    rw [append_cons] at h hset
    have hnext : out.read (s.length + 1) = d := by
      have hd := h.read_append
      rwa [length_append] at hd
    obtain ⟨out', hrun, hout'⟩ := ih hset (Nat.lt_of_succ_lt_succ hfuel)
    rw [length_append] at hrun
    refine ⟨out', ?_, ?_⟩
    · rw [shiftLeft, if_neg hread, hnext]
      exact hrun
    · rw [append_cons]
      exact hout'

/-- The induction is over what is left of the string: every round either shifts or moves on. -/
lemma collapse_stored (t : CStr) (h : Stored n out (s ++ t)) (hfuel : t.length + 1 < fuel) :
    ∃ out', collapse fuel s.length out = some out' ∧ Stored n out' (s ++ collapseSlashes t) := by
  induction t generalizing s out fuel with
  | nil =>
    obtain ⟨fuel, rfl⟩ := Nat.exists_eq_add_one.mpr (Nat.zero_lt_of_lt hfuel)
    rw [append_nil] at h
    refine ⟨out, ?_, ?_⟩
    · rw [collapse, if_pos h.read_length]
    · rw [collapseSlashes_nil, append_nil]
      exact h
  | cons c t ih =>
    obtain ⟨fuel, rfl⟩ := Nat.exists_eq_add_one.mpr (Nat.zero_lt_of_lt hfuel)
    have hfuel : t.length + 1 < fuel := Nat.lt_of_succ_lt_succ hfuel
    have hread : out.read s.length = c := h.read_append
    have hne : out.read s.length ≠ 0 := hread ▸ c.property
    have hlen : (s ++ [c]).length = s.length + 1 := by simp
    have hmove := h
    rw [append_cons] at hmove
    rw [collapse, if_neg hne, hread]
    cases t with
    | nil =>
      have hstop : ¬ ((c : UInt8) = slash ∧ out.read (s.length + 1) = slash) := by
        rw [← hlen, h.read_length]
        exact fun hs => slash.property hs.2.symm
      obtain ⟨out', hrun, hout'⟩ := ih (s := s ++ [c]) (by rwa [append_nil] at hmove ⊢) hfuel
      rw [hlen] at hrun
      rw [if_neg hstop]
      exact ⟨out', hrun, by rwa [collapseSlashes_nil, append_nil] at hout'⟩
    | cons d t =>
      have hnext : out.read (s.length + 1) = d := by
        rw [← hlen]
        exact hmove.read_append
      rw [hnext, collapseSlashes]
      by_cases hcd : c = slash ∧ d = slash
      · obtain ⟨out₁, hshift, hout₁⟩ := shiftLeft_stored (d :: t) h hfuel
        obtain ⟨out', hrun, hout'⟩ := ih hout₁ hfuel
        refine ⟨out', ?_, ?_⟩
        · rw [if_pos ⟨congrArg Subtype.val hcd.1, congrArg Subtype.val hcd.2⟩, hshift]
          exact hrun
        · rw [if_pos hcd]
          exact hout'
      · obtain ⟨out', hrun, hout'⟩ := ih hmove hfuel
        rw [hlen] at hrun
        refine ⟨out', ?_, ?_⟩
        · rw [if_neg (fun hs => hcd ⟨Subtype.ext hs.1, Subtype.ext hs.2⟩)]
          exact hrun
        · rw [if_neg hcd, append_cons]
          exact hout'

lemma pathNormalize_stored (h : Stored n out s) (hfuel : s.length + 1 < fuel) :
    ∃ out', pathNormalize fuel out = some out' ∧ Stored n out' (Kernel.pathNormalize s) := by
  have hcut : Stored n (if 1 < s.length ∧ out.read (s.length - 1) = slash then out.write (s.length - 1) 0 else out)
      (if 1 < s.length ∧ s.getLast? = some slash then s.dropLast else s) := by
    rcases eq_nil_or_concat s with rfl | ⟨t, c, rfl⟩
    · exact h
    · rw [concat_eq_append] at h ⊢
      have hlen : (t ++ [c]).length - 1 = t.length := by simp
      have hread : out.read t.length = c := h.read_append
      rw [hlen, hread, getLast?_concat, dropLast_concat]
      by_cases hc : 1 < (t ++ [c]).length ∧ c = slash
      · rw [if_pos ⟨hc.1, congrArg Subtype.val hc.2⟩, if_pos ⟨hc.1, congrArg some hc.2⟩]
        exact h.cut
      · rw [if_neg (fun hs => hc ⟨hs.1, Subtype.ext hs.2⟩), if_neg (fun hs => hc ⟨hs.1, Option.some.inj hs.2⟩)]
        exact h
  have hle : (if 1 < s.length ∧ s.getLast? = some slash then s.dropLast else s).length ≤ s.length := by
    split
    · rw [length_dropLast]
      exact Nat.sub_le _ _
    · exact Nat.le_refl _
  unfold pathNormalize
  rw [ksl_eq h (by omega), Option.bind_some]
  exact collapse_stored _ (s := []) hcut (Nat.lt_of_le_of_lt (Nat.succ_le_succ hle) hfuel)

end Normalising

/-! ## The component loop -/

section Components

variable {n : Nat}

lemma backToSlash_eq (h : Text n out s) (hl : l ≤ s.length) :
    backToSlash out l = Kernel.backToSlash s l := by
  induction l with
  | zero => rfl
  | succ l ih =>
    have hget : out.read l = s.get ⟨l, hl⟩ := h.starts l _ (by
      rw [getElem?_map, getElem?_eq_getElem hl]
      rfl)
    have hiff : (0 < l ∧ out.read l ≠ slash) ↔ (0 < l ∧ s[l]? ≠ some slash) := by
      rw [hget, getElem?_eq_getElem hl]
      simp [Subtype.ext_iff]
    rw [backToSlash, Kernel.backToSlash, if_congr hiff (ih (Nat.le_of_succ_le hl)) rfl]

lemma backToSlash_le (s : CStr) (l : Nat) : Kernel.backToSlash s l ≤ l := by
  induction l with
  | zero => exact Nat.le_refl 0
  | succ l ih =>
    rw [Kernel.backToSlash]
    split
    · exact Nat.le_succ_of_le ih
    · exact Nat.le_refl _

lemma copyName_text (p : CStr) (h : Text n out s) : ∃ out', copyName n p s.length out =
        (p.drop (min (p.takeWhile (· ≠ slash)).length (n - 1 - s.length)),
          (s ++ p.take (min (p.takeWhile (· ≠ slash)).length (n - 1 - s.length))).length, out') ∧
      Text n out' (s ++ p.take (min (p.takeWhile (· ≠ slash)).length (n - 1 - s.length))) := by
  induction p generalizing s out with
  | nil =>
    refine ⟨out, ?_, ?_⟩
    · rw [copyName, drop_nil, take_nil, append_nil]
    · rwa [take_nil, append_nil]
  | cons c p ih =>
    rw [copyName]
    by_cases hgo : c ≠ slash ∧ s.length < n - 1
    · have hlen : (s ++ [c]).length = s.length + 1 := by simp
      have hmin : min ((c :: p).takeWhile (· ≠ slash)).length (n - 1 - s.length) =
          min (p.takeWhile (· ≠ slash)).length (n - 1 - (s.length + 1)) + 1 := by
        rw [takeWhile_cons_of_pos (by simpa using hgo.1), length_cons]
        omega
      obtain ⟨out', hrun, hout'⟩ := ih (h.push hgo.2 c)
      rw [hlen] at hrun hout'
      rw [hmin, drop_succ_cons, take_succ_cons, if_pos hgo, append_cons]
      exact ⟨out', hrun, hout'⟩
    · have hmin : min ((c :: p).takeWhile (· ≠ slash)).length (n - 1 - s.length) = 0 := by
        by_cases hc : c = slash
        · rw [takeWhile_cons_of_neg (by simpa using hc), length_nil, Nat.zero_min]
        · have hfull : ¬ s.length < n - 1 := fun hlt => hgo ⟨hc, hlt⟩
          rw [show n - 1 - s.length = 0 by omega, Nat.min_zero]
      rw [hmin, drop_zero, take_zero, append_nil, if_neg hgo]
      exact ⟨out, rfl, h⟩

lemma skipSlash_length (p : CStr) : (skipSlash p).length ≤ p.length := by
  cases p with
  | nil => exact Nat.le_refl _
  | cons c p =>
    rw [skipSlash]
    split
    · exact Nat.le_succ _
    · exact Nat.le_refl _

lemma skipSlash_drop_lt {p : CStr} (hp : p ≠ []) (hk : 0 < k) : (skipSlash (p.drop k)).length < p.length := by
  have hpos : 0 < p.length := length_pos_iff.mpr hp
  have hle := skipSlash_length (p.drop k)
  rw [length_drop] at hle
  omega

/-- The component loop ends within one round more than the path has bytes: a name is only begun when
there is room for its slash and first byte. -/
lemma components_stored {p : CStr} (h : Stored n out s) (hs : s ≠ [])
    (hfuel : p.length < fuel) (hk : p.length < k) :
    ∃ out', components n fuel p s.length out = some out' ∧ Stored n out' (resolveLoop n k p s) := by
  induction fuel generalizing k p s out with
  | zero => exact absurd hfuel (Nat.not_lt_zero _)
  | succ fuel ih =>
    obtain ⟨k, rfl⟩ := Nat.exists_eq_add_one.mpr (Nat.zero_lt_of_lt hk)
    have hdrop : (p.dropWhile (· = slash)).length ≤ p.length := (dropWhile_suffix _).length_le
    have hhead := head?_dropWhile_not (p := (· = slash)) p
    rw [components, resolveLoop]
    generalize p.dropWhile (· = slash) = q at hdrop hhead
    simp only
    by_cases hq : q = []
    · rw [if_pos hq, if_pos hq]
      exact ⟨out, rfl, h⟩
    rw [if_neg hq, if_neg hq]
    have hnext : ∀ j, 0 < j → (skipSlash (q.drop j)).length < fuel ∧ (skipSlash (q.drop j)).length < k := by
      intro j hj
      have hlt := skipSlash_drop_lt hq hj
      omega
    by_cases hup : q.take 2 = [dot, dot] ∧ (q[2]? = none ∨ q[2]? = some slash)
    · rw [if_pos hup, if_pos hup, if_neg hs, backToSlash_eq h.text (Nat.le_refl _)]
      have hback := backToSlash_le s s.length
      have hpos : 0 < s.length := length_pos_iff.mpr hs
      generalize Kernel.backToSlash s s.length = l at hback
      have hl : (if 1 < l then l - 1 else l) ≤ s.length := by
        split <;> omega
      generalize (if 1 < l then l - 1 else l) = j at hl
      have hmax : (if j < 1 then 1 else j) = max j 1 := by
        split <;> omega
      rw [hmax]
      have hle : max j 1 ≤ s.length := Nat.max_le.mpr ⟨hl, hpos⟩
      have hm : 1 ≤ max j 1 := Nat.le_max_right j 1
      generalize max j 1 = m at hle hm
      have hcut := h.cut_take hle
      have hlen : (s.take m).length = m := by rw [length_take, Nat.min_eq_left hle]
      have hne : s.take m ≠ [] := by
        rw [← length_pos_iff, hlen]
        exact hm
      have hrun := ih hcut hne (hnext 2 (by decide)).1 (hnext 2 (by decide)).2
      rwa [hlen] at hrun
    rw [if_neg hup, if_neg hup]
    by_cases hdot : q.head? = some dot ∧ (q[1]? = none ∨ q[1]? = some slash)
    · rw [if_pos hdot, if_pos hdot]
      exact ih h hs (hnext 1 (by decide)).1 (hnext 1 (by decide)).2
    rw [if_neg hdot, if_neg hdot]
    by_cases hfull : n - 2 ≤ s.length
    · rw [if_pos hfull, if_pos hfull]
      exact ⟨out, rfl, h⟩
    rw [if_neg hfull, if_neg hfull]
    obtain ⟨t, c, rfl⟩ : ∃ t c, s = t ++ [c] := by
      rcases eq_nil_or_concat s with hnil | ⟨t, c, hs'⟩
      · exact absurd hnil hs
      · exact ⟨t, c, hs'.trans (concat_eq_append ..)⟩
    -- the separator is written exactly when the string model appends it
    have hlast : out.read ((t ++ [c]).length - 1) = c := by
      rw [length_append, length_singleton, Nat.add_sub_cancel]
      exact h.read_append
    have hsep : (0 < (t ++ [c]).length ∧ out.read ((t ++ [c]).length - 1) ≠ slash) ↔
        (t ++ [c] ≠ [] ∧ (t ++ [c]).getLast? ≠ some slash) := by
      rw [hlast, getLast?_concat, length_pos_iff]
      simp [Subtype.ext_iff]
    have hbefore : ∃ u, Text n (if t ++ [c] ≠ [] ∧ (t ++ [c]).getLast? ≠ some slash
          then out.write (t ++ [c]).length slash else out) u ∧
        u = (if t ++ [c] ≠ [] ∧ (t ++ [c]).getLast? ≠ some slash then t ++ [c] ++ [slash] else t ++ [c]) ∧
        u.length = (if t ++ [c] ≠ [] ∧ (t ++ [c]).getLast? ≠ some slash then (t ++ [c]).length + 1
          else (t ++ [c]).length) ∧ u.length < n - 1 := by
      refine ⟨_, ?_, rfl, ?_, ?_⟩
      · split
        · exact h.text.push (by omega) slash
        · exact h.text
      · split
        · rw [@List.length_append _ (t ++ [c]), length_singleton]
        · rfl
      · split
        · rw [@List.length_append _ (t ++ [c]), length_singleton]
          omega
        · omega
    obtain ⟨u, htext, hu, hlen, hroom⟩ := hbefore
    rw [if_congr hsep rfl rfl, if_congr hsep rfl rfl, ← hu, ← hlen]
    obtain ⟨out', hcopy, hout'⟩ := copyName_text q htext
    rw [hcopy]
    have hqlen : 0 < (q.takeWhile (· ≠ slash)).length := by
      cases q with
      | nil => exact absurd rfl hq
      | cons a q =>
        have ha : a ≠ slash := by simpa using hhead
        rw [takeWhile_cons_of_pos (by simpa using ha)]
        exact Nat.succ_pos _
    have htaken : 0 < min (q.takeWhile (· ≠ slash)).length (n - 1 - u.length) := by omega
    refine ih hout'.close ?_ (hnext _ htaken).1 (hnext _ htaken).2
    intro hnil
    have hu' : u = [] := (append_eq_nil_iff.mp hnil).1
    rw [hu] at hu'
    split at hu' <;> simp at hu'

end Components

/-! ## `fs_resolve` -/

/-- The byte level refines the string level, for every contents of the array before. -/
lemma fsResolve_stored {path : CStr} (hcwd : cwd ≠ []) {n : Nat} (hn : 1 < n) (hlen : cwd.length < n)
    (cells : Nat → UInt8) (hfuel : path.length + n < fuel) :
    ∃ out, fsResolve fuel cwd path n (Buffer.fresh cells) = some out ∧ Stored n out (Kernel.fsResolve cwd path n) := by
  have htop : (Buffer.fresh cells).top ≤ n := Nat.zero_le n
  unfold fsResolve Kernel.fsResolve
  by_cases hstay : path = [] ∨ path = [dot]
  · rw [if_pos hstay, if_pos hstay]
    exact pathNormalize_stored (kcp_stored htop hlen) (by omega)
  rw [if_neg hstay, if_neg hstay]
  by_cases htilde : ksc path (cstr "~") = 0
  · rw [if_pos htilde, if_pos htilde]
    exact ⟨_, rfl, kcp_stored htop hn⟩
  rw [if_neg htilde, if_neg htilde]
  simp only
  -- whichever branch fills the array, it stores the string of that branch
  have hfill : ∃ out, (if path.head? = some slash then
        some ((copyText n path 0 (Buffer.fresh cells)).2.write (copyText n path 0 (Buffer.fresh cells)).1 0)
      else components n fuel path (copyText n cwd 0 (Buffer.fresh cells)).1
        ((copyText n cwd 0 (Buffer.fresh cells)).2.write (copyText n cwd 0 (Buffer.fresh cells)).1 0)) = some out ∧
      Stored n out (if path.head? = some slash then path.take (n - 1)
        else resolveLoop n (path.length + 1) path (cwd.take (n - 1))) := by
    by_cases habs : path.head? = some slash
    · rw [if_pos habs, if_pos habs]
      exact ⟨_, rfl, (copyText_stored path htop (Nat.zero_lt_of_lt hn)).2⟩
    · obtain ⟨hcopied, hstored⟩ := copyText_stored cwd htop (Nat.zero_lt_of_lt hn)
      have hne : cwd.take (n - 1) ≠ [] := by
        rwa [take_of_length_le (by omega)]
      obtain ⟨out, hrun, hout⟩ := components_stored hstored hne (show path.length < fuel by omega) (Nat.lt_succ_self _)
      rw [if_neg habs, if_neg habs]
      rw [← hcopied] at hrun
      exact ⟨out, hrun, hout⟩
  obtain ⟨out, hrun, hout⟩ := hfill
  rw [hrun, Option.bind_some]
  generalize (if path.head? = some slash then path.take (n - 1)
    else resolveLoop n (path.length + 1) path (cwd.take (n - 1))) = s at hout
  have hroot : Stored n (if out.read 0 = 0 then (out.write 0 slash).write 1 0 else out)
      (if s = [] then cstr "/" else s) := by
    by_cases hs : s = []
    · subst hs
      rw [if_pos rfl, if_pos (hout.read_zero.mpr rfl)]
      exact (hout.text.push (show 0 < n - 1 by omega) slash).close
    · rw [if_neg hs, if_neg (fun h0 => hs (hout.read_zero.mp h0))]
      exact hout
  refine pathNormalize_stored hroot ?_
  have := hroot.room
  omega

/-! ## The string that is left -/

lemma head?_collapseSlashes (s : CStr) : (collapseSlashes s).head? = s.head? := by
  fun_induction collapseSlashes s with
  | case1 a b rest hab ih =>
    rw [ih, hab.1, hab.2]
    rfl
  | case2 a b rest hab ih => rfl
  | case3 s _ => rfl

lemma head?_pathNormalize (s : CStr) : (Kernel.pathNormalize s).head? = s.head? := by
  rw [Kernel.pathNormalize, head?_collapseSlashes]
  split
  · rename_i hlong
    rcases s with _ | ⟨a, _ | ⟨b, s⟩⟩
    · rfl
    · exact absurd hlong.1 (by simp)
    · rfl
  · rfl

lemma head?_resolveLoop (n k : Nat) (p : CStr) (hs : s.head? = some c) :
    (resolveLoop n k p s).head? = some c := by
  have happend : ∀ {t : CStr} (u : CStr), t.head? = some c → (t ++ u).head? = some c := by
    intro t u ht
    rw [head?_append, ht]
    rfl
  induction k generalizing p s with
  | zero => exact hs
  | succ k ih =>
    have hne : s ≠ [] := by
      rintro rfl
      exact absurd hs (by simp)
    rw [resolveLoop]
    simp only [if_neg hne]
    split
    · exact hs
    split
    · apply ih
      rw [head?_take, if_neg (by omega)]
      exact hs
    split
    · exact ih _ hs
    split
    · exact hs
    · apply ih
      apply happend
      split
      · exact happend _ hs
      · exact hs

lemma head?_fsResolve (hcwd : cwd.head? = some slash) (path : CStr) {n : Nat} (hn : 1 < n) :
    (Kernel.fsResolve cwd path n).head? = some slash := by
  have htake : ∀ {s : CStr}, s.head? = some slash → (s.take (n - 1)).head? = some slash := by
    intro s hs
    rw [head?_take, if_neg (by omega), hs]
  have hroot : ∀ {s : CStr}, s.head? = some slash → (if s = [] then cstr "/" else s).head? = some slash := by
    intro s hs
    split
    · rfl
    · exact hs
  unfold Kernel.fsResolve
  split
  · rw [head?_pathNormalize, hcwd]
  split
  · rfl
  · rw [head?_pathNormalize]
    apply hroot
    split
    · rename_i habs
      exact htake habs
    · exact head?_resolveLoop n _ path (htake hcwd)

/-- **The resolver stays inside its buffer.** `fs_resolve` ends, writes no cell behind `out[255]`,
and leaves a C string that starts with a slash, terminator included. -/
theorem fsResolve_stays_in_buffer {cwd : CStr} (hcwd : cwd.head? = some slash) (hlen : cwd.length ≤ 255) (path : CStr)
    (cells : Nat → UInt8) {fuel : Nat} (hfuel : path.length + 256 < fuel) :
    ∃ out, fsResolve fuel cwd path 256 (Buffer.fresh cells) = some out ∧ out.top ≤ 256 ∧
      ∃ s : CStr, out.Starts (s.map Subtype.val ++ [0]) ∧ s.length ≤ 255 ∧ s.head? = some slash := by
  have hne : cwd ≠ [] := by
    rintro rfl
    exact absurd hcwd (by simp)
  obtain ⟨out, hrun, hout⟩ := fsResolve_stored hne (by decide) (Nat.lt_succ_of_le hlen) cells hfuel
  exact ⟨out, hrun, hout.top, _, hout.starts, Nat.le_of_lt_succ hout.room, head?_fsResolve hcwd path (by decide)⟩

/-- The longest working directory, and a path that is cut in the middle of its first name. -/
theorem fsResolve_stays_in_buffer_cut :
    ∃ out, fsResolve 300 (slash :: replicate 252 dot) (cstr "bcd/..") 256 (Buffer.fresh fun _ => 1) = some out ∧
      out.top ≤ 256 ∧
        ∃ s : CStr, out.Starts (s.map Subtype.val ++ [0]) ∧ s.length ≤ 255 ∧ s.head? = some slash :=
  fsResolve_stays_in_buffer rfl (by rw [length_cons, length_replicate]; decide) _ _ (by decide)

end Out
end PigOS.Kernel
