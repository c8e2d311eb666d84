import PigOS.Crypto.Correctness.JsonBounds
import PigOS.Crypto.JsonBuffer

/-!
# `Crypto.Correctness.JsonBuffer` — the parser stays inside its arrays

The parser on arrays does what the one on lists does, and no access on the way is outside: one lemma
for each access, each token and each first character of a value, and the induction on the bound of
the recursion (`inside`).
-/

namespace PigOS.Crypto

open Kernel List
open Option (bind_eq_bind bind_some isSome_some)

/-! ## Accesses -/

namespace JsonParser

/-- The parser with `rest` in front of it. -/
def facing (src rest : List UInt8) : JsonParser := ⟨src, src.length - rest.length⟩

section Facing

variable {src rest : List UInt8} (hrest : rest <:+ src)
include hrest

lemma pos_add (n : Nat) (hn : n ≤ rest.length) : (facing src rest).pos + n = (facing src (rest.drop n)).pos := by
  have hlen := hrest.length_le
  show src.length - rest.length + n = src.length - (rest.drop n).length
  rw [length_drop]
  omega

lemma pos_lt_len_iff : (facing src rest).pos < (facing src rest).len ↔ rest ≠ [] := by
  have hlen := hrest.length_le
  rw [← length_pos_iff]
  show src.length - rest.length < src.length ↔ 0 < rest.length
  omega

lemma read_facing (i : Nat) : (facing src rest).read ((facing src rest).pos + i) = rest[i]? := by
  obtain ⟨before, rfl⟩ := hrest
  show (before ++ rest)[(before ++ rest).length - rest.length + i]? = rest[i]?
  rw [length_append, Nat.add_sub_cancel, getElem?_append_right (Nat.le_add_right _ _), Nat.add_sub_cancel_left]

lemma advance_facing {n : Nat} (hn : n ≤ rest.length) :
    (facing src rest).advance n = some (facing src (rest.drop n)) := by
  have hpos := pos_add hrest n hn
  have hle : (facing src rest).pos + n ≤ (facing src rest).len := by
    rw [hpos]
    exact Nat.sub_le _ _
  rw [advance, if_pos hle, hpos]
  rfl

end Facing

section Cons

variable {src r : List UInt8} {c : UInt8} (hrest : c :: r <:+ src)
include hrest

lemma pos_lt_len : (facing src (c :: r)).pos < (facing src (c :: r)).len :=
  (pos_lt_len_iff hrest).mpr (cons_ne_nil c r)

lemma read_pos : (facing src (c :: r)).read (facing src (c :: r)).pos = some c := read_facing hrest 0

lemma advance_one : (facing src (c :: r)).advance 1 = some (facing src r) :=
  advance_facing hrest (Nat.succ_le_succ (Nat.zero_le _))

end Cons

lemma not_pos_lt_len (src : List UInt8) : ¬(facing src []).pos < (facing src []).len :=
  mt (pos_lt_len_iff nil_suffix).mp (fun h => h rfl)

variable {rest src : List UInt8} {rounds : Nat}

lemma next_facing (hrest : rest <:+ src) (test : UInt8 → Bool) :
    (facing src rest).next test = some (rest.head?.any test) := by
  cases rest with
  | nil =>
    rw [next, if_neg (not_pos_lt_len src)]
    rfl
  | cons c r =>
    rw [next, if_pos (pos_lt_len hrest), read_pos hrest]
    rfl

lemma scan_facing (accept : UInt8 → Bool) (hrest : rest <:+ src)
    (hrounds : rest.length < rounds) : scan accept rounds (facing src rest) =
      some (facing src (rest.dropWhile accept)) := by
  induction rest generalizing rounds with
  | nil =>
    obtain ⟨rounds, rfl⟩ := Nat.exists_eq_add_one.mpr hrounds
    rw [scan, next_facing hrest]
    rfl
  | cons c r ih =>
    obtain ⟨rounds, rfl⟩ := Nat.exists_eq_add_one.mpr (Nat.zero_lt_of_lt hrounds)
    rw [scan, next_facing hrest, advance_one hrest, dropWhile_cons]
    show (if accept c then _ else _) = _
    by_cases hc : accept c
    · rw [if_pos hc, if_pos hc]
      exact ih ((suffix_cons c r).trans hrest) (Nat.lt_of_succ_lt_succ hrounds)
    · rw [if_neg hc, if_neg hc]

lemma jsonSkipWs_facing (hrest : rest <:+ src) :
    (facing src rest).jsonSkipWs = some (facing src (Crypto.jsonSkipWs rest)) :=
  scan_facing isWs hrest (Nat.lt_succ_of_le hrest.length_le)

lemma skipChar_facing (hrest : rest <:+ src) (c : UInt8) :
    (facing src rest).skipChar c = some (facing src (Crypto.skipChar c rest)) := by
  rw [skipChar, next_facing hrest]
  cases rest with
  | nil => rfl
  | cons x r =>
    rw [advance_one hrest, Crypto.skipChar]
    show (if decide (x = c) = true then _ else _) = _
    by_cases hx : x = c
    · rw [if_pos hx, if_pos (decide_eq_true hx)]
    · rw [if_neg hx, if_neg (by rwa [decide_eq_true_iff])]

/-! ## Tokens -/

variable {b : StrBuf} {r : List UInt8} {c : UInt8}

/-- One byte more: two cells stay free, and the new size is at most twice what the input can
fill. -/
lemma StrBuf.room_put (hcap : b.data.length + 2 ≤ b.cap) (hlen : b.data.length + 2 < 2 ^ 30) (c : UInt8) :
    ∃ b₁ b₂, b.room = some b₁ ∧ b₁.put c = some b₂ ∧ b₂.data = b.data ++ [c] ∧ b₂.data.length + 2 ≤ b₂.cap := by
  obtain ⟨b₁, hroom, hdata, hcap₁⟩ : ∃ b₁, b.room = some b₁ ∧ b₁.data = b.data ∧ b.data.length + 3 ≤ b₁.cap := by
    by_cases hfull : b.cap - 2 ≤ b.data.length
    · refine ⟨{ b with cap := b.cap * 2 }, ?_, rfl, by show b.data.length + 3 ≤ b.cap * 2; omega⟩
      rw [room, if_pos hfull, if_pos (by omega)]
    · exact ⟨b, by rw [room, if_neg hfull], rfl, by omega⟩
  refine ⟨b₁, { b₁ with data := b₁.data ++ [c] }, hroom, ?_, ?_, ?_⟩
  · rw [put, if_pos (by rw [hdata]; omega)]
  · rw [hdata]
  · rw [length_append, length_singleton, hdata]
    omega

lemma StrBuf.finish_eq (hcap : b.data.length + 2 ≤ b.cap) : b.finish = some (cstring b.data) := by
  rw [finish, if_pos (by omega)]

/-- The loop over a string. A byte of the input gives at most one of the buffer. -/
lemma stringLoop_facing (hsrc : src.length < 2 ^ 30) {buf : List UInt8} (hrest : rest <:+ src)
    (hbuf : b.data = buf) (hcap : b.data.length + 2 ≤ b.cap) (hlen : buf.length + rest.length < src.length)
    (hrounds : rest.length < rounds) : stringLoop rounds (facing src rest) b =
      some (cstring (Crypto.stringLoop rest buf).1, facing src (Crypto.stringLoop rest buf).2) := by
  obtain ⟨rounds, rfl⟩ := Nat.exists_eq_add_one.mpr (Nat.zero_lt_of_lt hrounds)
  fun_induction Crypto.stringLoop rest buf generalizing b rounds with
  | case1 buf =>
    rw [stringLoop, if_neg (not_pos_lt_len src), StrBuf.finish_eq hcap, hbuf]
    rfl
  | case2 rest buf =>
    rw [stringLoop, if_pos (pos_lt_len hrest), read_pos hrest]
    simp only [bind_eq_bind, bind_some, if_true]
    rw [advance_one hrest, StrBuf.finish_eq hcap, hbuf]
    rfl
  | case3 buf hq =>
    -- a backslash at the end of the input
    rw [stringLoop, if_pos (pos_lt_len hrest), read_pos hrest]
    simp only [bind_eq_bind, bind_some, if_neg hq, if_true]
    rw [advance_one hrest, bind_some, if_neg (not_pos_lt_len src), StrBuf.finish_eq hcap, hbuf]
    rfl
  | case4 buf ec rest hq ih =>
    have hesc : ec :: rest <:+ src := (suffix_cons _ _).trans hrest
    simp only [length_cons] at hlen hrounds
    obtain ⟨b₁, b₂, hroom, hput, hdata, hcap₂⟩ := StrBuf.room_put hcap (by rw [hbuf]; omega) (unescape ec)
    obtain ⟨rounds, rfl⟩ := Nat.exists_eq_add_one_of_ne_zero (n := rounds) (by omega)
    rw [stringLoop, if_pos (pos_lt_len hrest), read_pos hrest]
    simp only [bind_eq_bind, bind_some, if_neg hq, if_true]
    rw [advance_one hrest, bind_some, if_pos (pos_lt_len hesc), read_pos hesc, bind_some, hroom,
      bind_some, hput, bind_some, advance_one hesc, bind_some]
    refine ih ((suffix_cons _ _).trans hesc) (by rw [hdata, hbuf]) hcap₂ ?_ rounds (by omega)
    rw [length_append, length_singleton]
    omega
  | case5 c rest buf hq hb ih =>
    simp only [length_cons] at hlen hrounds
    obtain ⟨b₁, b₂, hroom, hput, hdata, hcap₂⟩ := StrBuf.room_put hcap (by rw [hbuf]; omega) c
    obtain ⟨rounds, rfl⟩ := Nat.exists_eq_add_one_of_ne_zero (n := rounds) (by omega)
    rw [stringLoop, if_pos (pos_lt_len hrest), read_pos hrest]
    simp only [bind_eq_bind, bind_some, if_neg hq, if_neg hb]
    rw [hroom, bind_some, hput, bind_some, advance_one hrest, bind_some]
    refine ih ((suffix_cons _ _).trans hrest) (by rw [hdata, hbuf]) hcap₂ ?_ rounds (by omega)
    rw [length_append, length_singleton]
    omega

lemma jsonParseStringRaw_facing (hsrc : src.length < 2 ^ 30) (hrest : rest <:+ src) :
    (facing src rest).jsonParseStringRaw =
      some ((Crypto.jsonParseStringRaw rest).1, facing src (Crypto.jsonParseStringRaw rest).2) := by
  rw [jsonParseStringRaw, next_facing hrest]
  cases rest with
  | nil => rfl
  | cons c r =>
    rw [Crypto.jsonParseStringRaw, advance_one hrest]
    show (if decide (c = chQuote) = true then _ else _) = _
    have hlen := hrest.length_le
    rw [length_cons] at hlen
    by_cases hc : c = chQuote
    · have hloop : stringLoop ((facing src r).len + 1) (facing src r) ⟨64, []⟩ = _ :=
        stringLoop_facing hsrc ((suffix_cons c r).trans hrest) rfl (by decide) (by rw [length_nil]; omega)
          (Nat.lt_succ_of_le (Nat.le_of_succ_le hlen))
      rw [if_pos (decide_eq_true hc), if_neg (fun h => h hc), bind_eq_bind, bind_some, hloop]
      rfl
    · rw [if_neg (by rwa [decide_eq_true_iff]), if_pos hc]

lemma follows_facing (hrest : rest <:+ src) (ws : List UInt8) {i : Nat}
    (hi : i + ws.length ≤ rest.length) :
    (facing src rest).follows i ws = some (decide ((rest.drop i).take ws.length = ws)) := by
  induction ws generalizing i with
  | nil => rfl
  | cons w ws ih =>
    rw [length_cons] at hi
    have hlt : i < rest.length := by omega
    rw [follows, read_facing hrest, getElem?_eq_getElem hlt, bind_eq_bind, bind_some,
      drop_eq_getElem_cons hlt, length_cons, take_succ_cons]
    by_cases hw : rest[i] = w
    · rw [if_pos hw, ih (by omega)]
      simp only [hw, cons.injEq, true_and]
    · rw [if_neg hw]
      simp only [hw, cons.injEq, false_and, decide_false]

lemma skipWord_facing (hrest : c :: r <:+ src) (ws : List UInt8) :
    (facing src (c :: r)).skipWord ws = some (facing src (Crypto.skipWord (c :: ws) (c :: r))) := by
  have hlen := hrest.length_le
  have hroom : (facing src (c :: r)).pos + ws.length < (facing src (c :: r)).len ↔ ws.length + 1 ≤ (c :: r).length := by
    show src.length - (c :: r).length + ws.length < src.length ↔ _
    rw [length_cons] at hlen ⊢
    omega
  rw [skipWord, Crypto.skipWord, length_cons, take_succ_cons]
  by_cases hfit : ws.length + 1 ≤ (c :: r).length
  · rw [if_pos (hroom.mpr hfit), follows_facing hrest ws (by omega), bind_eq_bind, bind_some,
      advance_facing hrest hfit, drop_succ_cons, drop_zero]
    by_cases hws : r.take ws.length = ws
    · rw [if_pos (decide_eq_true hws), if_pos (by rw [hws])]
    · rw [if_neg (by rwa [decide_eq_true_iff]), if_neg (fun h => hws (cons.inj h).2)]
  · rw [if_neg (mt hroom.mp hfit), if_neg]
    intro h
    have hws := congrArg length (cons.inj h).2
    rw [length_take] at hws
    rw [length_cons] at hfit
    omega

lemma number_facing (hrest : c :: r <:+ src) (hc : isNumChar c = true) :
    (facing src (c :: r)).number = some
      (if ((c :: r).takeWhile isNumChar).length < 24 then jsonNumVal ((c :: r).takeWhile isNumChar) else some 0,
        facing src ((c :: r).dropWhile isNumChar)) := by
  have hscan := scan_facing isNumChar hrest (Nat.lt_succ_of_le hrest.length_le)
  have hsplit := congrArg length (takeWhile_append_dropWhile (p := isNumChar) (l := c :: r))
  have hpos : 0 < ((c :: r).takeWhile isNumChar).length := by
    rw [takeWhile_cons_of_pos hc]
    exact Nat.succ_pos _
  have hlen := hrest.length_le
  rw [length_append] at hsplit
  have hslen : (facing src ((c :: r).dropWhile isNumChar)).pos - (facing src (c :: r)).pos =
      ((c :: r).takeWhile isNumChar).length := by
    show src.length - ((c :: r).dropWhile isNumChar).length - (src.length - (c :: r).length) = _
    omega
  have htext : ((facing src (c :: r)).src.drop (facing src (c :: r)).pos).take ((c :: r).takeWhile isNumChar).length =
      (c :: r).takeWhile isNumChar := by
    show (src.drop (src.length - (c :: r).length)).take _ = _
    rw [← suffix_iff_eq_drop.mp hrest]
    have hpre : (c :: r).takeWhile isNumChar <+: c :: r := takeWhile_prefix isNumChar
    exact (prefix_iff_eq_take.mp hpre).symm
  rw [number]
  show (scan isNumChar (src.length + 1) (facing src (c :: r))).bind _ = _
  rw [hscan, bind_some, hslen]
  by_cases hshort : ((c :: r).takeWhile isNumChar).length < 24
  · rw [if_pos ⟨hpos, hshort⟩, if_pos hshort, htext, if_pos]
    refine ⟨?_, by omega⟩
    show src.length - (c :: r).length + _ ≤ src.length
    omega
  · rw [if_neg (fun h => hshort h.2), if_neg hshort]

/-! ## Values -/

lemma store_eq {idx : Nat} (h : idx < jsonMaxNodes) (t : JsonTree) (f : JsonNode → JsonNode) :
    store t idx f = some (setNode t idx f) := if_pos h

lemma any_ne_iff (rest : List UInt8) (c : UInt8) :
    rest.head?.any (fun x => decide (x ≠ c)) = true ↔ rest ≠ [] ∧ rest.head? ≠ some c := by
  cases rest with
  | nil => simp
  | cons x r => simp

lemma any_eq_iff (rest : List UInt8) (c : UInt8) :
    rest.head?.any (fun x => decide (x = c)) = true ↔ rest.head? = some c := by
  cases rest with
  | nil => simp
  | cons x r => simp

/-- A result of the parser on lists, with the position in place of the rest. -/
def liftValue (src : List UInt8) (r : Option Nat × List UInt8 × JsonTree) : Option Nat × JsonParser × JsonTree :=
  (r.1, facing src r.2.1, r.2.2)

def liftLoop (src : List UInt8) (r : List UInt8 × JsonTree) : JsonParser × JsonTree := (facing src r.1, r.2)

/-- Both loops end with one result, and stay within the bounds. -/
def LoopInside (src : List UInt8) (fuel idx : Nat) (loop : List UInt8 → JsonTree → Option (List UInt8 × JsonTree))
    (loop' : JsonParser → JsonTree → Option (JsonParser × JsonTree)) (rest : List UInt8) (t : JsonTree) : Prop :=
  rest <:+ src → idx < t.length → t.length ≤ jsonMaxNodes → 2 * rest.length + 1 < fuel →
    ∃ out, LoopBounds idx rest t out ∧ loop rest t = some out ∧ loop' (facing src rest) t = some (liftLoop src out)

/-- A call and the two loops. Two levels for each byte that is left are enough for a call. -/
structure Inside (src : List UInt8) (fuel : Nat) : Prop where
  value : ∀ rest t, rest <:+ src → t.length ≤ jsonMaxNodes → 2 * rest.length < fuel →
    ∃ out, ValueBounds rest t out ∧ Crypto.jsonParseValue fuel rest t = some out ∧
      jsonParseValue fuel (facing src rest) t = some (liftValue src out)
  object : ∀ idx rest t, LoopInside src fuel idx (Crypto.objectLoop fuel idx) (objectLoop fuel idx) rest t
  array : ∀ idx rest t, LoopInside src fuel idx (Crypto.arrayLoop fuel idx) (arrayLoop fuel idx) rest t

section Step

variable {src : List UInt8} {fuel idx : Nat} {rest rest₁ r : List UInt8} {c : UInt8} {t t₁ : JsonTree}
  {loop : List UInt8 → JsonTree → Option (List UInt8 × JsonTree)}
  {loop' : JsonParser → JsonTree → Option (JsonParser × JsonTree)}

/-- A value that is neither an object nor an array takes one slot and no call. -/
lemma scalar_inside (fuel : Nat) (hsrc : src.length < 2 ^ 30) (hrest : c :: r <:+ src)
    (hobj : c ≠ chLBrace) (harr : c ≠ chLBracket)
    (hws : Crypto.jsonSkipWs rest = c :: r) (hr : rest <:+ src) (ht : t.length < jsonMaxNodes) :
    ∃ n rest', Crypto.jsonParseValue (fuel + 1) rest t = some (some t.length, rest', t ++ [n]) ∧
      jsonParseValue (fuel + 1) (facing src rest) t = some (some t.length, facing src rest', t ++ [n]) ∧
      rest' <:+ c :: r ∧ n.childStart = 0 ∧ n.children = 0 := by
  rw [jsonParseValue, Crypto.jsonParseValue, if_neg (Nat.not_le.mpr ht), if_neg (Nat.not_le.mpr ht),
    jsonSkipWs_facing hr]
  simp only [hws, bind_eq_bind, bind_some, if_pos (pos_lt_len hrest), read_pos hrest, store_eq ht,
    if_neg hobj, if_neg harr, setNode_at]
  by_cases hq : c = chQuote
  · simp only [if_pos hq, jsonParseStringRaw_facing hsrc hrest, bind_some]
    exact ⟨_, _, rfl, rfl, jsonParseStringRaw_suffix _, rfl, rfl⟩
  by_cases htrue : c = 0x74
  · subst htrue
    simp only [if_neg hq, if_true, skipWord_facing hrest, bind_some]
    exact ⟨_, _, rfl, rfl, skipWord_suffix _ _, rfl, rfl⟩
  by_cases hfalse : c = 0x66
  · subst hfalse
    simp only [if_neg hq, if_neg htrue, if_true, skipWord_facing hrest, bind_some]
    exact ⟨_, _, rfl, rfl, skipWord_suffix _ _, rfl, rfl⟩
  by_cases hnull : c = 0x6E
  · subst hnull
    simp only [if_neg hq, if_neg htrue, if_neg hfalse, if_true, skipWord_facing hrest, bind_some]
    exact ⟨_, _, rfl, rfl, skipWord_suffix _ _, rfl, rfl⟩
  by_cases hnum : c = chMinus ∨ isDigit c
  · have hc : isNumChar c = true := by
      rw [isNumChar]
      rcases hnum with rfl | hd
      · decide
      · rw [hd]
        rfl
    simp only [if_neg hq, if_neg htrue, if_neg hfalse, if_neg hnull, if_pos hnum, number_facing hrest hc, bind_some]
    exact ⟨_, _, rfl, rfl, dropWhile_suffix isNumChar, rfl, rfl⟩
  · simp only [if_neg hq, if_neg htrue, if_neg hfalse, if_neg hnull, if_neg hnum]
    exact ⟨_, _, rfl, rfl, suffix_rfl, rfl, rfl⟩

/-- The loop of an object or an array, if there is one, and the closing bracket. -/
lemma close_inside (hloop : LoopInside src fuel idx loop loop' r t) (hr : r <:+ src) (hidx : idx < t.length)
    (ht : t.length ≤ jsonMaxNodes) (hfuel : 2 * r.length + 1 < fuel) (close : UInt8) : ∃ out, LoopBounds idx r t out ∧
      (if r ≠ [] ∧ r.head? ≠ some close then (loop r t).map (fun p => (some idx, Crypto.skipChar close p.1, p.2))
        else some (some idx, Crypto.skipChar close r, t)) = some (some idx, Crypto.skipChar close out.1, out.2) ∧
      (if r.head?.any (fun x => decide (x ≠ close)) = true then
          (loop' (facing src r) t).bind fun q => (q.1.skipChar close).bind fun p => some (some idx, p, q.2)
        else ((facing src r).skipChar close).bind fun p => some (some idx, p, t)) =
        some (some idx, facing src (Crypto.skipChar close out.1), out.2) := by
  by_cases hmore : r ≠ [] ∧ r.head? ≠ some close
  · obtain ⟨out, hout, hlist, hbuf⟩ := hloop hr hidx ht hfuel
    refine ⟨out, hout, ?_, ?_⟩
    · rw [if_pos hmore, hlist, Option.map_some]
    · rw [if_pos ((any_ne_iff r close).mpr hmore), hbuf, bind_some]
      simp only [liftLoop, skipChar_facing (hout.rest.trans hr), bind_some]
  · refine ⟨(r, t), LoopBounds.refl idx r ht, if_neg hmore, ?_⟩
    rw [if_neg (mt (any_ne_iff r close).mp hmore), skipChar_facing hr, bind_some]

lemma value_inside_succ (hsrc : src.length < 2 ^ 30) (ih : Inside src fuel) (hr : rest <:+ src)
    (hle : t.length ≤ jsonMaxNodes) (hfuel : 2 * rest.length < fuel + 1) :
    ∃ out, ValueBounds rest t out ∧ Crypto.jsonParseValue (fuel + 1) rest t = some out ∧
      jsonParseValue (fuel + 1) (facing src rest) t = some (liftValue src out) := by
  by_cases hfull : jsonMaxNodes ≤ t.length
  · refine ⟨(none, rest, t), ⟨suffix_rfl, prefix_rfl, hle, fun ci h => absurd h (by simp), id⟩, ?_, ?_⟩
    · rw [Crypto.jsonParseValue, if_pos hfull]
    · rw [jsonParseValue, if_pos hfull]
      rfl
  have ht := Nat.not_le.mp hfull
  have hskip : Crypto.jsonSkipWs rest <:+ src := (jsonSkipWs_suffix rest).trans hr
  have hlen (n : JsonNode) : (t ++ [n]).length = t.length + 1 := by rw [length_append, length_singleton]
  have hidx (n : JsonNode) : t.length < (t ++ [n]).length := hlen n ▸ Nat.lt_succ_self _
  have hroom (n : JsonNode) : (t ++ [n]).length ≤ jsonMaxNodes := hlen n ▸ ht
  cases hws : Crypto.jsonSkipWs rest with
  | nil =>
    refine ⟨(none, [], t ++ [JsonNode.zero]), .leaf ht nil_suffix ⟨rfl, rfl⟩ (fun ci h => by cases h), ?_, ?_⟩
    · rw [Crypto.jsonParseValue, if_neg hfull]
      simp only [hws]
    · rw [jsonParseValue, if_neg hfull, jsonSkipWs_facing hr]
      simp only [hws, bind_eq_bind, bind_some, if_neg (not_pos_lt_len src)]
      rfl
  | cons c r =>
    rw [hws] at hskip
    have hr' : Crypto.jsonSkipWs r <:+ src := (jsonSkipWs_suffix r).trans ((suffix_cons c r).trans hskip)
    -- a bracket is a byte less for the loop
    have hless : 2 * (Crypto.jsonSkipWs r).length + 1 < fuel := by
      have h₁ := (jsonSkipWs_suffix r).length_le
      have h₂ := (jsonSkipWs_suffix rest).length_le
      rw [hws, length_cons] at h₂
      omega
    by_cases hobj : c = chLBrace
    · subst hobj
      obtain ⟨out, hout, hlist, hbuf⟩ := close_inside (ih.object t.length _ _) hr' (hidx _) (hroom _) hless chRBrace
      refine ⟨_, hout.value (Nat.le_refl _) hws chRBrace, (jsonParseValue_object ht hws).trans hlist, ?_⟩
      rw [jsonParseValue, if_neg hfull, jsonSkipWs_facing hr]
      simp only [hws, bind_eq_bind, bind_some, if_pos (pos_lt_len hskip), read_pos hskip,
        advance_one hskip, store_eq ht, setNode_at, hlen, jsonSkipWs_facing ((suffix_cons _ r).trans hskip),
        next_facing hr', if_neg (show chLBrace ≠ chQuote by decide), if_true]
      exact hbuf
    by_cases harr : c = chLBracket
    · subst harr
      obtain ⟨out, hout, hlist, hbuf⟩ := close_inside (ih.array t.length _ _) hr' (hidx _) (hroom _) hless chRBracket
      refine ⟨_, hout.value (Nat.le_refl _) hws chRBracket, (jsonParseValue_array ht hws).trans hlist, ?_⟩
      rw [jsonParseValue, if_neg hfull, jsonSkipWs_facing hr]
      simp only [hws, bind_eq_bind, bind_some, if_pos (pos_lt_len hskip), read_pos hskip,
        advance_one hskip, store_eq ht, setNode_at, hlen, jsonSkipWs_facing ((suffix_cons _ r).trans hskip),
        next_facing hr', if_neg (show chLBracket ≠ chQuote by decide), if_neg hobj, if_true]
      exact hbuf
    obtain ⟨n, rest', hlist, hbuf, hsuffix, hn⟩ := scalar_inside fuel hsrc hskip hobj harr hws hr ht
    exact ⟨_, .leaf ht (hsuffix.trans (hws ▸ jsonSkipWs_suffix rest)) hn
      (fun ci h => (Option.some.inj h).symm), hlist, hbuf⟩

/-- The comma of a loop and its next round. A comma is a byte less for it. -/
lemma again_inside (hloop : ∀ rest t, LoopInside src fuel idx loop loop' rest t)
    (h : LoopBounds idx rest t (rest₁, t₁)) (hr : rest <:+ src) (hidx : idx < t.length)
    (hfuel : 2 * rest.length < fuel) :
    ∃ out, LoopBounds idx rest t out ∧
      (if (Crypto.jsonSkipWs rest₁).head? = some chComma then loop (Crypto.jsonSkipWs rest₁).tail t₁
        else some (Crypto.jsonSkipWs rest₁, t₁)) = some out ∧
      ((facing src rest₁).jsonSkipWs.bind fun p => (p.next (fun x => decide (x = chComma))).bind fun again =>
        if again = true then (p.advance 1).bind fun q => loop' q t₁ else some (p, t₁)) = some (liftLoop src out) := by
  have hr₁ : rest₁ <:+ src := h.rest.trans hr
  have hws : Crypto.jsonSkipWs rest₁ <:+ rest₁ := jsonSkipWs_suffix rest₁
  rw [jsonSkipWs_facing hr₁, bind_some, next_facing (hws.trans hr₁), bind_some]
  by_cases hcomma : (Crypto.jsonSkipWs rest₁).head? = some chComma
  · obtain ⟨cs, hcs⟩ := head?_eq_some_iff.mp hcomma
    rw [if_pos hcomma, if_pos ((any_eq_iff _ _).mpr hcomma), hcs, tail_cons, advance_one (hcs ▸ hws.trans hr₁),
      bind_some]
    have hlen := (hws.trans h.rest).length_le
    rw [hcs, length_cons] at hlen
    have hcs' : cs <:+ rest₁ := (suffix_cons chComma cs).trans (hcs ▸ hws)
    obtain ⟨out, hout, hboth⟩ := hloop cs t₁ (hcs'.trans hr₁) (Nat.lt_of_lt_of_le hidx h.length) h.slots (by omega)
    exact ⟨out, h.trans hcs' hout, hboth⟩
  · rw [if_neg hcomma, if_neg (mt (any_eq_iff _ _).mp hcomma)]
    exact ⟨_, h.trans hws (LoopBounds.refl idx _ h.slots), rfl, rfl⟩

lemma array_inside_succ (ih : Inside src fuel) :
    LoopInside src (fuel + 1) idx (Crypto.arrayLoop (fuel + 1) idx) (arrayLoop (fuel + 1) idx) rest t := by
  intro hr hidx ht hfuel
  obtain ⟨⟨o, rest₁, t₁⟩, hval, hlist, hbuf⟩ := ih.value rest t hr ht (by omega)
  rw [arrayLoop, Crypto.arrayLoop, hlist, hbuf]
  simp only [liftValue, bind_eq_bind, bind_some]
  cases o with
  | none => exact again_inside (ih.array idx) (hval.skip idx) hr hidx (by omega)
  | some ci =>
    simp only [isSome_some, if_true, store_eq (Nat.lt_of_lt_of_le hidx ht), bind_some]
    exact again_inside (ih.array idx) (hval.count hidx) hr hidx (by omega)

lemma object_inside_succ (hsrc : src.length < 2 ^ 30) (ih : Inside src fuel) :
    LoopInside src (fuel + 1) idx (Crypto.objectLoop (fuel + 1) idx) (objectLoop (fuel + 1) idx) rest t := by
  intro hr hidx ht hfuel
  have hskip : Crypto.jsonSkipWs rest <:+ src := (jsonSkipWs_suffix rest).trans hr
  rw [objectLoop, Crypto.objectLoop, jsonSkipWs_facing hr]
  simp only [bind_eq_bind, bind_some, next_facing hskip]
  by_cases hend : Crypto.jsonSkipWs rest = [] ∨ (Crypto.jsonSkipWs rest).head? = some chRBrace
  · have hmore : ¬(Crypto.jsonSkipWs rest ≠ [] ∧ (Crypto.jsonSkipWs rest).head? ≠ some chRBrace) := by
      rintro ⟨h₁, h₂⟩
      exact hend.elim h₁ h₂
    rw [if_pos hend, if_neg (mt (any_ne_iff _ _).mp hmore)]
    exact ⟨_, (LoopBounds.refl idx rest ht).trans (jsonSkipWs_suffix rest) (LoopBounds.refl idx _ ht), rfl, rfl⟩
  rw [if_neg hend, if_pos ((any_ne_iff _ _).mpr (not_or.mp hend))]
  have hkey : (Crypto.jsonParseStringRaw (Crypto.jsonSkipWs rest)).2 <:+ src :=
    (jsonParseStringRaw_suffix _).trans hskip
  have hlen := (key_suffix rest).length_le
  obtain ⟨⟨o, rest₁, t₁⟩, hval, hlist, hbuf⟩ := ih.value _ t ((key_suffix rest).trans hr) ht (by omega)
  rw [jsonParseStringRaw_facing hsrc hskip]
  simp only [bind_some, jsonSkipWs_facing hkey, skipChar_facing ((jsonSkipWs_suffix _).trans hkey), hlist, hbuf,
    liftValue]
  -- the child is looked for behind the key
  suffices hrest : ∃ out, LoopBounds idx _ t out ∧ _ from
    hrest.imp fun out h => ⟨(LoopBounds.refl idx rest ht).trans (key_suffix rest) h.1, h.2⟩
  cases o with
  | none => exact again_inside (ih.object idx) (hval.skip idx) ((key_suffix rest).trans hr) hidx (by omega)
  | some ci =>
    have hci : ci < jsonMaxNodes := Nat.lt_of_lt_of_le (hval.index ci rfl).2 hval.slots
    simp only [isSome_some, if_true, Option.getD_some, store_eq hci, store_eq (Nat.lt_of_lt_of_le hidx ht),
      bind_some]
    exact again_inside (ih.object idx) ((hval.setKey _).count hidx) ((key_suffix rest).trans hr) hidx (by omega)

end Step

lemma inside (hsrc : src.length < 2 ^ 30) (fuel : Nat) : Inside src fuel := by
  induction fuel with
  | zero => exact ⟨fun _ _ _ _ h => absurd h (by omega), fun _ _ _ _ _ _ h => absurd h (by omega),
      fun _ _ _ _ _ _ h => absurd h (by omega)⟩
  | succ fuel ih =>
    exact ⟨fun _ _ hr ht hfuel => value_inside_succ hsrc ih hr ht hfuel, fun _ _ _ => object_inside_succ hsrc ih,
      fun _ _ _ => array_inside_succ ih⟩

/-- **The parser stays inside its arrays.** On every input it ends without an access outside, with
the table of the parser on lists and the children of every node among the slots in use. -/
theorem jsonParse_inside (str : List UInt8) (hlen : str.length < 2 ^ 30) :
    ∃ p t, jsonParse str = some (p, t) ∧ Crypto.jsonParse str = some t ∧ p.pos ≤ str.length ∧ t.length ≤ jsonMaxNodes ∧
      ∀ n ∈ t, n.childStart + n.children ≤ t.length := by
  obtain ⟨⟨o, rest, t⟩, hval, hlist, hbuf⟩ :=
    (inside hlen (2 * str.length + 2)).value str [] suffix_rfl (Nat.zero_le _) (by omega)
  have hstart : (⟨str, 0⟩ : JsonParser) = facing str str := by rw [facing, Nat.sub_self]
  refine ⟨facing str rest, t, ?_, ?_, Nat.sub_le _ _, hval.slots, ?_⟩
  · rw [jsonParse, hstart, hbuf]
    rfl
  · rw [Crypto.jsonParse, hlist]
    rfl
  · exact hval.fits fun n hn => absurd hn not_mem_nil

/-- An array that ends in the middle of a string. -/
theorem jsonParse_inside_truncated : [chLBracket, chQuote, chBackslash].length < 2 ^ 30 ∧
      ∃ p t, jsonParse [chLBracket, chQuote, chBackslash] = some (p, t) ∧
        Crypto.jsonParse [chLBracket, chQuote, chBackslash] = some t ∧
          p.pos ≤ [chLBracket, chQuote, chBackslash].length ∧
        t.length ≤ jsonMaxNodes ∧ ∀ n ∈ t, n.childStart + n.children ≤ t.length :=
  ⟨by decide, jsonParse_inside _ (by decide)⟩

end JsonParser

end PigOS.Crypto
