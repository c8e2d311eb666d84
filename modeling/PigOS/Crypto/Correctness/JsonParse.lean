import Mathlib.Data.List.DropRight
import PigOS.Crypto.Json
import PigOS.Lib.PreOrder

/-!
# `Crypto.Correctness.JsonParse` — what the parser makes of a JSON text

`Renders v x` says that `x` is a text of the value `v`, with any white space between its tokens and
no `u`-escapes. Parsing a document fills the table with the nodes of its value
(`jsonParse_document`). The proof follows the grammar: one lemma per token, one per first character
of a value and one per loop.
-/

namespace PigOS.Crypto

open Kernel PreOrder List
open RoseTree (size_node table_eq tables_cons sizes_cons tables_nil)

variable {w r x ds : List UInt8} {c : UInt8} {idx : Nat}

/-! ## Values and their texts -/

inductive Json where
  | null
  | bool (b : Bool)
  | num (z : Int64)
  | str (s : CStr)
  | arr (es : List Json)
  | obj (ms : List (CStr × Json))

/-- White space. -/
def Ws (w : List UInt8) : Prop := ∀ c ∈ w, isWs c = true

/-- The characters that may follow a backslash, other than `u`. -/
def escapes : List UInt8 := [chQuote, chBackslash, 0x2F, 0x6E, 0x74, 0x72, 0x62, 0x66]

/-- The characters of a string, each as it is or escaped. -/
def RendersChars : CStr → List UInt8 → Prop
  | [], x => x = []
  | c :: s, x => ∃ r, RendersChars s r ∧
      ((c.val ≠ chQuote ∧ c.val ≠ chBackslash ∧ x = c.val :: r) ∨
       ∃ e ∈ escapes, unescape e = c.val ∧ x = chBackslash :: e :: r)

def RendersStr (s : CStr) (x : List UInt8) : Prop :=
  ∃ r, RendersChars s r ∧ x = chQuote :: (r ++ [chQuote])

/-- Decimal digits without a leading zero. -/
def Digits (ds : List UInt8) : Prop :=
  ds ≠ [] ∧ (∀ d ∈ ds, isDigit d = true) ∧ (ds.head? = some 0x30 → ds.length = 1)

/-- The number that digits stand for. -/
def decimal (ds : List UInt8) : Nat := ds.foldl (fun v d => v * 10 + (d.toNat - 0x30)) 0

def RendersNum (z : Int64) (x : List UInt8) : Prop :=
  ∃ ds, Digits ds ∧ ((x = ds ∧ z.toInt = decimal ds) ∨ (x = chMinus :: ds ∧ z.toInt = -(decimal ds : Int)))

mutual

def Renders : Json → List UInt8 → Prop
  | .null, x => x = [0x6E, 0x75, 0x6C, 0x6C]
  | .bool b, x => x = if b then [0x74, 0x72, 0x75, 0x65] else [0x66, 0x61, 0x6C, 0x73, 0x65]
  | .num z, x => RendersNum z x
  | .str s, x => RendersStr s x
  | .arr es, x => ∃ b, x = chLBracket :: (b ++ [chRBracket]) ∧ RendersElems es b
  | .obj ms, x => ∃ b, x = chLBrace :: (b ++ [chRBrace]) ∧ RendersMembers ms b

/-- What stands between the brackets of an array. -/
def RendersElems : List Json → List UInt8 → Prop
  | [], b => Ws b
  | [v], b => ∃ w x w', Ws w ∧ Ws w' ∧ Renders v x ∧ b = w ++ (x ++ w')
  | v :: u :: es, b => ∃ w x w' b', Ws w ∧ Ws w' ∧ Renders v x ∧
      b = w ++ (x ++ (w' ++ chComma :: b')) ∧ RendersElems (u :: es) b'

/-- What stands between the braces of an object. -/
def RendersMembers : List (CStr × Json) → List UInt8 → Prop
  | [], b => Ws b
  | [(k, v)], b => ∃ w y w₁ w₂ x w', Ws w ∧ Ws w₁ ∧ Ws w₂ ∧ Ws w' ∧ RendersStr k y ∧ Renders v x ∧
      b = w ++ (y ++ (w₁ ++ chColon :: (w₂ ++ (x ++ w'))))
  | (k, v) :: u :: ms, b => ∃ w y w₁ w₂ x w' b', Ws w ∧ Ws w₁ ∧ Ws w₂ ∧ Ws w' ∧ RendersStr k y ∧ Renders v x ∧
      b = w ++ (y ++ (w₁ ++ chColon :: (w₂ ++ (x ++ (w' ++ chComma :: b'))))) ∧ RendersMembers (u :: ms) b'

end

/-- A text of a value with white space around it. -/
def Document (v : Json) (text : List UInt8) : Prop :=
  ∃ w x w', Ws w ∧ Ws w' ∧ Renders v x ∧ text = w ++ (x ++ w')

/-! ## Tables -/

/-- What a node says about its own value. -/
structure JsonLabel where
  key : Option CStr
  type : JsonType
  str : Option CStr
  num : Int64
  bool : Bool

mutual

/-- The nodes of a value. -/
def Json.tree (key : Option CStr) : Json → RoseTree JsonLabel
  | .null => .node ⟨key, .null, none, 0, false⟩ []
  | .bool b => .node ⟨key, .bool, none, 0, b⟩ []
  | .num z => .node ⟨key, .number, none, z, false⟩ []
  | .str s => .node ⟨key, .string, some s, 0, false⟩ []
  | .arr es => .node ⟨key, .array, none, 0, false⟩ (elemTrees es)
  | .obj ms => .node ⟨key, .object, none, 0, false⟩ (memberTrees ms)

def elemTrees : List Json → List (RoseTree JsonLabel)
  | [] => []
  | v :: es => v.tree none :: elemTrees es

def memberTrees : List (CStr × Json) → List (RoseTree JsonLabel)
  | [] => []
  | (k, v) :: ms => v.tree (some k) :: memberTrees ms

end

/-- The smallest number cannot be read: its digits overflow before the sign is applied. -/
def readNum (z : Int64) : Option Int64 := if z = Int64.minValue then none else some z

/-- The node that the parser writes to a slot. -/
def toNode (p : Nat × RoseTree JsonLabel) : JsonNode where
  type := p.2.label.type
  key := p.2.label.key
  strVal := p.2.label.str
  numVal := readNum p.2.label.num
  boolVal := p.2.label.bool
  children := p.2.children.length
  childStart := if p.2.label.type = .array ∨ p.2.label.type = .object then p.1 + 1 else 0

/-! ## White space and single characters -/

lemma jsonSkipWs_append (hw : Ws w) (l : List UInt8) : jsonSkipWs (w ++ l) = jsonSkipWs l := by
  unfold jsonSkipWs
  induction w with
  | nil => rfl
  | cons c w ih =>
    unfold Ws at hw
    rw [forall_mem_cons] at hw
    rw [cons_append, dropWhile_cons_of_pos hw.1, ih hw.2]

lemma jsonSkipWs_cons (hc : isWs c = false) (l : List UInt8) : jsonSkipWs (c :: l) = c :: l := by
  unfold jsonSkipWs
  rw [dropWhile_cons_of_neg (by rw [hc]; simp)]

lemma jsonSkipWs_stop (hw : Ws w) (hc : isWs c = false) (l : List UInt8) : jsonSkipWs (w ++ c :: l) = c :: l := by
  rw [jsonSkipWs_append hw, jsonSkipWs_cons hc]

lemma jsonSkipWs_idem (l : List UInt8) : jsonSkipWs (jsonSkipWs l) = jsonSkipWs l :=
  dropWhile_idempotent isWs l

lemma skipChar_cons (c : UInt8) (l : List UInt8) : skipChar c (c :: l) = l := if_pos rfl

/-! ## Strings -/

lemma cstring_map_val (s : CStr) : cstring (s.map Subtype.val) = s := by
  induction s with
  | nil => rfl
  | cons c s ih =>
    rw [map_cons, cstring, dif_pos c.property, ih]

lemma stringLoop_quote (post buf : List UInt8) : stringLoop (chQuote :: post) buf = (buf, post) := by
  rw [stringLoop.eq_def]
  exact if_pos rfl

lemma stringLoop_plain (hq : c ≠ chQuote) (hb : c ≠ chBackslash) (rest buf : List UInt8) :
    stringLoop (c :: rest) buf = stringLoop rest (buf ++ [c]) := by
  rw [stringLoop.eq_def]
  simp only
  rw [if_neg hq, if_neg hb]

lemma stringLoop_escape (e : UInt8) (rest buf : List UInt8) :
    stringLoop (chBackslash :: e :: rest) buf = stringLoop rest (buf ++ [unescape e]) := by
  have hne : chBackslash ≠ chQuote := by decide
  rw [stringLoop.eq_def]
  simp only
  rw [if_neg hne, if_pos trivial]

lemma stringLoop_renders {s : CStr} (h : RendersChars s r) (buf post : List UInt8) :
    stringLoop (r ++ chQuote :: post) buf = (buf ++ s.map Subtype.val, post) := by
  induction s generalizing r buf with
  | nil =>
    have hr : r = [] := h
    rw [hr, nil_append, stringLoop_quote, map_nil, append_nil]
  | cons c s ih =>
    obtain ⟨r', hr', hcases⟩ := h
    rcases hcases with ⟨hq, hb, rfl⟩ | ⟨e, -, he, rfl⟩
    · rw [cons_append, stringLoop_plain hq hb, ih hr', append_assoc]
      rfl
    · rw [cons_append, cons_append, stringLoop_escape, ih hr', he, append_assoc]
      rfl

lemma jsonParseStringRaw_renders {s : CStr} (h : RendersStr s x) (post : List UInt8) :
    jsonParseStringRaw (x ++ post) = (some s, post) := by
  obtain ⟨r, hr, rfl⟩ := h
  have hloop := stringLoop_renders hr [] post
  rw [cons_append, append_assoc, singleton_append, jsonParseStringRaw,
    if_neg (not_not_intro rfl), hloop]
  simp only [nil_append, cstring_map_val]

/-! ## Numbers -/

lemma foldl_digitStep_none (ds : List UInt8) : ds.foldl digitStep none = none := by
  induction ds with
  | nil => rfl
  | cons d ds ih => exact ih

lemma le_foldl_decimal (ds : List UInt8) (v : Nat) : v ≤ ds.foldl (fun v d => v * 10 + (d.toNat - 0x30)) v := by
  induction ds generalizing v with
  | nil => exact Nat.le_refl v
  | cons d ds ih =>
    have hstep : v ≤ v * 10 + (d.toNat - 0x30) := by omega
    exact Nat.le_trans hstep (ih _)

/-- The loop computes the number, or overflows when the number does not fit. -/
lemma foldl_digitStep (ds : List UInt8) {v : Nat} (hv : v < 2 ^ 63) :
    ds.foldl digitStep (some v) =
      let n := ds.foldl (fun v d => v * 10 + (d.toNat - 0x30)) v
      if n < 2 ^ 63 then some n else none := by
  induction ds generalizing v with
  | nil =>
    show some v = if v < 2 ^ 63 then some v else none
    rw [if_pos hv]
  | cons d ds ih =>
    rw [foldl_cons, foldl_cons]
    by_cases hstep : v * 10 + (d.toNat - 0x30) < 2 ^ 63
    · have hd : digitStep (some v) d = some (v * 10 + (d.toNat - 0x30)) := if_pos hstep
      rw [hd]
      exact ih hstep
    · have hd : digitStep (some v) d = none := if_neg hstep
      have hle := le_foldl_decimal ds (v * 10 + (d.toNat - 0x30))
      rw [hd, foldl_digitStep_none]
      simp only
      rw [if_neg (by omega)]

/-- Digits after a digit that is not zero: each multiplies the value by ten. -/
lemma pow_le_foldl_decimal (ds : List UInt8) (v : Nat) :
    v * 10 ^ ds.length ≤ ds.foldl (fun v d => v * 10 + (d.toNat - 0x30)) v := by
  induction ds generalizing v with
  | nil => simp
  | cons d ds ih =>
    have hstep : v * 10 * 10 ^ ds.length ≤ (v * 10 + (d.toNat - 0x30)) * 10 ^ ds.length :=
      Nat.mul_le_mul_right _ (Nat.le_add_right _ _)
    rw [length_cons, Nat.pow_succ', ← Nat.mul_assoc]
    exact Nat.le_trans hstep (ih _)

lemma isDigit_iff (c : UInt8) : isDigit c = true ↔ 0x30 ≤ c.toNat ∧ c.toNat ≤ 0x39 := by
  unfold isDigit
  rw [Bool.and_eq_true, decide_eq_true_eq, decide_eq_true_eq, UInt8.le_iff_toNat_le, UInt8.le_iff_toNat_le]
  rfl

lemma Digits.length_le (h : Digits ds) (hv : decimal ds ≤ 2 ^ 63) : ds.length ≤ 19 := by
  obtain ⟨hne, hall, hzero⟩ := h
  obtain ⟨d, r, rfl⟩ := exists_cons_of_ne_nil hne
  have hd := (isDigit_iff d).mp (hall d mem_cons_self)
  by_cases h0 : d = 0x30
  · rw [h0] at hzero
    have := hzero rfl
    rw [length_cons] at this ⊢
    omega
  · have hpos : 1 ≤ d.toNat - 0x30 := by
      have hne0 : d.toNat ≠ 0x30 := fun heq => h0 (UInt8.toNat_inj.mp heq)
      omega
    have hpow := pow_le_foldl_decimal r (d.toNat - 0x30)
    have hdec : decimal (d :: r) = r.foldl (fun v d => v * 10 + (d.toNat - 0x30)) (d.toNat - 0x30) := by
      unfold decimal
      rw [foldl_cons, Nat.zero_mul, Nat.zero_add]
    rw [hdec] at hv
    by_contra hlong
    have hr : 19 ≤ r.length := by
      rw [length_cons] at hlong
      omega
    have hmono : 10 ^ 19 ≤ 10 ^ r.length := Nat.pow_le_pow_right (by omega) hr
    have hmul : 10 ^ r.length ≤ (d.toNat - 0x30) * 10 ^ r.length := Nat.le_mul_of_pos_left _ hpos
    omega

lemma skipChar_ne {x : UInt8} (h : x ≠ c) (l : List UInt8) : skipChar c (x :: l) = x :: l := if_neg h

lemma Digits.skipChar (h : Digits ds) (hc : isDigit c = false) : skipChar c ds = ds := by
  obtain ⟨hne, hall, -⟩ := h
  obtain ⟨d, r, rfl⟩ := exists_cons_of_ne_nil hne
  refine skipChar_ne ?_ r
  rintro rfl
  rw [hall d mem_cons_self] at hc
  exact absurd hc (by simp)

lemma Digits.value (h : Digits ds) : (ds.takeWhile isDigit).foldl digitStep (some 0) =
      if decimal ds < 2 ^ 63 then some (decimal ds) else none := by
  rw [takeWhile_eq_self_iff.mpr h.2.1]
  exact foldl_digitStep ds (by decide)

/-- **Numbers.** A number token has at most twenty characters, begins with a digit or a minus sign,
and is read as the number unless this is the smallest one. -/
theorem jsonNumVal_renders {z : Int64} (h : RendersNum z x) : x.length < 24 ∧ (∀ c ∈ x, isNumChar c = true) ∧
    (∃ c r, x = c :: r ∧ (c = chMinus ∨ isDigit c = true)) ∧ jsonNumVal x = readNum z := by
  obtain ⟨ds, hds, hcases⟩ := h
  have hlo := z.le_toInt
  have hhi := z.toInt_lt
  have hmin : z = Int64.minValue ↔ z.toInt = -2 ^ 63 := by
    rw [← Int64.toInt_inj]
    rfl
  have hlen : ds.length ≤ 19 := hds.length_le (by omega)
  have hnum : ∀ c ∈ ds, isNumChar c = true := by
    intro c hc
    unfold isNumChar
    rw [hds.2.1 c hc]
    rfl
  obtain ⟨d, r, hdr⟩ := exists_cons_of_ne_nil hds.1
  have hd : isDigit d = true := hds.2.1 d (by rw [hdr]; exact mem_cons_self)
  rcases hcases with ⟨rfl, hz⟩ | ⟨rfl, hz⟩
  · refine ⟨by omega, hnum, ⟨d, r, hdr, Or.inr hd⟩, ?_⟩
    have hhead : x.head? ≠ some chMinus := by
      rw [hdr, head?_cons, ne_eq, Option.some.injEq]
      rintro rfl
      exact absurd hd (by decide)
    unfold jsonNumVal readNum
    simp only
    rw [hds.skipChar (by decide), hds.skipChar (by decide), hds.value, if_pos (by omega),
      if_neg (by rw [hmin]; omega)]
    simp only [Option.map_some, hhead, if_false]
    rw [← hz, Int64.ofInt_toInt]
  · refine ⟨by rw [length_cons]; omega, ?_, ⟨chMinus, ds, rfl, Or.inl rfl⟩, ?_⟩
    · rw [forall_mem_cons]
      exact ⟨by decide, hnum⟩
    · unfold jsonNumVal readNum
      simp only
      rw [skipChar_cons, hds.skipChar (by decide), hds.value]
      by_cases hfit : decimal ds < 2 ^ 63
      · rw [if_pos hfit, if_neg (by rw [hmin]; omega)]
        simp only [Option.map_some, head?_cons, if_true]
        rw [← hz, Int64.ofInt_toInt]
      · rw [if_neg hfit, if_pos (by rw [hmin]; omega)]
        rfl

/-! ## Writing to the table -/

variable {t : JsonTree} {b post : List UInt8}

lemma setNode_append (l : JsonTree) (f : JsonNode → JsonNode) (h : idx < t.length) :
    setNode (t ++ l) idx f = setNode t idx f ++ l :=
  modify_append f l h

lemma setNode_at (t l : JsonTree) (n : JsonNode) (f : JsonNode → JsonNode) :
    setNode (t ++ n :: l) t.length f = t ++ f n :: l :=
  modify_length_append f t l n

lemma length_setNode (t : JsonTree) (idx : Nat) (f : JsonNode → JsonNode) : (setNode t idx f).length = t.length := by
  unfold setNode
  exact length_modify f t idx

lemma setNode_setNode (t : JsonTree) (idx : Nat) (f g : JsonNode → JsonNode) :
    setNode (setNode t idx f) idx g = setNode t idx (g ∘ f) := by
  unfold setNode
  exact modify_modify_eq f g idx t

/-- `addChild`, `n` times. -/
def addChildren (k : Nat) (n : JsonNode) : JsonNode := { n with children := n.children + k }

lemma addChildren_comp (k : Nat) : addChildren k ∘ JsonNode.addChild = addChildren (k + 1) := by
  funext n
  show { n with children := n.children + 1 + k } = { n with children := n.children + (k + 1) }
  rw [Nat.add_assoc, Nat.add_comm 1 k]

/-! ## One value -/

/-- What follows a value does not continue a number. -/
def NumStop (post : List UInt8) : Prop := ∀ c, post.head? = some c → isNumChar c = false

section Value

variable {fuel : Nat} {rest : List UInt8} {t : JsonTree} (ht : t.length < jsonMaxNodes)
include ht

lemma jsonParseValue_string (h : jsonSkipWs rest = chQuote :: r) :
    jsonParseValue (fuel + 1) rest t = some (some t.length, (jsonParseStringRaw (chQuote :: r)).2,
      t ++ [{ JsonNode.zero with type := .string, strVal := (jsonParseStringRaw (chQuote :: r)).1 }]) := by
  rw [jsonParseValue, if_neg (Nat.not_le.mpr ht)]
  simp only [h, if_true, setNode_at]

lemma jsonParseValue_bool {b : Bool} (h : jsonSkipWs rest =
    (if b then [0x74, 0x72, 0x75, 0x65] else [0x66, 0x61, 0x6C, 0x73, 0x65]) ++ r) :
    jsonParseValue (fuel + 1) rest t = some (some t.length, r,
      t ++ [{ JsonNode.zero with type := .bool, boolVal := b }]) := by
  rw [jsonParseValue, if_neg (Nat.not_le.mpr ht)]
  cases b <;>
  · simp only [h, setNode_at, if_true, Bool.false_eq_true, if_false, cons_append]
    rfl

lemma jsonParseValue_null (h : jsonSkipWs rest = [0x6E, 0x75, 0x6C, 0x6C] ++ r) : jsonParseValue (fuel + 1) rest t =
      some (some t.length, r, t ++ [{ JsonNode.zero with type := .null }]) := by
  rw [jsonParseValue, if_neg (Nat.not_le.mpr ht)]
  simp only [h, setNode_at, cons_append]
  rfl

lemma jsonParseValue_num {z : Int64} (hx : RendersNum z x) (hpost : NumStop post)
    (h : jsonSkipWs rest = x ++ post) : jsonParseValue (fuel + 1) rest t =
      some (some t.length, post, t ++ [{ JsonNode.zero with type := .number, numVal := readNum z }]) := by
  obtain ⟨hlen, hall, ⟨c, r, hcr, hc⟩, hval⟩ := jsonNumVal_renders hx
  -- no other branch of the parser starts with this character
  have hother : ∀ d, d ≠ chMinus → isDigit d = false → c ≠ d := by
    rintro d hm hd rfl
    rcases hc with hc | hc
    · exact hm hc
    · rw [hc] at hd
      exact absurd hd (by simp)
  have htake : (x ++ post).takeWhile isNumChar = x := by
    rw [takeWhile_append_of_pos hall, takeWhile_eq_nil_iff.mpr, append_nil]
    intro hne
    rw [hpost _ (head?_eq_getElem? ▸ getElem?_eq_getElem hne)]
    simp
  have hdrop : (x ++ post).dropWhile isNumChar = post := by
    have := takeWhile_append_dropWhile (p := isNumChar) (l := x ++ post)
    rw [htake] at this
    exact append_cancel_left this
  have hcons : x ++ post = c :: (r ++ post) := by rw [hcr, cons_append]
  rw [jsonParseValue, if_neg (Nat.not_le.mpr ht)]
  simp only [h, setNode_at]
  rw [htake, hdrop, if_pos hlen, hval, hcons]
  simp only
  rw [if_neg (hother _ (by decide) (by decide)), if_neg (hother _ (by decide) (by decide)),
    if_neg (hother _ (by decide) (by decide)), if_neg (hother _ (by decide) (by decide)),
    if_neg (hother _ (by decide) (by decide)), if_neg (hother _ (by decide) (by decide)), if_pos hc]

lemma jsonParseValue_array (h : jsonSkipWs rest = chLBracket :: r) :
    jsonParseValue (fuel + 1) rest t =
      let t' := t ++ [{ JsonNode.zero with type := .array, childStart := t.length + 1 }]
      if jsonSkipWs r ≠ [] ∧ (jsonSkipWs r).head? ≠ some chRBracket then
        (arrayLoop fuel t.length (jsonSkipWs r) t').map (fun p => (some t.length, skipChar chRBracket p.1, p.2))
      else some (some t.length, skipChar chRBracket (jsonSkipWs r), t') := by
  rw [jsonParseValue, if_neg (Nat.not_le.mpr ht)]
  simp only [h, setNode_at, length_append, length_singleton]
  rw [if_neg (by decide), if_neg (by decide), if_pos trivial]
  cases arrayLoop fuel t.length (jsonSkipWs r)
    (t ++ [{ JsonNode.zero with type := .array, childStart := t.length + 1 }]) <;> rfl

lemma jsonParseValue_object (h : jsonSkipWs rest = chLBrace :: r) :
    jsonParseValue (fuel + 1) rest t =
      let t' := t ++ [{ JsonNode.zero with type := .object, childStart := t.length + 1 }]
      if jsonSkipWs r ≠ [] ∧ (jsonSkipWs r).head? ≠ some chRBrace then
        (objectLoop fuel t.length (jsonSkipWs r) t').map (fun p => (some t.length, skipChar chRBrace p.1, p.2))
      else some (some t.length, skipChar chRBrace (jsonSkipWs r), t') := by
  rw [jsonParseValue, if_neg (Nat.not_le.mpr ht)]
  simp only [h, setNode_at, length_append, length_singleton]
  rw [if_neg (by decide), if_pos trivial]
  cases objectLoop fuel t.length (jsonSkipWs r)
    (t ++ [{ JsonNode.zero with type := .object, childStart := t.length + 1 }]) <;> rfl

end Value

/-! ## The recursion -/

lemma isNumChar_of_isWs (h : isWs c = true) : isNumChar c = false := by
  unfold isWs at h
  simp only [Bool.or_eq_true, decide_eq_true_eq] at h
  rcases h with ((rfl | rfl) | rfl) | rfl <;> decide

variable {v : Json}

/-- The text of a value begins with a character that is neither white space nor a closing
bracket. -/
lemma Renders.head (h : Renders v x) : ∃ c r, x = c :: r ∧ isWs c = false ∧ c ≠ chRBracket := by
  cases v with
  | null =>
    rw [Renders] at h
    exact ⟨_, _, h, by decide, by decide⟩
  | bool b =>
    rw [Renders] at h
    cases b with
    | false => exact ⟨_, _, h, by decide, by decide⟩
    | true => exact ⟨_, _, h, by decide, by decide⟩
  | num z =>
    rw [Renders] at h
    obtain ⟨-, hall, ⟨c, r, rfl, hc⟩, -⟩ := jsonNumVal_renders h
    refine ⟨c, r, rfl, ?_, ?_⟩
    · by_contra hws
      have hnum := hall c mem_cons_self
      rw [isNumChar_of_isWs (Bool.eq_true_of_not_eq_false hws)] at hnum
      exact absurd hnum (by simp)
    · rintro rfl
      exact absurd (hall _ mem_cons_self) (by decide)
  | str s =>
    rw [Renders] at h
    obtain ⟨r, -, rfl⟩ := h
    exact ⟨_, _, rfl, by decide, by decide⟩
  | arr es =>
    rw [Renders] at h
    obtain ⟨b, rfl, -⟩ := h
    exact ⟨_, _, rfl, by decide, by decide⟩
  | obj ms =>
    rw [Renders] at h
    obtain ⟨b, rfl, -⟩ := h
    exact ⟨_, _, rfl, by decide, by decide⟩

lemma Renders.length_pos (h : Renders v x) : 0 < x.length := by
  obtain ⟨c, r, rfl, -, -⟩ := h.head
  exact Nat.succ_pos _

lemma Renders.jsonSkipWs (h : Renders v x) (hw : Ws w) (post : List UInt8) :
    jsonSkipWs (w ++ (x ++ post)) = x ++ post := by
  obtain ⟨c, r, rfl, hc, -⟩ := h.head
  exact jsonSkipWs_stop hw hc (r ++ post)

/-- White space before a character that ends a value does not continue a number. -/
lemma numStop_append (hw : Ws w) (hc : isNumChar c = false) (l : List UInt8) : NumStop (w ++ c :: l) := by
  intro d hd
  cases w with
  | nil =>
    rw [nil_append, head?_cons, Option.some.injEq] at hd
    rw [← hd]
    exact hc
  | cons e w =>
    rw [cons_append, head?_cons, Option.some.injEq] at hd
    rw [← hd]
    exact isNumChar_of_isWs (hw e mem_cons_self)

lemma Json.tree_children (v : Json) (k : Option CStr) : (v.tree k).children = (v.tree none).children := by
  cases v <;> rw [Json.tree, Json.tree] <;> rfl

lemma Json.size_tree (v : Json) (k : Option CStr) : (v.tree k).size = (v.tree none).size := by
  cases v <;> simp only [Json.tree, size_node]

lemma setKey_table (t : JsonTree) (v : Json) (k : CStr) :
    setNode (t ++ RoseTree.table toNode t.length (v.tree none)) t.length (JsonNode.setKey (some k)) =
      t ++ RoseTree.table toNode t.length (v.tree (some k)) := by
  rw [table_eq, table_eq, setNode_at, Json.tree_children v (some k)]
  cases v <;> simp only [Json.tree] <;> rfl

/-- One round of a loop writes a table behind those in use and counts a child of the node `idx`. -/
lemma setNode_addChild (c : RoseTree JsonLabel) (hidx : idx < t.length) :
    setNode (t ++ RoseTree.table toNode t.length c) idx JsonNode.addChild =
      setNode t idx (addChildren 1) ++ RoseTree.table toNode t.length c :=
  setNode_append _ _ hidx

lemma length_round (t : JsonTree) (c : RoseTree JsonLabel) (idx : Nat) :
    (setNode (t ++ RoseTree.table toNode t.length c) idx JsonNode.addChild).length = t.length + c.size := by
  rw [length_setNode, length_append, RoseTree.length_table]

lemma setNode_addChildren (c : RoseTree JsonLabel) (cs : List (RoseTree JsonLabel)) (k : Nat)
    (hidx : idx < t.length) :
    let t' := setNode (t ++ RoseTree.table toNode t.length c) idx JsonNode.addChild
    setNode t' idx (addChildren k) ++ RoseTree.tables toNode t'.length cs =
      setNode t idx (addChildren (k + 1)) ++ RoseTree.tables toNode t.length (c :: cs) := by
  intro t'
  rw [length_round, setNode_setNode, addChildren_comp, setNode_append _ _ hidx, append_assoc, tables_cons]

/-- The parser at a value: it takes the text of the value and appends its table. -/
def ValueSpec (fuel : Nat) : Prop :=
  ∀ v x rest post (t : JsonTree), Renders v x → jsonSkipWs rest = x ++ post → NumStop post →
    t.length + (v.tree none).size ≤ jsonMaxNodes → 2 * x.length ≤ fuel →
    jsonParseValue fuel rest t = some (some t.length, post, t ++ RoseTree.table toNode t.length (v.tree none))

/-- The loop at the elements of the array in slot `idx` stops at the bracket, with their tables
appended and counted. -/
def ArraySpec (fuel : Nat) : Prop :=
  ∀ v es b rest post (t : JsonTree) idx, RendersElems (v :: es) b →
    jsonSkipWs rest = jsonSkipWs (b ++ chRBracket :: post) → idx < t.length →
    t.length + RoseTree.sizes (elemTrees (v :: es)) ≤ jsonMaxNodes → 2 * b.length + 1 ≤ fuel →
    arrayLoop fuel idx rest t = some (chRBracket :: post,
      setNode t idx (addChildren (v :: es).length) ++ RoseTree.tables toNode t.length (elemTrees (v :: es)))

/-- The loop at the members of the object in slot `idx`. -/
def ObjectSpec (fuel : Nat) : Prop :=
  ∀ m ms b rest post (t : JsonTree) idx, RendersMembers (m :: ms) b →
    jsonSkipWs rest = jsonSkipWs (b ++ chRBrace :: post) → idx < t.length →
    t.length + RoseTree.sizes (memberTrees (m :: ms)) ≤ jsonMaxNodes → 2 * b.length + 1 ≤ fuel →
    objectLoop fuel idx rest t = some (chRBrace :: post,
      setNode t idx (addChildren (m :: ms).length) ++ RoseTree.tables toNode t.length (memberTrees (m :: ms)))

variable {fuel : Nat}

lemma arraySpec_succ (hV : ValueSpec fuel) (hA : ArraySpec fuel) : ArraySpec (fuel + 1) := by
  intro v es b rest post t idx hb hrest hidx hsize hfuel
  rw [elemTrees, sizes_cons] at hsize
  cases es with
  | nil =>
    rw [RendersElems] at hb
    obtain ⟨w, x, w', hw, hw', hx, rfl⟩ := hb
    have hskip : jsonSkipWs rest = x ++ (w' ++ chRBracket :: post) := by
      rw [hrest, append_assoc, append_assoc, hx.jsonSkipWs hw]
    simp only [length_append] at hfuel
    have hval := hV v x rest _ t hx hskip (numStop_append hw' (by decide) post) (by omega) (by omega)
    have hpost : jsonSkipWs (w' ++ chRBracket :: post) = chRBracket :: post := jsonSkipWs_stop hw' (by decide) post
    rw [arrayLoop, hval]
    simp only [Option.isSome_some, if_true, hpost]
    rw [if_neg (by simp; decide), setNode_addChild _ hidx, elemTrees, elemTrees, tables_cons,
      tables_nil, append_nil]
    rfl
  | cons u es =>
    rw [RendersElems] at hb
    obtain ⟨w, x, w', b', hw, hw', hx, rfl, hb'⟩ := hb
    have hskip : jsonSkipWs rest = x ++ (w' ++ chComma :: (b' ++ chRBracket :: post)) := by
      rw [hrest, append_assoc, append_assoc, append_assoc, hx.jsonSkipWs hw, cons_append]
    simp only [length_append, length_cons] at hfuel
    have hval := hV v x rest _ t hx hskip (numStop_append hw' (by decide) _) (by omega) (by omega)
    have hpost : jsonSkipWs (w' ++ chComma :: (b' ++ chRBracket :: post)) = chComma :: (b' ++ chRBracket :: post) :=
      jsonSkipWs_stop hw' (by decide) _
    have hlen := length_round t (v.tree none) idx
    have hloop := hA u es b' (b' ++ chRBracket :: post) post _ idx hb' rfl
      (by rw [hlen]; omega) (by rw [hlen]; omega) (by omega)
    rw [arrayLoop, hval]
    simp only [Option.isSome_some, if_true, hpost, head?_cons, tail_cons]
    rw [hloop, setNode_addChildren _ _ _ hidx]
    rfl

lemma objectLoop_round (hV : ValueSpec fuel) {k : CStr} {y w₁ w₂ rest : List UInt8}
    (idx : Nat) (hy : RendersStr k y) (hw₁ : Ws w₁) (hw₂ : Ws w₂) (hx : Renders v x)
    (hpost : NumStop post) (hrest : jsonSkipWs rest = y ++ (w₁ ++ chColon :: (w₂ ++ (x ++ post))))
    (hsize : t.length + (v.tree none).size ≤ jsonMaxNodes) (hfuel : 2 * x.length ≤ fuel) :
    objectLoop (fuel + 1) idx rest t =
      let t' := setNode (t ++ RoseTree.table toNode t.length (v.tree (some k))) idx JsonNode.addChild
      if (jsonSkipWs post).head? = some chComma then objectLoop fuel idx (jsonSkipWs post).tail t'
      else some (jsonSkipWs post, t') := by
  have hhead : ¬ (jsonSkipWs rest = [] ∨ (jsonSkipWs rest).head? = some chRBrace) := by
    obtain ⟨r, -, rfl⟩ := hy
    rw [hrest, cons_append, head?_cons]
    simp
    decide
  have hcolon : skipChar chColon (jsonSkipWs (w₁ ++ chColon :: (w₂ ++ (x ++ post)))) = w₂ ++ (x ++ post) := by
    rw [jsonSkipWs_stop hw₁ (by decide), skipChar_cons]
  have hval := hV v x (w₂ ++ (x ++ post)) post t hx (hx.jsonSkipWs hw₂ post) hpost hsize hfuel
  rw [objectLoop, if_neg hhead, hrest, jsonParseStringRaw_renders hy]
  simp only
  rw [hcolon, hval]
  simp only [setKey_table]

lemma objectSpec_succ (hV : ValueSpec fuel) (hO : ObjectSpec fuel) : ObjectSpec (fuel + 1) := by
  rintro ⟨k, v⟩ ms b rest post t idx hb hrest hidx hsize hfuel
  rw [memberTrees, sizes_cons, Json.size_tree] at hsize
  -- the loop skips the white space before the key
  have hkey : ∀ {w y : List UInt8} (l : List UInt8), Ws w → RendersStr k y → jsonSkipWs (w ++ (y ++ l)) = y ++ l := by
    rintro w y l hw ⟨r, -, rfl⟩
    exact jsonSkipWs_stop hw (c := chQuote) (by decide) (r ++ [chQuote] ++ l)
  cases ms with
  | nil =>
    rw [RendersMembers] at hb
    obtain ⟨w, y, w₁, w₂, x, w', hw, hw₁, hw₂, hw', hy, hx, rfl⟩ := hb
    have hskip : jsonSkipWs rest =
        y ++ (w₁ ++ chColon :: (w₂ ++ (x ++ (w' ++ chRBrace :: post)))) := by
      rw [hrest]
      simp only [append_assoc, cons_append]
      exact hkey _ hw hy
    simp only [length_append, length_cons] at hfuel
    have hpost : jsonSkipWs (w' ++ chRBrace :: post) = chRBrace :: post := jsonSkipWs_stop hw' (by decide) post
    rw [objectLoop_round hV idx hy hw₁ hw₂ hx (numStop_append hw' (by decide) post) hskip (by omega) (by omega)]
    simp only [hpost]
    rw [if_neg (by simp; decide), setNode_addChild _ hidx, memberTrees, memberTrees, tables_cons,
      tables_nil, append_nil]
    rfl
  | cons u ms =>
    rw [RendersMembers] at hb
    obtain ⟨w, y, w₁, w₂, x, w', b', hw, hw₁, hw₂, hw', hy, hx, rfl, hb'⟩ := hb
    have hskip : jsonSkipWs rest =
        y ++ (w₁ ++ chColon :: (w₂ ++ (x ++ (w' ++ chComma :: (b' ++ chRBrace :: post))))) := by
      rw [hrest]
      simp only [append_assoc, cons_append]
      exact hkey _ hw hy
    simp only [length_append, length_cons] at hfuel
    have hpost : jsonSkipWs (w' ++ chComma :: (b' ++ chRBrace :: post)) = chComma :: (b' ++ chRBrace :: post) :=
      jsonSkipWs_stop hw' (by decide) _
    have hlen := length_round t (v.tree (some k)) idx
    rw [Json.size_tree] at hlen
    have hloop := hO u ms b' (b' ++ chRBrace :: post) post _ idx hb' rfl
      (by rw [hlen]; omega) (by rw [hlen]; omega) (by omega)
    rw [objectLoop_round hV idx hy hw₁ hw₂ hx (numStop_append hw' (by decide) _) hskip (by omega) (by omega)]
    simp only [hpost, head?_cons, tail_cons, if_true]
    rw [hloop, setNode_addChildren _ _ _ hidx]
    rfl

lemma RendersElems.head {es : List Json} (h : RendersElems (v :: es) b)
    (post : List UInt8) : jsonSkipWs (b ++ post) ≠ [] ∧ (jsonSkipWs (b ++ post)).head? ≠ some chRBracket := by
  obtain ⟨w, x, l, hw, hx, rfl⟩ : ∃ w x l, Ws w ∧ Renders v x ∧ b = w ++ (x ++ l) := by
    cases es with
    | nil =>
      rw [RendersElems] at h
      obtain ⟨w, x, w', hw, -, hx, rfl⟩ := h
      exact ⟨w, x, w', hw, hx, rfl⟩
    | cons u es =>
      rw [RendersElems] at h
      obtain ⟨w, x, w', b', hw, -, hx, rfl, -⟩ := h
      exact ⟨w, x, _, hw, hx, rfl⟩
  obtain ⟨c, r, hcr, -, hc⟩ := hx.head
  rw [append_assoc, append_assoc, hx.jsonSkipWs hw, hcr, cons_append, head?_cons]
  exact ⟨cons_ne_nil _ _, fun heq => hc (Option.some.inj heq)⟩

lemma RendersMembers.head {m : CStr × Json} {ms : List (CStr × Json)}
    (h : RendersMembers (m :: ms) b) (post : List UInt8) :
    jsonSkipWs (b ++ post) ≠ [] ∧ (jsonSkipWs (b ++ post)).head? ≠ some chRBrace := by
  obtain ⟨w, r, l, hw, rfl⟩ : ∃ w r l, Ws w ∧ b = w ++ (chQuote :: r ++ l) := by
    cases ms with
    | nil =>
      rw [RendersMembers] at h
      obtain ⟨w, y, w₁, w₂, x, w', hw, -, -, -, ⟨r, -, rfl⟩, -, rfl⟩ := h
      exact ⟨w, _, _, hw, rfl⟩
    | cons u ms =>
      rw [RendersMembers] at h
      obtain ⟨w, y, w₁, w₂, x, w', b', hw, -, -, -, ⟨r, -, rfl⟩, -, rfl, -⟩ := h
      exact ⟨w, _, _, hw, rfl⟩
  rw [append_assoc, cons_append, cons_append, jsonSkipWs_stop hw (by decide), head?_cons]
  exact ⟨cons_ne_nil _ _, by decide⟩

lemma length_elemTrees (es : List Json) : (elemTrees es).length = es.length := by
  induction es with
  | nil => rw [elemTrees]; rfl
  | cons v es ih => rw [elemTrees, length_cons, length_cons, ih]

lemma length_memberTrees (ms : List (CStr × Json)) : (memberTrees ms).length = ms.length := by
  induction ms with
  | nil => rw [memberTrees]; rfl
  | cons m ms ih => rw [memberTrees, length_cons, length_cons, ih]

lemma addChildren_toNode {ty : JsonType} (hty : ty = .array ∨ ty = .object) (t : JsonTree)
    (cs : List (RoseTree JsonLabel)) :
    setNode (t ++ [{ JsonNode.zero with type := ty, childStart := t.length + 1 }]) t.length
        (addChildren cs.length) ++
      RoseTree.tables toNode (t ++ [{ JsonNode.zero with type := ty, childStart := t.length + 1 }]).length cs =
    t ++ RoseTree.table toNode t.length (.node ⟨none, ty, none, 0, false⟩ cs) := by
  rw [setNode_at, table_eq, length_append, length_singleton, append_assoc,
    singleton_append]
  congr 2
  unfold toNode addChildren JsonNode.zero
  simp only [RoseTree.label, RoseTree.children, hty, if_true, Nat.zero_add]
  rfl

lemma valueSpec_succ (hA : ArraySpec fuel) (hO : ObjectSpec fuel) : ValueSpec (fuel + 1) := by
  intro v x rest post t hx hrest hpost hsize hfuel
  have hpos := (v.tree none).size_pos
  have ht : t.length < jsonMaxNodes := by omega
  cases v with
  | null =>
    rw [Renders] at hx
    rw [jsonParseValue_null ht (hx ▸ hrest), Json.tree]
    rfl
  | bool b =>
    rw [Renders] at hx
    rw [jsonParseValue_bool ht (hx ▸ hrest), Json.tree]
    rfl
  | num z =>
    rw [Renders] at hx
    rw [jsonParseValue_num ht hx hpost hrest, Json.tree]
    rfl
  | str s =>
    rw [Renders] at hx
    have hraw := jsonParseStringRaw_renders hx post
    obtain ⟨r, -, rfl⟩ := hx
    rw [cons_append] at hrest hraw
    rw [jsonParseValue_string ht hrest, hraw, Json.tree]
    rfl
  | arr es =>
    rw [Renders] at hx
    obtain ⟨b, rfl, hb⟩ := hx
    rw [Json.tree] at hsize ⊢
    rw [size_node] at hsize
    rw [cons_append, append_assoc, singleton_append] at hrest
    simp only [length_cons, length_append] at hfuel
    rw [jsonParseValue_array ht hrest]
    cases es with
    | nil =>
      rw [RendersElems] at hb
      have hskip : jsonSkipWs (b ++ chRBracket :: post) = chRBracket :: post := jsonSkipWs_stop hb (by decide) post
      simp only [hskip, head?_cons, skipChar_cons]
      rw [if_neg (by simp), elemTrees, table_eq, RoseTree.children, tables_nil]
      rfl
    | cons u es =>
      have hloop := hA u es b (jsonSkipWs (b ++ chRBracket :: post)) post
        (t ++ [{ JsonNode.zero with type := .array, childStart := t.length + 1 }]) t.length hb
        (jsonSkipWs_idem _) (by simp) (by rw [length_append, length_singleton]; omega) (by omega)
      rw [← length_elemTrees, addChildren_toNode (Or.inl rfl)] at hloop
      simp only
      rw [if_pos (hb.head _), hloop, Option.map_some, skipChar_cons]
  | obj ms =>
    rw [Renders] at hx
    obtain ⟨b, rfl, hb⟩ := hx
    rw [Json.tree] at hsize ⊢
    rw [size_node] at hsize
    rw [cons_append, append_assoc, singleton_append] at hrest
    simp only [length_cons, length_append] at hfuel
    rw [jsonParseValue_object ht hrest]
    cases ms with
    | nil =>
      rw [RendersMembers] at hb
      have hskip : jsonSkipWs (b ++ chRBrace :: post) = chRBrace :: post := jsonSkipWs_stop hb (by decide) post
      simp only [hskip, head?_cons, skipChar_cons]
      rw [if_neg (by simp), memberTrees, table_eq, RoseTree.children, tables_nil]
      rfl
    | cons u ms =>
      have hloop := hO u ms b (jsonSkipWs (b ++ chRBrace :: post)) post
        (t ++ [{ JsonNode.zero with type := .object, childStart := t.length + 1 }]) t.length hb
        (jsonSkipWs_idem _) (by simp) (by rw [length_append, length_singleton]; omega) (by omega)
      rw [← length_memberTrees, addChildren_toNode (Or.inr rfl)] at hloop
      simp only
      rw [if_pos (hb.head _), hloop, Option.map_some, skipChar_cons]

/-- The three descriptions, by induction on the bound: rounds and levels use a part of the text. -/
lemma specs (fuel : Nat) : ValueSpec fuel ∧ ArraySpec fuel ∧ ObjectSpec fuel := by
  induction fuel with
  | zero =>
    refine ⟨?_, ?_, ?_⟩
    · intro v x rest post t hx _ _ _ hfuel
      have := hx.length_pos
      omega
    · intro v es b rest post t idx _ _ _ _ hfuel
      omega
    · intro m ms b rest post t idx _ _ _ _ hfuel
      omega
  | succ fuel ih =>
    obtain ⟨hV, hA, hO⟩ := ih
    exact ⟨valueSpec_succ hA hO, arraySpec_succ hV hA, objectSpec_succ hV hO⟩

/-- **The table of a document.** Whatever the white space, the table has the nodes of the value in
pre-order. -/
theorem jsonParse_document {text : List UInt8} (h : Document v text)
    (hsize : (v.tree none).size ≤ jsonMaxNodes) : jsonParse text = some (RoseTree.table toNode 0 (v.tree none)) := by
  obtain ⟨w, x, w', hw, hw', hx, rfl⟩ := h
  have hstop : NumStop w' := by
    intro c hc
    exact isNumChar_of_isWs (hw' c (mem_of_mem_head? hc))
  have hval := (specs (2 * (w ++ (x ++ w')).length + 2)).1 v x (w ++ (x ++ w')) w' [] hx (hx.jsonSkipWs hw w')
    hstop (by rw [length_nil]; omega) (by simp only [length_append]; omega)
  unfold jsonParse
  rw [hval, Option.map_some, nil_append, length_nil]

end PigOS.Crypto
