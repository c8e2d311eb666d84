import PigOS.Crypto.Correctness.JsonTree
import PigOS.Crypto.Discord
import PigOS.Kernel.Correctness.PathBuffer

/-!
# `Crypto.Correctness.DiscordBody` — no content breaks out of a message

The escaper stops between two characters of the content, and early enough for the end of the body
(`escapeLoop_escaped`). The parser of `json.h` reads back what it writes (`messageBody_parses`).
-/

namespace PigOS.Crypto

open Kernel Kernel.Out PreOrder List

variable {limit : Nat} {body : Bytes} {a content : CStr}

/-- The escape of one character. -/
def escapeChar (c : CChar) : CStr :=
  if c.val = chQuote ∨ c.val = chBackslash then [chr '\\', c] else [c]

/-- The escaped form of a text. -/
def escape (s : CStr) : CStr := s.flatMap escapeChar

lemma escape_cons (c : CChar) (s : CStr) : escape (c :: s) = escapeChar c ++ escape s := flatMap_cons

lemma length_escapeChar_le (c : CChar) : (escapeChar c).length ≤ 2 := by
  rw [escapeChar]
  split <;> simp

lemma length_escapeChar_pos (c : CChar) : 0 < (escapeChar c).length := by
  rw [escapeChar]
  split <;> simp

/-! ## The loop -/

/-- One character: a quote and a backslash are written behind a backslash. -/
lemma escapeLoop_cons {off : Nat} (hoff : off < limit) (c : CChar) (s : CStr) (body : Bytes) :
    escapeLoop limit (c :: s) off body = escapeLoop limit s (off + (escapeChar c).length)
        (if c.val = chQuote ∨ c.val = chBackslash then (body.write off chBackslash).write (off + 1) c.val
        else body.write off c.val) := by
  rw [escapeLoop, if_pos hoff, escapeChar]
  by_cases hq : c.val = chQuote
  · rw [if_pos hq, if_pos (Or.inl hq), if_pos (Or.inl hq), hq]
    rfl
  by_cases hb : c.val = chBackslash
  · rw [if_neg hq, if_pos hb, if_pos (Or.inr hb), if_pos (Or.inr hb), hb]
    rfl
  · rw [if_neg hq, if_neg hb, if_neg (not_or.mpr ⟨hq, hb⟩), if_neg (not_or.mpr ⟨hq, hb⟩)]
    rfl

lemma text_escapeChar {n : Nat} (h : Text n body a) (hroom : a.length + 2 < n) (c : CChar) :
    Text n (if c.val = chQuote ∨ c.val = chBackslash then (body.write a.length chBackslash).write (a.length + 1) c.val
      else body.write a.length c.val) (a ++ escapeChar c) := by
  rw [escapeChar]
  split
  · have hpush := (h.push (by omega) (chr '\\')).push (by simp; omega) c
    rw [length_append, length_singleton, append_assoc] at hpush
    exact hpush
  · exact h.push (by omega) c

/-- What the loop has left behind `a`: the escaped form of `s`, a beginning of the content, all of
it if that fits. -/
structure Escaped (limit : Nat) (content a s : CStr) (r : Nat × Bytes) : Prop where
  front : s <+: content
  off : r.1 = (a ++ escape s).length
  le : (a ++ escape s).length ≤ limit + 1
  text : Text (limit + 4) r.2 (a ++ escape s)
  all : (a ++ escape content).length ≤ limit → s = content

lemma Escaped.cons {s : CStr} {c : CChar} {r : Nat × Bytes}
    (h : Escaped limit content (a ++ escapeChar c) s r) : Escaped limit (c :: content) a (c :: s) r := by
  have happ (s : CStr) : a ++ escape (c :: s) = a ++ escapeChar c ++ escape s := by rw [escape_cons, append_assoc]
  refine ⟨cons_prefix_cons.mpr ⟨rfl, h.front⟩, ?_, ?_, ?_, fun hle => ?_⟩
  · rw [happ]
    exact h.off
  · rw [happ]
    exact h.le
  · rw [happ]
    exact h.text
  · rw [happ] at hle
    rw [h.all hle]

lemma escaped_nil (h : Text (limit + 4) body a) (ha : a.length ≤ limit + 1)
    (hall : (a ++ escape content).length ≤ limit → content = []) : Escaped limit content a [] (a.length, body) := by
  have happ : a ++ escape [] = a := append_nil a
  refine ⟨⟨_, rfl⟩, ?_, ?_, ?_, fun hle => (hall hle).symm⟩
  · rw [happ]
  · rw [happ]
    exact ha
  · rw [happ]
    exact h

/-- **The loop.** A round starts below the limit and takes two bytes at most, so that the text ends
one behind it at the latest. -/
theorem escapeLoop_escaped (content : CStr) (h : Text (limit + 4) body a)
    (ha : a.length ≤ limit + 1) : ∃ s, Escaped limit content a s (escapeLoop limit content a.length body) := by
  induction content generalizing a body with
  | nil => exact ⟨[], escaped_nil h ha fun _ => rfl⟩
  | cons c rest ih =>
    by_cases hlt : a.length < limit
    · have hlen := length_escapeChar_le c
      obtain ⟨s, hs⟩ := ih (text_escapeChar h (by omega) c) (by rw [length_append]; omega)
      rw [escapeLoop_cons hlt, ← length_append]
      exact ⟨c :: s, hs.cons⟩
    · rw [escapeLoop, if_neg hlt]
      refine ⟨[], escaped_nil h ha fun hle => ?_⟩
      have hpos := length_escapeChar_pos c
      rw [escape_cons, length_append, length_append] at hle
      omega

/-! ## The text of the body -/

lemma rendersChars_escape (s : CStr) : RendersChars s ((escape s).map Subtype.val) := by
  induction s with
  | nil => rfl
  | cons c s ih =>
    refine ⟨_, ih, ?_⟩
    rw [escape_cons, escapeChar]
    by_cases hc : c.val = chQuote ∨ c.val = chBackslash
    · refine Or.inr ⟨c.val, ?_, ?_, ?_⟩
      · rcases hc with hc | hc <;> rw [hc] <;> decide
      · rcases hc with hc | hc <;> rw [hc] <;> decide
      · rw [if_pos hc]
        rfl
    · refine Or.inl ⟨fun h => hc (Or.inl h), fun h => hc (Or.inr h), ?_⟩
      rw [if_neg hc]
      rfl

/-- The text of the body of a message. -/
def bodyText (s : CStr) : CStr := bodyStart ++ escape s ++ [chr '"', chr '}']

lemma renders_member {k : CStr} {v : Json} {y x : List UInt8} (hk : RendersStr k y) (hv : Renders v x) :
    Renders (.obj [(k, v)]) (chLBrace :: (y ++ chColon :: x ++ [chRBrace])) := by
  rw [Renders]
  refine ⟨y ++ chColon :: x, rfl, ?_⟩
  rw [RendersMembers]
  exact ⟨[], y, [], [], x, [], by simp [Ws], by simp [Ws], by simp [Ws], by simp [Ws], hk, hv, by simp⟩

lemma renders_bodyText (s : CStr) :
    Renders (.obj [(cstr "content", .str s)]) ((bodyText s).map Subtype.val) := by
  have hkey : RendersStr (cstr "content") (chQuote :: ((cstr "content").map Subtype.val ++ [chQuote])) :=
    ⟨_, rendersChars_escape (cstr "content"), by decide⟩
  have hval : Renders (.str s) (chQuote :: ((escape s).map Subtype.val ++ [chQuote])) := by
    rw [Renders]
    exact ⟨_, rendersChars_escape s, rfl⟩
  have hstart : bodyStart.map Subtype.val =
      chLBrace :: chQuote :: ((cstr "content").map Subtype.val ++ [chQuote, chColon, chQuote]) := by decide
  have htext : (bodyText s).map Subtype.val = chLBrace :: (chQuote :: ((cstr "content").map Subtype.val ++ [chQuote]) ++
      chColon :: (chQuote :: ((escape s).map Subtype.val ++ [chQuote])) ++ [chRBrace]) := by
    rw [bodyText, List.map_append, List.map_append, hstart]
    simp [show (chr '"').val = chQuote by decide, show (chr '}').val = chRBrace by decide]
  rw [htext]
  exact renders_member hkey hval

/-- The nodes that the parser is to leave: an object with one member. -/
def contentTable (s : CStr) : JsonTree :=
  [⟨.object, none, none, some 0, false, 1, 1⟩, ⟨.string, some (cstr "content"), some s, some 0, false, 0, 0⟩]

lemma jsonParse_bodyText (s : CStr) : jsonParse ((bodyText s).map Subtype.val) = some (contentTable s) := by
  rw [jsonParse_document (renders_bodyText s).document
    (by simp [Json.tree, memberTrees, RoseTree.size, RoseTree.sizes, jsonMaxNodes])]
  rfl

/-- **A message body holds its content.** It fits its 1024 bytes, and `json_parse` reads it as an
object with the one member `content`: all of the content if its escaped form has at most 1008 bytes,
else a beginning. -/
theorem messageBody_parses (cells : Nat → UInt8) (content : CStr) :
    ∃ text s, Stored 1024 (messageBody (Buffer.fresh cells) content) text ∧
      jsonParse (text.map Subtype.val) = some (contentTable s) ∧ s <+: content ∧
      ((escape content).length ≤ 1008 → s = content) := by
  have hstart : bodyStart.length = 12 := by decide
  have hcopy : Text (1020 + 4) (kcp (Buffer.fresh cells) bodyStart) bodyStart :=
    (kcp_stored (Nat.zero_le _) (by omega)).text
  obtain ⟨s, hs⟩ := escapeLoop_escaped content hcopy (by omega)
  refine ⟨bodyText s, s, ?_, jsonParse_bodyText s, hs.front, fun hle => hs.all ?_⟩
  · have hle := hs.le
    have hquote := hs.text.push (by omega) (chr '"')
    have hbrace := hquote.push (by rw [List.length_append, List.length_singleton]; omega) (chr '}')
    have hone : (bodyStart ++ escape s ++ [chr '"']).length = (bodyStart ++ escape s).length + 1 := length_append
    have htwo : (bodyStart ++ escape s ++ [chr '"'] ++ [chr '}']).length = (bodyStart ++ escape s).length + 2 := by
      rw [length_append, hone]
      rfl
    have hclose := hbrace.close
    rw [htwo, hone, ← hs.off, append_assoc] at hclose
    exact hclose
  · rw [length_append]
    omega

end PigOS.Crypto
