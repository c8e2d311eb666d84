import PigOS.Crypto.Json

/-!
# `Crypto.JsonBuffer` — the JSON parser on its arrays

`src` with the index `pos`, a string buffer with its capacity, the buffer of a number, and the 1024
slots of the table. The result is `none` where an access would be outside: a read of `src` at or
behind `len`, a position behind `len`, a byte of a string outside of the buffer that `km` has
returned, a capacity that is not an `int`, a slot that the table does not have; and when a loop or
the recursion makes more rounds than it is given.
-/

namespace PigOS.Crypto

open Kernel

/-- The parser: `src[0..len)` and `pos`. -/
structure JsonParser where
  src : List UInt8
  pos : Nat
  deriving DecidableEq

namespace JsonParser

def len (p : JsonParser) : Nat := p.src.length

/-- `p->src[i]`. -/
def read (p : JsonParser) (i : Nat) : Option UInt8 := p.src[i]?

/-- `p->pos+=k`. -/
def advance (p : JsonParser) (k : Nat) : Option JsonParser :=
  if p.pos + k ≤ p.len then some { p with pos := p.pos + k } else none

/-- `p->pos<p->len&&test(p->src[p->pos])`. -/
def next (p : JsonParser) (test : UInt8 → Bool) : Option Bool :=
  if p.pos < p.len then (p.read p.pos).map test else some false

/-- `while(p->pos<p->len){ if(accept(p->src[p->pos])) p->pos++; else break; }` -/
def scan (accept : UInt8 → Bool) : Nat → JsonParser → Option JsonParser
  | 0, _ => none
  | rounds + 1, p => do
      if ← p.next accept then scan accept rounds (← p.advance 1) else some p

def jsonSkipWs (p : JsonParser) : Option JsonParser := scan isWs (p.len + 1) p

/-- `if(p->pos<p->len&&p->src[p->pos]==c) p->pos++;` -/
def skipChar (p : JsonParser) (c : UInt8) : Option JsonParser := do
  if ← p.next (· = c) then p.advance 1 else some p

/-! ## Strings -/

/-- `buf`, of which the first `i` bytes are written, and `cap`. -/
structure StrBuf where
  cap : Nat
  data : List UInt8

/-- `if(i>=cap-2){cap*=2;…}`: the copy reads and writes `i` bytes. -/
def StrBuf.room (b : StrBuf) : Option StrBuf :=
  if b.cap - 2 ≤ b.data.length then
    if b.cap * 2 < 2 ^ 31 ∧ b.data.length ≤ b.cap then some { b with cap := b.cap * 2 } else none
  else some b

/-- `buf[i++]=c`. -/
def StrBuf.put (b : StrBuf) (c : UInt8) : Option StrBuf :=
  if b.data.length < b.cap then some { b with data := b.data ++ [c] } else none

/-- `buf[i]=0`: the string that is returned. -/
def StrBuf.finish (b : StrBuf) : Option CStr := if b.data.length < b.cap then some (cstring b.data) else none

/-- The loop of `json_parse_string_raw`. -/
def stringLoop : Nat → JsonParser → StrBuf → Option (CStr × JsonParser)
  | 0, _, _ => none
  | rounds + 1, p, b => do
      if p.pos < p.len then
        let c ← p.read p.pos
        if c = chQuote then
          let p ← p.advance 1
          let s ← b.finish
          some (s, p)
        else if c = chBackslash then
          let p ← p.advance 1
          if p.pos < p.len then
            let ec ← p.read p.pos
            let b ← b.room
            let b ← b.put (unescape ec)
            let p ← p.advance 1
            stringLoop rounds p b
          else
            let s ← b.finish
            some (s, p)
        else
          let b ← b.room
          let b ← b.put c
          let p ← p.advance 1
          stringLoop rounds p b
      else
        let s ← b.finish
        some (s, p)

def jsonParseStringRaw (p : JsonParser) : Option (Option CStr × JsonParser) := do
  if ← p.next (· = chQuote) then
    let p ← p.advance 1
    let (s, p) ← stringLoop (p.len + 1) p ⟨64, []⟩
    some (some s, p)
  else some (none, p)

/-! ## Literals and numbers -/

/-- `p->src[p->pos+i]==w[0]&&p->src[p->pos+i+1]==w[1]&&…` -/
def follows (p : JsonParser) : Nat → List UInt8 → Option Bool
  | _, [] => some true
  | i, w :: ws => do
      let c ← p.read (p.pos + i)
      if c = w then p.follows (i + 1) ws else some false

/-- Step over a literal whose first character stands at `pos`, if `word`, what follows it, is
there. -/
def skipWord (p : JsonParser) (word : List UInt8) : Option JsonParser := do
  if p.pos + word.length < p.len then
    if ← p.follows 1 word then p.advance (word.length + 1) else some p
  else some p

/-- The number token at `pos`: `kmc(buf,p->src+start,slen)` and the terminator go into 32 bytes. -/
def number (p : JsonParser) : Option (Option Int64 × JsonParser) := do
  let q ← scan isNumChar (p.len + 1) p
  let slen := q.pos - p.pos
  if 0 < slen ∧ slen < 24 then
    if p.pos + slen ≤ p.len ∧ slen < 32 then some (jsonNumVal ((p.src.drop p.pos).take slen), q) else none
  else some (some 0, q)

/-! ## Values -/

/-- A store to the node in slot `idx`. -/
def store (t : JsonTree) (idx : Nat) (f : JsonNode → JsonNode) : Option JsonTree :=
  if idx < jsonMaxNodes then some (setNode t idx f) else none

mutual

/-- `json_parse_value`. -/
def jsonParseValue : Nat → JsonParser → JsonTree → Option (Option Nat × JsonParser × JsonTree)
  | 0, _, _ => none
  | fuel + 1, p, t =>
    if jsonMaxNodes ≤ t.length then some (none, p, t)
    else do
      let idx := t.length
      let t := t ++ [JsonNode.zero]
      let p ← p.jsonSkipWs
      if p.pos < p.len then
        let c ← p.read p.pos
        if c = chQuote then
          let (s, p) ← p.jsonParseStringRaw
          let t ← store t idx (fun n => { n with type := .string, strVal := s })
          some (some idx, p, t)
        else if c = chLBrace then
          let p ← p.advance 1
          let t ← store t idx (fun n => { n with type := .object, childStart := t.length })
          let p ← p.jsonSkipWs
          let more ← p.next (· ≠ chRBrace)
          let (p, t) ← if more then objectLoop fuel idx p t else some (p, t)
          let p ← p.skipChar chRBrace
          some (some idx, p, t)
        else if c = chLBracket then
          let p ← p.advance 1
          let t ← store t idx (fun n => { n with type := .array, childStart := t.length })
          let p ← p.jsonSkipWs
          let more ← p.next (· ≠ chRBracket)
          let (p, t) ← if more then arrayLoop fuel idx p t else some (p, t)
          let p ← p.skipChar chRBracket
          some (some idx, p, t)
        else if c = 0x74 then
          let p ← p.skipWord [0x72, 0x75, 0x65]
          let t ← store t idx (fun n => { n with type := .bool, boolVal := true })
          some (some idx, p, t)
        else if c = 0x66 then
          let p ← p.skipWord [0x61, 0x6C, 0x73, 0x65]
          let t ← store t idx (fun n => { n with type := .bool, boolVal := false })
          some (some idx, p, t)
        else if c = 0x6E then
          let p ← p.skipWord [0x75, 0x6C, 0x6C]
          let t ← store t idx (fun n => { n with type := .null })
          some (some idx, p, t)
        else if c = chMinus ∨ isDigit c then
          let (num, p) ← p.number
          let t ← store t idx (fun n => { n with type := .number, numVal := num })
          some (some idx, p, t)
        else some (some idx, p, t)
      else some (none, p, t)

/-- The loop over the members of an object. -/
def objectLoop : Nat → Nat → JsonParser → JsonTree → Option (JsonParser × JsonTree)
  | 0, _, _, _ => none
  | fuel + 1, idx, p, t => do
      let p ← p.jsonSkipWs
      let more ← p.next (· ≠ chRBrace)
      if more then
        let (k, p) ← p.jsonParseStringRaw
        let p ← p.jsonSkipWs
        let p ← p.skipChar chColon
        let (ci, p, t) ← jsonParseValue fuel p t
        let t ← if ci.isSome then (store t (ci.getD 0)
          (JsonNode.setKey k)).bind (store · idx JsonNode.addChild) else some t
        let p ← p.jsonSkipWs
        let again ← p.next (· = chComma)
        if again then objectLoop fuel idx (← p.advance 1) t else some (p, t)
      else some (p, t)

/-- The loop over the elements of an array. -/
def arrayLoop : Nat → Nat → JsonParser → JsonTree → Option (JsonParser × JsonTree)
  | 0, _, _, _ => none
  | fuel + 1, idx, p, t => do
      let (ci, p, t) ← jsonParseValue fuel p t
      let t ← if ci.isSome then store t idx JsonNode.addChild else some t
      let p ← p.jsonSkipWs
      let again ← p.next (· = chComma)
      if again then arrayLoop fuel idx (← p.advance 1) t else some (p, t)

end

/-- `json_parse`: the parser as it ends, and the table. -/
def jsonParse (str : List UInt8) : Option (JsonParser × JsonTree) :=
  (jsonParseValue (2 * str.length + 2) ⟨str, 0⟩ []).map Prod.snd

end JsonParser

end PigOS.Crypto
