import PigOS.Kernel.Mem

/-!
# `Crypto.Json` — the JSON parser and its accessors, `crypto/json.h`

`json_parse` fills a table of at most 1024 nodes; a node that holds an array or an object knows the
number of its children and the slot at which they start, and the accessors look for them in
consecutive slots from there.

- The parser's position is the input that is left: `src[pos..len)`.
- The table is the list of the nodes in use, and a pointer to a node is its index; the index `-1` is
  `none`.
- `km` is assumed to succeed. The string buffer, which is doubled before it is full, is a list.
- Adding to a number beyond `2^63 - 1` is undefined in C. The field `numVal` is then `none`.
- The recursion is bounded by a number that no input reaches; running out of it is the outer `none`.
-/

namespace PigOS.Crypto

open Kernel

def jsonMaxNodes : Nat := 1024

inductive JsonType where
  | null | bool | number | string | array | object
  deriving DecidableEq

structure JsonNode where
  type : JsonType
  key : Option CStr
  strVal : Option CStr
  numVal : Option Int64
  boolVal : Bool
  children : Nat
  childStart : Nat
  deriving DecidableEq

/-- A node after `kms(n,0,sizeof(JsonNode))`. -/
def JsonNode.zero : JsonNode := ⟨.null, none, none, some 0, false, 0, 0⟩

/-- The nodes in use; their number is `nnodes`. -/
abbrev JsonTree := List JsonNode

/-! ## Characters -/

def chQuote : UInt8 := 0x22
def chBackslash : UInt8 := 0x5C
def chLBrace : UInt8 := 0x7B
def chRBrace : UInt8 := 0x7D
def chLBracket : UInt8 := 0x5B
def chRBracket : UInt8 := 0x5D
def chColon : UInt8 := 0x3A
def chComma : UInt8 := 0x2C
def chMinus : UInt8 := 0x2D
def chPlus : UInt8 := 0x2B

/-- Space, tab, newline, carriage return. -/
def isWs (c : UInt8) : Bool := c = 0x20 || c = 0x09 || c = 0x0A || c = 0x0D

def isDigit (c : UInt8) : Bool := 0x30 ≤ c && c ≤ 0x39

/-- The characters of a number token. -/
def isNumChar (c : UInt8) : Bool := isDigit c || c = chMinus || c = chPlus

def jsonSkipWs (rest : List UInt8) : List UInt8 := rest.dropWhile isWs

/-- Step over the character `c`, if it is next. -/
def skipChar (c : UInt8) : List UInt8 → List UInt8
  | x :: rest => if x = c then rest else x :: rest
  | [] => []

/-! ## Strings -/

/-- The C string in a buffer: the bytes before the first terminator. -/
def cstring : List UInt8 → CStr
  | [] => []
  | b :: bs => if h : b ≠ 0 then ⟨b, h⟩ :: cstring bs else []

/-- The byte that an escape stands for. -/
def unescape (ec : UInt8) : UInt8 :=
  if ec = 0x6E then 0x0A -- n
  else if ec = 0x74 then 0x09 -- t
  else if ec = 0x72 then 0x0D -- r
  else if ec = 0x62 then 0x08 -- b
  else if ec = 0x66 then 0x0C -- f
  else ec

/-- The loop of `json_parse_string_raw`, after the opening quote. -/
def stringLoop : List UInt8 → List UInt8 → List UInt8 × List UInt8
  | [], buf => (buf, [])
  | c :: rest, buf =>
    if c = chQuote then (buf, rest)
    else if c = chBackslash then
      match rest with
      | [] => (buf, [])
      | ec :: rest => stringLoop rest (buf ++ [unescape ec])
    else stringLoop rest (buf ++ [c])

def jsonParseStringRaw : List UInt8 → Option CStr × List UInt8
  | [] => (none, [])
  | c :: rest =>
    if c ≠ chQuote then (none, c :: rest)
    else
      let (buf, rest) := stringLoop rest []
      (some (cstring buf), rest)

/-! ## Numbers -/

/-- `val=val*10+(buf[si]-'0')` in a 64-bit integer. -/
def digitStep (val : Option Nat) (c : UInt8) : Option Nat :=
  val.bind (fun v => if v * 10 + (c.toNat - 0x30) < 2 ^ 63 then some (v * 10 + (c.toNat - 0x30)) else none)

/-- The value of the characters of a number token. -/
def jsonNumVal (buf : List UInt8) : Option Int64 :=
  let neg := buf.head? = some chMinus
  let buf := skipChar chPlus (skipChar chMinus buf)
  let val := (buf.takeWhile isDigit).foldl digitStep (some 0)
  val.map (fun (v : Nat) => if neg then Int64.ofInt (-(v : Int)) else Int64.ofInt v)

/-! ## Values -/

/-- Write to the node in slot `idx`. -/
def setNode (t : JsonTree) (idx : Nat) (f : JsonNode → JsonNode) : JsonTree := t.modify idx f

def JsonNode.addChild (n : JsonNode) : JsonNode := { n with children := n.children + 1 }

def JsonNode.setKey (k : Option CStr) (n : JsonNode) : JsonNode := { n with key := k }

/-- Step over the rest of a literal if it is all there; the first character alone decides the
node. -/
def skipWord (word rest : List UInt8) : List UInt8 :=
  if rest.take word.length = word then rest.drop word.length else rest

mutual

/-- `json_parse_value`: the index of the new node, the input that is left, and the table. -/
def jsonParseValue : Nat → List UInt8 → JsonTree → Option (Option Nat × List UInt8 × JsonTree)
  | 0, _, _ => none
  | fuel + 1, rest, t =>
    if jsonMaxNodes ≤ t.length then some (none, rest, t)
    else
      let idx := t.length
      let t := t ++ [JsonNode.zero]
      let rest := jsonSkipWs rest
      match rest with
      | [] => some (none, rest, t)
      | c :: r =>
        if c = chQuote then
          let (s, rest) := jsonParseStringRaw rest
          some (some idx, rest, setNode t idx (fun n => { n with type := .string, strVal := s }))
        else if c = chLBrace then
          let t := setNode t idx (fun n => { n with type := .object, childStart := t.length })
          let rest := jsonSkipWs r
          if rest ≠ [] ∧ rest.head? ≠ some chRBrace then
            match objectLoop fuel idx rest t with
            | none => none
            | some (rest, t) => some (some idx, skipChar chRBrace rest, t)
          else some (some idx, skipChar chRBrace rest, t)
        else if c = chLBracket then
          let t := setNode t idx (fun n => { n with type := .array, childStart := t.length })
          let rest := jsonSkipWs r
          if rest ≠ [] ∧ rest.head? ≠ some chRBracket then
            match arrayLoop fuel idx rest t with
            | none => none
            | some (rest, t) => some (some idx, skipChar chRBracket rest, t)
          else some (some idx, skipChar chRBracket rest, t)
        else if c = 0x74 then
          some (some idx, skipWord [0x74, 0x72, 0x75, 0x65] rest,
            setNode t idx (fun n => { n with type := .bool, boolVal := true }))
        else if c = 0x66 then
          some (some idx, skipWord [0x66, 0x61, 0x6C, 0x73, 0x65] rest,
            setNode t idx (fun n => { n with type := .bool, boolVal := false }))
        else if c = 0x6E then
          some (some idx, skipWord [0x6E, 0x75, 0x6C, 0x6C] rest,
            setNode t idx (fun n => { n with type := .null }))
        else if c = chMinus ∨ isDigit c then
          let buf := rest.takeWhile isNumChar
          let num := if buf.length < 24 then jsonNumVal buf else some 0
          some (some idx, rest.dropWhile isNumChar,
            setNode t idx (fun n => { n with type := .number, numVal := num }))
        else some (some idx, rest, t)

/-- The loop over the members of the object in slot `idx`. -/
def objectLoop : Nat → Nat → List UInt8 → JsonTree → Option (List UInt8 × JsonTree)
  | 0, _, _, _ => none
  | fuel + 1, idx, rest, t =>
    let rest := jsonSkipWs rest
    if rest = [] ∨ rest.head? = some chRBrace then some (rest, t)
    else
      let (k, rest) := jsonParseStringRaw rest
      let rest := skipChar chColon (jsonSkipWs rest)
      match jsonParseValue fuel rest t with
      | none => none
      | some (ci, rest, t) =>
        let t :=
          match ci with
          | some ci => setNode (setNode t ci (JsonNode.setKey k)) idx JsonNode.addChild
          | none => t
        let rest := jsonSkipWs rest
        if rest.head? = some chComma then objectLoop fuel idx rest.tail t else some (rest, t)

/-- The loop over the elements of the array in slot `idx`. -/
def arrayLoop : Nat → Nat → List UInt8 → JsonTree → Option (List UInt8 × JsonTree)
  | 0, _, _, _ => none
  | fuel + 1, idx, rest, t =>
    match jsonParseValue fuel rest t with
    | none => none
    | some (ci, rest, t) =>
      let t := if ci.isSome then setNode t idx JsonNode.addChild else t
      let rest := jsonSkipWs rest
      if rest.head? = some chComma then arrayLoop fuel idx rest.tail t else some (rest, t)

end

/-- `json_parse`. Each level, and each round of a loop but the first, takes a character. -/
def jsonParse (str : List UInt8) : Option JsonTree :=
  (jsonParseValue (2 * str.length + 2) str []).map (fun r => r.2.2)

/-! ## Accessors -/

/-- `json_find_key`: the loop over the slots that are taken for the children. -/
def jsonFindKey (t : JsonTree) (obj : Option Nat) (key : CStr) : Option Nat :=
  match obj.bind (t[·]?) with
  | none => none
  | some obj =>
    if obj.type ≠ .object then none
    else
      ((List.range obj.children).map (obj.childStart + ·)).find? (fun c =>
        ((t[c]?).bind JsonNode.key).any (fun k => ksc k key = 0))

def jsonArrayGet (t : JsonTree) (arr : Option Nat) (idx : Int) : Option Nat :=
  match arr.bind (t[·]?) with
  | none => none
  | some arr =>
    if arr.type ≠ .array ∨ idx < 0 ∨ (arr.children : Int) ≤ idx then none
    else some (arr.childStart + idx.toNat)

def jsonArrayLen (t : JsonTree) (arr : Option Nat) : Nat :=
  match arr.bind (t[·]?) with
  | none => 0
  | some arr => if arr.type ≠ .array then 0 else arr.children

end PigOS.Crypto
