import PigOS.Crypto.Json
import PigOS.Kernel.PathBuffer
import PigOS.Lib.Records

/-!
# `Crypto.Discord` — what the chat client of `crypto/discord.h` sends and stores

The body of a message is put together in an array of 1024 bytes. The lists of guilds, channels and
messages are arrays of records, which the parsers of a response fill. An array is a `Buffer`, which
records how far it was written.
-/

namespace PigOS.Crypto

open Kernel Kernel.Out

/-- `for(int i=0;content[i]&&off<limit;i++)…`: a quote or a backslash takes two bytes. -/
def escapeLoop (limit : Nat) : CStr → Nat → Bytes → Nat × Bytes
  | [], off, body => (off, body)
  | c :: s, off, body =>
    if off < limit then
      if c.val = chQuote then escapeLoop limit s (off + 2) ((body.write off chBackslash).write (off + 1) chQuote)
      else if c.val = chBackslash then
        escapeLoop limit s (off + 2) ((body.write off chBackslash).write (off + 1) chBackslash)
      else escapeLoop limit s (off + 1) (body.write off c.val)
    else (off, body)

/-- What the body begins with. -/
def bodyStart : CStr := cstr "\x7b\"content\":\""

/-- `body` in `disc_send_message`. -/
def messageBody (body : Bytes) (content : CStr) : Bytes :=
  let body := kcp body bodyStart
  let (off, body) := escapeLoop 1020 content bodyStart.length body
  let body := body.write off chQuote
  let body := body.write (off + 1) chRBrace
  body.write (off + 2) 0

/-! ## Lists -/

open Records

/-- What the parsers ask of a parsed response; a node is whatever the accessors of `json.h` take. -/
structure Accessors (ν : Type) where
  type : ν → JsonType
  arrayLen : ν → Nat
  arrayGet : ν → Nat → Option ν
  getString : ν → CStr → Option CStr
  getInt : ν → CStr → Int32
  getObject : ν → CStr → Option ν

def discMaxName : Nat := 128
def discMaxMsgLen : Nat := 512
def discMaxGuilds : Nat := 64
def discMaxChannels : Nat := 128
def discMaxMessages : Nat := 128

/-- `if(s) kcp(record.field,s);` -/
def kcpField (off size : Nat) (s : Option CStr) : Field × Option (List UInt8) :=
  (⟨off, size, true⟩, s.map fun s => s.map Subtype.val ++ [0])

/-- `record.field=n;` -/
def intField (off : Nat) (n : Int32) : Field × Option (List UInt8) :=
  (⟨off, 4, false⟩, some [n.toUInt32.toUInt8, (n.toUInt32 >>> 8).toUInt8, (n.toUInt32 >>> 16).toUInt8,
    (n.toUInt32 >>> 24).toUInt8])

section Parsers

variable {ν : Type} (acc : Accessors ν)

/-- The element with index `i`, if it is an object, and what the body of the loop stores for it. -/
def elementRow (row : ν → Row UInt8) (root : ν) (i : Nat) : Option (Row UInt8) :=
  (acc.arrayGet root i).bind fun g => if acc.type g = .object then some (row g) else none

/-- The loop `for(int i=0;i<al&&i<max;i++)…`: the number of objects, and the array. Other elements
are passed over. -/
def parseList (max stride : Nat) (row : ν → Row UInt8) (root : ν) (b : Buffer UInt8) : Nat × Buffer UInt8 :=
  if acc.type root ≠ .array then (0, b)
  else
    let rows := (List.range (min (acc.arrayLen root) max)).map (elementRow acc row root)
    ((rows.filterMap id).length, fillAll stride 0 rows b)

/-- `sizeof(DiscGuild)`: `id`, `name`. -/
def guildSize : Nat := 256

def guildRow (g : ν) : Row UInt8 :=
  [kcpField 0 discMaxName (acc.getString g (cstr "id")), kcpField 128 discMaxName (acc.getString g (cstr "name"))]

def discParseGuilds : ν → Buffer UInt8 → Nat × Buffer UInt8 :=
  parseList acc discMaxGuilds guildSize (guildRow acc)

/-- `sizeof(DiscChannel)`: `id`, `name`, `guild_id`, `type`. -/
def channelSize : Nat := 388

def channelRow (ch : ν) : Row UInt8 :=
  [kcpField 0 discMaxName (acc.getString ch (cstr "id")), kcpField 128 discMaxName (acc.getString ch (cstr "name")),
    intField 384 (acc.getInt ch (cstr "type")), kcpField 256 discMaxName (acc.getString ch (cstr "guild_id"))]

def discParseChannels : ν → Buffer UInt8 → Nat × Buffer UInt8 :=
  parseList acc discMaxChannels channelSize (channelRow acc)

/-- `sizeof(DiscMessage)`: `id`, `author`, `content`, `timestamp`. -/
def messageSize : Nat := 896

def messageRow (msg : ν) : Row UInt8 :=
  [kcpField 0 discMaxName (acc.getString msg (cstr "id")),
    kcpField 768 discMaxName (acc.getString msg (cstr "timestamp")),
    kcpField 128 discMaxName ((acc.getObject msg (cstr "author")).bind fun author =>
      acc.getString author (cstr "username")),
    kcpField 256 discMaxMsgLen (acc.getString msg (cstr "content"))]

def discParseMessages : ν → Buffer UInt8 → Nat × Buffer UInt8 :=
  parseList acc discMaxMessages messageSize (messageRow acc)

end Parsers

end PigOS.Crypto
