import PigOS.Crypto.TlsConnect
import PigOS.Crypto.WebSocket

/-!
# `Crypto.HttpClient` — requests and responses

`disc_http_send` of `crypto/discord.h`, `ws_connect` of `crypto/websocket.h` and `http_request_sync`
of `drivers/net/network.h`. The first and the last collect the response with the same loop and move
its body to the front of the caller's buffer, each in its own way.

- An array is the list of its bytes; what it holds before the function writes to it is an argument.
- The reads of a connection are the list of what they deliver; a read that delivers nothing is an
  empty list, and so are all reads after the last.
-/

namespace PigOS.Crypto

open Kernel

/-- The bytes of a string, without the terminator. -/
def strBytes (s : CStr) : List UInt8 := s.map Subtype.val

/-- The C string at the beginning of some bytes. -/
def cText (mem : List UInt8) : List UInt8 := mem.takeWhile (· ≠ 0)

/-! ## Building requests -/

/-- The pieces of the request of `disc_http_send`, in the order of the source. -/
def discPieces (method path token body : CStr) : List CStr :=
  [method, cstr " ", path, cstr " HTTP/1.1\r\n", cstr "Host: discord.com\r\n"] ++
  (if token ≠ [] then [cstr "Authorization: ", token, cstr "\r\n"] else []) ++
  [cstr "Content-Type: application/json\r\n", cstr "Accept: */*\r\n",
    cstr "User-Agent: Mozilla/5.0 (X11; Linux x86_64) AppleWebKit/537.36\r\n"] ++
  (if body ≠ [] then [cstr "Content-Length: ", kiaNat body.length, cstr "\r\n\r\n", body] else [cstr "\r\n"])

/-- `kcp(req+off,piece); off=ksl(req+off);`: the array and the new offset. -/
def discAppend (r : List UInt8 × Nat) (piece : CStr) : List UInt8 × Nat :=
  let req := patch r.1 r.2 (strBytes piece ++ [0])
  (req, (cText (req.drop r.2)).length)

/-- What `disc_http_send` passes to `tls_send`. -/
def discRequest (req : List UInt8) (method path token body : CStr) : List UInt8 :=
  let (req, off) := (discPieces method path token body).foldl discAppend (req, 0)
  req.take off

/-- The bytes of the key: 16 rounds of the generator. -/
def wsKeyBytes : Nat → UInt32 → List UInt8
  | 0, _ => []
  | n + 1, s => (xorshift s).toUInt8 :: wsKeyBytes n (xorshift s)

def b64 (v : Nat) : CChar :=
  (cstr "ABCDEFGHIJKLMNOPQRSTUVWXYZabcdefghijklmnopqrstuvwxyz0123456789+/").getD (v % 64) (chr 'A')

/-- `ws_b64_encode`: `oi` characters have been written. -/
def wsB64Encode (outmax : Nat) : List UInt8 → Nat → CStr
  | [], _ => []
  | [a], oi =>
    let v := a.toNat * 65536
    if oi < outmax - 4 then [b64 (v / 2 ^ 18), b64 (v / 2 ^ 12), chr '=', chr '='] else []
  | [a, b], oi =>
    let v := a.toNat * 65536 + b.toNat * 256
    if oi < outmax - 4 then [b64 (v / 2 ^ 18), b64 (v / 2 ^ 12), b64 (v / 2 ^ 6), chr '='] else []
  | a :: b :: c :: l, oi =>
    let v := a.toNat * 65536 + b.toNat * 256 + c.toNat
    if oi < outmax - 4 then
      [b64 (v / 2 ^ 18), b64 (v / 2 ^ 12), b64 (v / 2 ^ 6), b64 v] ++ wsB64Encode outmax l (oi + 4)
    else []

/-- The table `lines` of `ws_connect`; `s` is the state of the generator of the key. -/
def wsPieces (s : UInt32) (host path : CStr) : List CStr :=
  [cstr "GET ", path, cstr " HTTP/1.1\r\n",
    cstr "Host: ", host, cstr "\r\n",
    cstr "Upgrade: websocket\r\n",
    cstr "Connection: Upgrade\r\n",
    cstr "Sec-WebSocket-Key: ", wsB64Encode 32 (wsKeyBytes 16 s) 0, cstr "\r\n",
    cstr "Sec-WebSocket-Version: 13\r\n",
    cstr "Sec-WebSocket-Protocol: json\r\n",
    cstr "\r\n"]

/-- `kmc(req+off,line,l); off+=l;`. -/
def wsAppend (r : List UInt8 × Nat) (piece : CStr) : List UInt8 × Nat :=
  (patch r.1 r.2 (strBytes piece), r.2 + piece.length)

/-- What `ws_connect` passes to `tls_send`: its loop counts to 9. -/
def wsRequest (req : List UInt8) (s : UInt32) (host path : CStr) : List UInt8 :=
  let (req, off) := ((wsPieces s host path).take 9).foldl wsAppend (req, 0)
  req.take off

/-! ## Reading responses -/

def crlf : List UInt8 := [0x0D, 0x0A]

/-- The end of a header. -/
def crlf2 : List UInt8 := [0x0D, 0x0A, 0x0D, 0x0A]

/-- `rlen>4&&out[rlen-4]==0x0D&&…`. -/
def endsHeader (out : List UInt8) : Bool := decide (4 < out.length) && decide (out.drop (out.length - 4) = crlf2)

/-- The loop `for(int i=0;i<20000000&&rlen<maxout-1;i++)`; `out` is what has been received. -/
def recvResponse (maxout : Nat) : Nat → List UInt8 → List (List UInt8) → List UInt8
  | 0, out, _ => out
  | _ + 1, out, [] => out
  | i + 1, out, c :: cs =>
    if out.length < maxout - 1 then
      let out := out ++ c.take (maxout - out.length - 1)
      if endsHeader out then out else recvResponse maxout i out cs
    else out

def maxReads : Nat := 20000000

/-- The loop that looks for the end of the header: where the body begins. -/
def findBody (out : List UInt8) : Option Nat :=
  ((List.range (out.length - 4)).find? (fun i => (out.drop i).take 4 = crlf2)).map (· + 4)

/-- The buffer when the response has been received, with its terminator. -/
def receiveAll (maxout : Nat) (reads : List (List UInt8)) (out₀ : List UInt8) : List UInt8 × List UInt8 :=
  let r := recvResponse maxout maxReads [] reads
  (r, r ++ 0 :: out₀.drop (r.length + 1))

/-- What `disc_http_send` leaves in `out`. -/
def discResponse (maxout : Nat) (reads : List (List UInt8)) (out₀ : List UInt8) : List UInt8 :=
  let (r, out) := receiveAll maxout reads out₀
  match findBody r with
  | none => out
  | some bod =>
    let bl := (cText (out.drop bod)).length
    -- the copy runs forward from behind: no byte is read after it has been written
    let k := min bl (maxout - 1)
    ((out.drop bod).take k ++ out.drop k).set (if bl < maxout then bl else maxout - 1) 0

/-- What `http_request_sync` leaves in `out`. -/
def httpResponse (maxout : Nat) (reads : List (List UInt8)) (out₀ : List UInt8) : List UInt8 :=
  let (r, out) := receiveAll maxout reads out₀
  match findBody r with
  | none => out
  | some body =>
    let k := r.length - body
    (out.drop body).take k ++ out.drop k

end PigOS.Crypto
