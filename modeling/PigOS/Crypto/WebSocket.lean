import Mathlib.Algebra.Group.Int.Defs
import Mathlib.Algebra.Group.Nat.Defs
import PigOS.Lib.Feed

/-!
# `Crypto.WebSocket` — the frames of `crypto/websocket.h`

`ws_send_frame` writes a frame; `ws_recv_frame` reads one in up to four loops that call `tls_recv`
until they have what they need.

- `tls_recv` is a read from a `Feed`: it delivers some of the bytes that are still to come, at most
  as many as asked.
- `plen` is a natural number; `(int)plen`, which the bound check and the payload loop use, is
  `toInt32`.
- `ws_send_frame` is followed for payloads of less than `2^16` bytes. From there on it shifts an
  `int` by 32 bits and more, and soon runs over its array (`none`).
-/

namespace PigOS.Crypto

/-! ## Sending -/

def wsOpPing : UInt8 := 0x9

def wsOpPong : UInt8 := 0xA

/-- `ms^=ms<<13; ms^=ms>>17; ms^=ms<<5`. -/
def xorshift (s : UInt32) : UInt32 :=
  let s := s ^^^ (s <<< 13)
  let s := s ^^^ (s >>> 17)
  s ^^^ (s <<< 5)

/-- The four mask bytes that are made of the state of the generator. -/
def wsMask (ms : UInt32) : List UInt8 := [ms.toUInt8, (ms >>> 8).toUInt8, (ms >>> 16).toUInt8, (ms >>> 24).toUInt8]

def wsMaskData (data mask : List UInt8) : List UInt8 := data.mapIdx (fun i b => b ^^^ mask.getD (i % 4) 0)

/-- `ws_send_frame`: what is passed to `tls_send`, and the new state of the mask generator. -/
def wsSendFrame (ms : UInt32) (opcode : UInt8) (payload : List UInt8) : Option (List UInt8) × UInt32 :=
  let ms := xorshift ms
  let plen := payload.length
  let mask := wsMask ms
  if plen < 126 then
    (some ((0x80 ||| opcode) :: (0x80 ||| UInt8.ofNat plen) :: (mask ++ wsMaskData payload mask)), ms)
  else if plen < 65536 then
    (some ((0x80 ||| opcode) :: (0x80 ||| 126) :: UInt8.ofNat (plen / 256) :: UInt8.ofNat plen ::
      (mask ++ wsMaskData payload mask)), ms)
  else (none, ms)

/-! ## Receiving -/

/-- A number from its bytes, the highest first. -/
def beValue (bs : List UInt8) : Nat := bs.foldl (fun v b => v * 256 + b.toNat) 0

/-- A conversion to `int`. -/
def toInt32 (n : Nat) : Int := if n % 2 ^ 32 < 2 ^ 31 then (n % 2 ^ 32 : Nat) else (n % 2 ^ 32 : Nat) - 2 ^ 32

/-- `if((int)plen>maxout) plen=maxout;` and then `(int)plen`, as the bound of a loop that counts
from 0. -/
def wsLimit (plen maxout : Nat) : Nat := if (maxout : Int) < toInt32 plen then maxout else (toInt32 plen).toNat

/-- The payload loop, and the unmasking. -/
def wsReadPayload (maxout : Nat) (op : UInt8) (plen : Nat) (mask : Option (List UInt8)) (f : Feed UInt8) :
    Option (UInt8 × List UInt8) × Feed UInt8 :=
  f.readThen (wsLimit plen maxout) (fun out f =>
    match mask with
    | some mask => (some (op, wsMaskData out mask), f)
    | none => (some (op, out), f))

def wsReadMask (maxout : Nat) (op : UInt8) (masked : Bool) (plen : Nat) (f : Feed UInt8) :
    Option (UInt8 × List UInt8) × Feed UInt8 :=
  if masked then f.readThen 4 (fun mask f => wsReadPayload maxout op plen (some mask) f)
  else wsReadPayload maxout op plen none f

/-- `ws_recv_frame` up to the check for a ping: the opcode and what has been written to `out`. -/
def wsReadFrame (maxout : Nat) (f : Feed UInt8) : Option (UInt8 × List UInt8) × Feed UInt8 :=
  f.readThen 2 (fun hdr f =>
    let op := hdr.getD 0 0 &&& 0x0F
    let masked := decide (hdr.getD 1 0 &&& 0x80 ≠ 0)
    let plen64 := (hdr.getD 1 0 &&& 0x7F).toNat
    if plen64 = 126 then f.readThen 2 (fun l f => wsReadMask maxout op masked (beValue l) f)
    else if plen64 = 127 then f.readThen 8 (fun l f => wsReadMask maxout op masked (beValue l) f)
    else wsReadMask maxout op masked plen64 f)

/-- What a call of `ws_recv_frame` returns, with the opcode and the bytes it has written to
`out`. -/
inductive WsResult where
  /-- -1 -/
  | fail
  /-- the number of bytes written -/
  | frame (op : UInt8) (out : List UInt8)
  /-- -2, after a pong has been passed to `tls_send` -/
  | ping (out pong : List UInt8)
  /-- the pong is too long for `ws_send_frame` -/
  | undefined
  deriving DecidableEq

/-- The last part of `ws_recv_frame`: a ping is answered. -/
def wsAnswer (ms : UInt32) (op : UInt8) (out : List UInt8) : WsResult × UInt32 :=
  if op = wsOpPing then
    match wsSendFrame ms wsOpPong out with
    | (some pong, ms) => (.ping out pong, ms)
    | (none, ms) => (.undefined, ms)
  else (.frame op out, ms)

structure WsState where
  /-- the mask generator -/
  ms : UInt32
  feed : Feed UInt8

def wsRecvFrame (s : WsState) (maxout : Nat) : WsResult × WsState :=
  match wsReadFrame maxout s.feed with
  | (none, f) => (.fail, { s with feed := f })
  | (some (op, out), f) =>
    let (r, ms) := wsAnswer s.ms op out
    (r, ⟨ms, f⟩)

end PigOS.Crypto
