import PigOS.Kernel.Mem
import PigOS.Lib.Machine

/-!
# `Drivers.Network` — `ip_parse` and the receiving half of the TCP shim in `drivers/net/network.h`

Between the callback of lwIP and the blocking `tcp_recv_data(buf, max)` lie a single global slot for
a packet buffer and a polling loop. The callbacks that lwIP makes between two calls, and in each
round of the loop, are an argument of the call (`Delivery`), and so are the bytes in the caller's
buffer before it. The numbers of an address are `int`s, which wrap around.
-/

namespace PigOS.Drivers

/-- A chain of packet buffers of lwIP: the payload of the first, and of those behind it. -/
structure Pbuf where
  payload : List UInt8
  next : List (List UInt8)

def Pbuf.bytes (p : Pbuf) : List UInt8 := p.payload ++ p.next.flatten

/-- The globals of the shim; `connected` is `active_pcb && tcp_state==2`. -/
structure Shim where
  connected : Bool
  recvPbuf : Option Pbuf
  recvDone : Bool

/-- `tcp_recv_cb`; lwIP passes `NULL` when the peer has closed. -/
def tcpRecvCb (s : Shim) : Option Pbuf → Shim
  | some p => { s with recvPbuf := some p, recvDone := true }
  | none => { s with recvDone := true }

/-- The bound of the polling loop. -/
def pollMax : Nat := 5000000

/-- The polling loop. Each entry of the list is one round, with the callbacks lwIP makes in it. -/
def recvPoll (s : Shim) : List (List (Option Pbuf)) → Shim
  | [] => s
  | cbs :: polls => if s.recvDone then s else recvPoll (cbs.foldl tcpRecvCb s) polls

/-- The callbacks made while the loop runs: rounds that the loop does not reach do not happen. -/
def recvPollCbs (s : Shim) : List (List (Option Pbuf)) → List (Option Pbuf)
  | [] => []
  | cbs :: polls => if s.recvDone then [] else cbs ++ recvPollCbs (cbs.foldl tcpRecvCb s) polls

/-- The bytes in memory from the start of a buffer on. -/
abbrev Buffer := Nat → UInt8

/-- The two stores that `tcp_recv_sync` begins with. -/
def Shim.clear (s : Shim) : Shim := { s with recvPbuf := none, recvDone := false }

def tcpRecvSync (s : Shim) (polls : List (List (Option Pbuf))) (out : Buffer) (max : Nat) :
    Int × Buffer × Shim :=
  let s := recvPoll s.clear (polls.take pollMax)
  match s.recvPbuf with
  | none => (0, out, s)
  | some p =>
    let len := min p.payload.length max
    (len, fun i => if i < len then p.payload.getD i 0 else out i, { s with recvPbuf := none })

/-- `tcp_recv_compat`: whatever the length was, a success is reported as `0x10`. -/
def tcpRecvCompat (s : Shim) (polls : List (List (Option Pbuf))) (data : Buffer) (maxlen : Nat) :
    Int × Buffer × Shim :=
  if !s.connected then (-1, data, s)
  else
    let (r, data, s) := tcpRecvSync s polls data maxlen
    (if r > 0 then 0x10 else -1, data, s)

/-- `tcp_recv_data_compat`, which is what the name `tcp_recv_data` stands for. -/
def tcpRecvDataCompat (s : Shim) (polls : List (List (Option Pbuf))) (data : Buffer) (maxlen : Nat) :
    Int × Buffer × Shim := tcpRecvCompat s polls data maxlen

/-! ## Successive calls -/

/-- What lwIP does around one call, and the size the caller passes. -/
structure Delivery where
  /-- callbacks since the last call -/
  idle : List (Option Pbuf)
  polls : List (List (Option Pbuf))
  max : Nat

/-- The callbacks that lwIP makes while a call with this delivery runs. -/
def Delivery.polled (d : Delivery) (s : Shim) : List (Option Pbuf) :=
  if s.connected then recvPollCbs s.clear (d.polls.take pollMax) else []

structure RecvOutcome where
  ret : Int
  /-- the first `ret` bytes of the caller's buffer, when `ret` is positive -/
  bytes : List UInt8
  /-- the callbacks made since the end of the last call -/
  handed : List (Option Pbuf)

/-- One call of `tcp_recv_data`, with the callbacks made before it. -/
def recvStep (s : Shim) (c : Delivery × Buffer) : RecvOutcome × Shim :=
  let s₀ := c.1.idle.foldl tcpRecvCb s
  let (r, out, s₁) := tcpRecvDataCompat s₀ c.1.polls c.2 c.1.max
  (⟨r, (List.range r.toNat).map out, c.1.idle ++ c.1.polled s₀⟩, s₁)

/-- The payload of the chains that a list of callbacks hands over. -/
def payload (cbs : List (Option Pbuf)) : List UInt8 := (cbs.filterMap id).flatMap Pbuf.bytes

/-- What the caller gets over a sequence of calls. -/
def received (s : Shim) (cs : List (Delivery × Buffer)) : List UInt8 :=
  (Machine.events recvStep s cs).flatMap (fun e => e.output.bytes)

/-- What lwIP hands over in the same time. -/
def handed (s : Shim) (cs : List (Delivery × Buffer)) : List UInt8 :=
  (Machine.events recvStep s cs).flatMap (fun e => payload e.output.handed)

/-! ## Addresses -/

open Kernel

/-- The loop over the string: `v`, `vi` and `cur` at its end, `none` where it returns 0. -/
def ipLoop : CStr → (Nat → UInt32) → Nat → UInt32 → Option ((Nat → UInt32) × Nat × UInt32)
  | [], v, vi, cur => some (v, vi, cur)
  | c :: s, v, vi, cur =>
    if 4 ≤ vi then some (v, vi, cur)
    else if c.val = 0x2E then ipLoop s (Function.update v vi cur) (vi + 1) 0
    else if 0x30 ≤ c.val ∧ c.val ≤ 0x39 then ipLoop s v vi (cur * 10 + (c.val - 0x30).toUInt32)
    else none

/-- The generic parse. -/
def ipNumbers (s : CStr) : Option UInt32 :=
  match ipLoop s (fun _ => 0) 0 0 with
  | none => none
  | some (v, vi, cur) =>
    if vi < 3 then none
    else
      -- `v[3]` is written again, also when a fourth dot has filled it
      some ((cur <<< 24) ||| (v 2 <<< 16) ||| (v 1 <<< 8) ||| v 0)

/-- `ip_parse`: what it stores, `none` where it returns 0. -/
def ipParse (s : CStr) : Option UInt32 :=
  if ksc s (cstr "10.0.2.2") = 0 then some 0x0202000A
  else if ksc s (cstr "10.0.2.15") = 0 then some 0x0F02000A
  else if ksc s (cstr "127.0.0.1") = 0 then some 0x0100007F
  else if ksc s (cstr "8.8.8.8") = 0 then some 0x08080808
  else if ksc s (cstr "1.1.1.1") = 0 then some 0x01010101
  else ipNumbers s

end PigOS.Drivers
