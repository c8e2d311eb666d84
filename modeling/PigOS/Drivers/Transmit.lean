import PigOS.Drivers.Network
import PigOS.Lib.Cells

/-!
# `Drivers.Transmit` — `rtl_output`, `e1000_output` and `virtio_output` of `lwip/port/netif/`

The cards read a frame from memory, so an output function leaves memory as it is when the card is
told, and where the frame lies in it. The drivers are initialised. The loops that wait for the card
end after a number of rounds, whatever the card does, and are left out with the return codes that
they choose; so are the counters and the log.
-/

namespace PigOS.Drivers

abbrev Mem := Nat → UInt8

/-- What a card is told: an address and a length. The first `header` bytes are not of the frame. -/
structure Sent where
  mem : Mem
  addr : Nat
  length : Nat
  header : Nat

/-- The frame that the card sends. -/
def Sent.frame (s : Sent) : List UInt8 := (List.range (s.length - s.header)).map fun i => s.mem (s.addr + s.header + i)

/-- The loop over the chain in `rtl_output` and `e1000_output`, with `off` bytes copied. -/
def copyChain (off : Nat) : List (List UInt8) → List UInt8
  | [] => []
  | q :: qs =>
    let c := if off + q.length > 1514 then 1514 - off else q.length
    q.take c ++ copyChain (off + c) qs

def Pbuf.segments (p : Pbuf) : List (List UInt8) := p.payload :: p.next

/-- `rtl_output`, with the address of `rtl_tx_buf(rtl_tx_cur)`. -/
def rtlOutput (mem : Mem) (txBuf : Nat) (p : Pbuf) : Sent :=
  let buf := copyChain 0 p.segments
  ⟨Cells.writeList mem txBuf buf, txBuf, buf.length % 0x2000, 0⟩

/-- The ring of transmit descriptors. -/
def txBase : Nat := 0x03020000

/-- `E1000_MAX_DESC` -/
def e1000MaxDesc : Nat := 32

/-- A number in memory, the lowest byte first. -/
def littleEndian : Nat → Nat → List UInt8
  | 0, _ => []
  | n + 1, x => UInt8.ofNat x :: littleEndian n (x / 256)

/-- `e1000_output`, with `e1000_tx_idx`, and that index after the call. -/
def e1000Output (mem : Mem) (idx : Nat) (p : Pbuf) : Sent × Nat :=
  let data := copyChain 0 p.segments
  let addr := txBase + idx * 16 + 16
  let mem := Cells.writeList mem addr data
  -- the descriptor: `addr` and `length`, then `cmd` and `status` behind `cso`
  let mem := Cells.writeList mem (txBase + idx * 16) (littleEndian 8 addr ++ littleEndian 2 data.length)
  let mem := Cells.writeList mem (txBase + idx * 16 + 11) [0x09, 0]
  (⟨mem, addr, data.length, 0⟩, (idx + 1) % e1000MaxDesc)

/-- `virtio_output`, with the address of `tx_buffer`. -/
def virtioOutput (mem : Mem) (txBuffer : Nat) (p : Pbuf) : Sent :=
  let mem := Cells.writeList mem txBuffer (List.replicate 10 0)
  ⟨Cells.writeList mem (txBuffer + 10) (p.payload.take 1514), txBuffer, 10 + p.payload.length, 10⟩

end PigOS.Drivers
