import Mathlib.Logic.Function.Basic

/-!
# `Drivers.Rtl8139` — `rtl_input` of `lwip/port/netif/rtl8139.h`

The receive ring is memory that the card writes and the driver reads. `pbuf_alloc` succeeds, with a
contiguous payload; what is handed to lwIP is the list of payloads. The counters, the log and the
register that tells the card the read pointer are left out.
-/

namespace PigOS.Drivers

/-- `RTL_RX_SZ` -/
def rtlRxSz : Nat := 8 * 1024

/-- `rtl_hw_ok`, the memory at `rtl_rx_buf()` and `rtl_rx_ptr`. -/
structure Rtl where
  hwOk : Bool
  mem : Nat → UInt8
  rxPtr : Nat

/-- A 16-bit number in memory. -/
def Rtl.word (d : Rtl) (p : Nat) : Nat := (d.mem p).toNat + 256 * (d.mem (p + 1)).toNat

/-- One round of the loop in `rtl_input`: the payload for lwIP, `none` where the loop is left. -/
def rtlRound (d : Rtl) : Option (List UInt8 × Rtl) :=
  let pos := d.rxPtr
  let status := d.word pos
  if status % 2 = 0 then none
  else
    let rawLen := d.word (pos + 2)
    let len : Int := rawLen - 4
    if len ≤ 0 ∨ len > 1518 then none
    else
      let dp := (pos + 4) % rtlRxSz
      let payload := (List.range len.toNat).map fun i => d.mem ((dp + i) % rtlRxSz)
      -- `&~3`
      let next := (pos + 4 + rawLen + 3) / 4 * 4 % 65536
      let next := if next ≥ rtlRxSz then next - rtlRxSz else next
      some (payload, { d with rxPtr := next })

/-- The loop. -/
def rtlRounds : Nat → Rtl → List (List UInt8) × Rtl
  | 0, d => ([], d)
  | pkt + 1, d =>
    match rtlRound d with
    | none => ([], d)
    | some (payload, d) =>
      let (payloads, d) := rtlRounds pkt d
      (payload :: payloads, d)

/-- `rtl_input` -/
def rtlInput (d : Rtl) : List (List UInt8) × Rtl := if d.hwOk then rtlRounds 16 d else ([], d)

/-- The state that `rtl_hw_init` leaves: the buffer is zeroed. -/
def rtlReady : Rtl := ⟨true, fun _ => 0, 0⟩

end PigOS.Drivers
