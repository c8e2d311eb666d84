import Mathlib.Data.List.Basic

/-!
# `Drivers.Nic` — the scans of the PCI bus: `net_detect_nic`, `e1000_hw_init` and `netif_detect_name`

There is no VirtIO device. Of `e1000_hw_init` this is the part that chooses `e1000_mmio`.
-/

namespace PigOS.Drivers

/-- What `pci_r32` reads at offsets 0 and 0x10 of a slot. -/
structure PciDev where
  id : UInt32
  bar0 : Nat

/-- The devices by bus and slot. -/
abbrev Pci := Nat × Nat → PciDev

/-- The order of the loops. -/
def pciSlots : List (Nat × Nat) := (List.range 4).flatMap fun b => (List.range 32).map fun d => (b, d)

inductive Nic where
  | none | rtl | e1000 | virtio

def rtlId : UInt32 := 0x813910EC

def e1000Ids : List UInt32 :=
  [0x10088086, 0x10098086, 0x10008086, 0x10018086, 0x10048086, 0x100E8086, 0x100F8086, 0x10118086,
    0x10158086, 0x10198086, 0x101D8086]

/-- The slot at which `net_detect_nic` returns. -/
def detectSlot (pci : Pci) : Option (Nat × Nat) :=
  pciSlots.find? fun s => (pci s).id = rtlId || (pci s).id ∈ e1000Ids

/-- `net_detect_nic` -/
def netDetectNic (pci : Pci) (nic : Nic) : Nic :=
  match detectSlot pci with
  | Option.none => nic
  | some s => if (pci s).id = rtlId then .rtl else .e1000

/-- The test of `e1000_hw_init`. -/
def initTakes (v : PciDev) : Bool := (v.id = 0x10088086 || v.id = 0x10098086) && v.bar0 % 2 = 1

/-- `e1000_mmio`, from the slots that are scanned. -/
def mmioOf (pci : Pci) (slots : List (Nat × Nat)) : Nat :=
  match slots.find? fun s => initTakes (pci s) with
  -- `bar0 & ~1`
  | some s => (pci s).bar0 - (pci s).bar0 % 2
  | Option.none => 0xFE000000

/-- `e1000_hw_init` -/
def e1000HwInit (pci : Pci) : Nat := mmioOf pci pciSlots

/-- `netif_bus`, `netif_slot` and `netif_name`. -/
structure NetifName where
  bus : Nat
  slot : Nat
  name : String
  deriving DecidableEq

/-- A number in the name of an interface, of one digit or two. -/
def nameDigits (n : Nat) : List Char :=
  if n ≥ 10 then [Char.ofNat (48 + n / 10), Char.ofNat (48 + n % 10)] else [Char.ofNat (48 + n)]

/-- The name of a slot. -/
def slotName (s : Nat × Nat) : NetifName :=
  ⟨s.1, s.2, String.ofList (['e', 'n', 'p'] ++ nameDigits s.1 ++ ['s'] ++ nameDigits s.2)⟩

/-- The test of `netif_detect_name`. -/
def nameTakes (nic : Nic) (v : PciDev) : Bool :=
  match nic with
  | .rtl => v.id = rtlId
  | .e1000 => v.id = 0x10088086 || v.id = 0x100E8086
  | _ => false

/-- `netif_detect_name` -/
def netifDetectName (nic : Nic) (pci : Pci) (s : NetifName) : NetifName :=
  match pciSlots.find? fun s => nameTakes nic (pci s) with
  | some slot => slotName slot
  | Option.none => { s with name := match nic with
    | .virtio => "ens0"
    | _ => "eth0" }

end PigOS.Drivers
