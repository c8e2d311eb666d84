import PigOS.Drivers.Nic

/-!
# `Drivers.Correctness.Nic` — the three scans and the device they choose

`net_detect_nic` knows the most devices, so each of the other scans stops at its device exactly when
it takes it. The test of `e1000_hw_init` asks for an I/O BAR, which the devices have as their BAR0
seldom.
-/

namespace PigOS.Drivers

open List

variable {pci : Pci} {s : Nat × Nat}

/-- A narrower test stops where a wider one does exactly when it accepts that element. -/
lemma find?_eq_some_iff_of_first {α : Type*} {p q : α → Bool} {l : List α} {a : α} (h : ∀ x, p x = true → q x = true)
    (hq : l.find? q = some a) : l.find? p = some a ↔ p a = true := by
  refine ⟨find?_some, fun hp => ?_⟩
  obtain ⟨-, as, bs, rfl, hbefore⟩ := find?_eq_some_iff_append.mp hq
  refine find?_eq_some_iff_append.mpr ⟨hp, as, bs, rfl, fun x hx => ?_⟩
  have hnq := hbefore x hx
  rw [Bool.not_eq_true'] at hnq ⊢
  by_contra hpx
  rw [h x (by simpa using hpx)] at hnq
  cases hnq

/-- `net_detect_nic` returns at a slot, with an e1000. -/
structure SelectsE1000 (pci : Pci) (s : Nat × Nat) : Prop where
  first : detectSlot pci = some s
  nic : netDetectNic pci .none = .e1000

/-- The address in a BAR: the low bits tell the kind, and whether it is of I/O ports or memory. -/
def barBase (bar : Nat) : Nat := if bar % 2 = 1 then bar - bar % 4 else bar - bar % 16

/-- The driver uses the device, and the interface is named after it. -/
def UsesDevice (pci : Pci) (s : Nat × Nat) : Prop :=
  e1000HwInit pci = barBase (pci s).bar0 ∧ ∀ start, netifDetectName .e1000 pci start = slotName s

lemma nameTakes_iff (v : PciDev) : nameTakes .e1000 v = true ↔ v.id = 0x10088086 ∨ v.id = 0x100E8086 := by
  simp [nameTakes]

lemma initTakes_iff (v : PciDev) : initTakes v = true ↔ (v.id = 0x10088086 ∨ v.id = 0x10098086) ∧ v.bar0 % 2 = 1 := by
  simp [initTakes]

lemma name_iff (h : SelectsE1000 pci s) :
    (∀ start, netifDetectName .e1000 pci start = slotName s) ↔ nameTakes .e1000 (pci s) = true := by
  have hwide : ∀ x, nameTakes .e1000 (pci x) = true → ((pci x).id = rtlId || (pci x).id ∈ e1000Ids) = true := by
    intro x hx
    rcases (nameTakes_iff _).mp hx with hid | hid
    · rw [hid]
      decide
    · rw [hid]
      decide
  rw [← find?_eq_some_iff_of_first hwide h.first]
  unfold netifDetectName
  cases hfind : pciSlots.find? fun s => nameTakes .e1000 (pci s) with
  | none =>
    refine iff_of_false (fun hname => ?_) (by simp)
    have heth := congrArg (fun n => n.name.toList) (hname ⟨0, 0, ""⟩)
    simp [slotName, String.toList_ofList] at heth
  | some slot =>
    rw [Option.some.injEq]
    refine ⟨fun hname => ?_, fun hs _ => congrArg slotName hs⟩
    have heq := hname ⟨0, 0, ""⟩
    exact Prod.ext (congrArg NetifName.bus heq) (congrArg NetifName.slot heq)

lemma mmio_of_taken (h : SelectsE1000 pci s) (ht : initTakes (pci s) = true) :
    e1000HwInit pci = (pci s).bar0 - (pci s).bar0 % 2 := by
  have hwide : ∀ x, initTakes (pci x) = true → ((pci x).id = rtlId || (pci x).id ∈ e1000Ids) = true := by
    intro x hx
    rcases ((initTakes_iff _).mp hx).1 with hid | hid
    · rw [hid]
      decide
    · rw [hid]
      decide
  rw [e1000HwInit, mmioOf, (find?_eq_some_iff_of_first hwide h.first).mpr ht]

lemma mmio_of_not_taken (ht : initTakes (pci s) = false) : e1000HwInit pci = mmioOf pci (pciSlots.filter (· ≠ s)) := by
  have hsame : (fun a => decide (decide (a ≠ s) = true ∧ initTakes (pci a) = true)) = fun a => initTakes (pci a) := by
    funext a
    by_cases ha : a = s
    · simp [ha, ht]
    · simp [ha]
  rw [e1000HwInit, mmioOf, mmioOf, find?_filter, hsame]

/-- **Detection and initialisation agree** on an e1000 exactly when it is an 8086:1008 whose BAR0 is
one of I/O ports, with bit 1 clear; or else the address that the scan takes from another slot, or
the fixed one, happens to be its own. -/
theorem nic_agrees_iff (pci : Pci) (s : Nat × Nat) (h : SelectsE1000 pci s) : UsesDevice pci s ↔
      ((pci s).id = 0x10088086 ∧ (pci s).bar0 % 4 = 1) ∨
      ((pci s).id = 0x10088086 ∧ (pci s).bar0 % 2 = 0 ∨ (pci s).id = 0x100E8086) ∧
        mmioOf pci (pciSlots.filter (· ≠ s)) = barBase (pci s).bar0 := by
  have htakes := initTakes_iff (pci s)
  rw [UsesDevice, name_iff h, nameTakes_iff]
  by_cases ht : initTakes (pci s) = true
  · have hodd := (htakes.mp ht).2
    have hbase : (pci s).bar0 - (pci s).bar0 % 2 = barBase (pci s).bar0 ↔ (pci s).bar0 % 4 = 1 := by
      rw [barBase, if_pos hodd]
      omega
    have hnot : (pci s).id ≠ 0x100E8086 := by
      intro hid
      rw [hid] at htakes
      exact absurd (htakes.mp ht).1 (by decide)
    rw [mmio_of_taken h ht, hbase]
    simp [hnot, hodd, and_comm]
  · rw [Bool.not_eq_true] at ht
    have hnot : ¬ ((pci s).id = 0x10088086 ∧ (pci s).bar0 % 2 = 1) := by
      rintro ⟨hid, hodd⟩
      rw [htakes.mpr ⟨.inl hid, hodd⟩] at ht
      cases ht
    have hcases : (pci s).id = 0x10088086 ∨ (pci s).id = 0x100E8086 ↔
        (pci s).id = 0x10088086 ∧ (pci s).bar0 % 2 = 0 ∨ (pci s).id = 0x100E8086 := by
      refine or_congr_left (iff_self_and.mpr fun hid => ?_)
      have hodd := not_and.mp hnot hid
      omega
    have hio : ¬ ((pci s).id = 0x10088086 ∧ (pci s).bar0 % 4 = 1) := fun hid => hnot ⟨hid.1, by omega⟩
    rw [mmio_of_not_taken ht, hcases, and_comm, or_iff_right hio]

/-- A machine with one device. -/
def onlyDevice (s : Nat × Nat) (v : PciDev) : Pci := fun t => if t = s then v else ⟨0xFFFFFFFF, 0xFFFFFFFF⟩

/-- The e1000 of QEMU in slot 3 with its BAR0 where the driver looks without having read it. -/
theorem nic_agrees_fixed : SelectsE1000 (onlyDevice (0, 3) ⟨0x100E8086, 0xFE000000⟩) (0, 3) ∧
    UsesDevice (onlyDevice (0, 3) ⟨0x100E8086, 0xFE000000⟩) (0, 3) := by
  have h : SelectsE1000 (onlyDevice (0, 3) ⟨0x100E8086, 0xFE000000⟩) (0, 3) := ⟨by decide, rfl⟩
  refine ⟨h, (nic_agrees_iff _ _ h).mpr (Or.inr ⟨Or.inr rfl, ?_⟩)⟩
  decide

/-- The same device with its BAR0 elsewhere. -/
theorem nic_agrees_fails : SelectsE1000 (onlyDevice (0, 3) ⟨0x100E8086, 0xFEBC0000⟩) (0, 3) ∧
    e1000HwInit (onlyDevice (0, 3) ⟨0x100E8086, 0xFEBC0000⟩) = 0xFE000000 ∧
    ¬ UsesDevice (onlyDevice (0, 3) ⟨0x100E8086, 0xFEBC0000⟩) (0, 3) := by
  have hmmio : e1000HwInit (onlyDevice (0, 3) ⟨0x100E8086, 0xFEBC0000⟩) = 0xFE000000 := by decide
  refine ⟨⟨by decide, rfl⟩, hmmio, fun h => ?_⟩
  rw [UsesDevice, hmmio] at h
  exact absurd h.1 (by decide)

end PigOS.Drivers
