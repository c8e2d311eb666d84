import PigOS.Drivers.Transmit

/-!
# `Drivers.Correctness.Transmit` — what the three drivers send, and where they put it

* `same_frame_iff` — `virtio_output` sends the first segment of a chain only: the three agree on a
  chain exactly when nothing lies behind its first segment.
* `txData_clear_iff` — the data of a frame begins where the next descriptor does.
-/

namespace PigOS.Drivers

open List

variable {p : Pbuf} {mem : Mem}

/-! ## The frame -/

/-- A chain that fits a frame is copied whole. -/
lemma copyChain_of_le {off : Nat} {qs : List (List UInt8)} (h : off + qs.flatten.length ≤ 1514) :
    copyChain off qs = qs.flatten := by
  induction qs generalizing off with
  | nil => rfl
  | cons q qs ih =>
    rw [flatten_cons, length_append] at h
    rw [copyChain, if_neg (by omega), List.take_length, ih (by omega), flatten_cons]

variable {bytes : List UInt8}

/-- A frame that was copied to where the card looks, with stores elsewhere since. -/
lemma frame_of_stored {s : Sent} (hlen : s.length = s.header + bytes.length)
    (hmem : ∀ i (h : i < bytes.length), s.mem (s.addr + s.header + i) = bytes[i]) : s.frame = bytes := by
  apply ext_getElem
  · simp [Sent.frame, hlen]
  · intro i _ hi
    simp [Sent.frame, hmem i hi]

/-- A cell of what was written. -/
lemma writeList_inside {a i : Nat} (hi : i < bytes.length) :
    Cells.writeList mem a bytes (a + i) = bytes[i] := by
  rw [Cells.writeList_apply, if_pos (Nat.le_add_right a i), Nat.add_sub_cancel_left,
    getElem?_eq_getElem hi, Option.getD_some]

/-- A cell behind it. -/
lemma writeList_behind {a x : Nat} (h : a + bytes.length ≤ x) : Cells.writeList mem a bytes x = mem x := by
  rw [Cells.writeList_apply, if_pos (by omega), getElem?_eq_none (by omega), Option.getD_none]

lemma Pbuf.flatten_segments (p : Pbuf) : p.segments.flatten = p.bytes := flatten_cons

lemma copyChain_bytes (h : p.bytes.length ≤ 1514) : copyChain 0 p.segments = p.bytes := by
  rw [copyChain_of_le (by rw [p.flatten_segments]; omega), p.flatten_segments]

/-- `rtl_output` sends the chain. -/
lemma rtlOutput_frame (h : p.bytes.length ≤ 1514) (txBuf : Nat) : (rtlOutput mem txBuf p).frame = p.bytes := by
  apply frame_of_stored
  · simp only [rtlOutput, copyChain_bytes h]
    omega
  · intro i hi
    simp only [rtlOutput, copyChain_bytes h]
    exact writeList_inside hi

/-- `e1000_output` sends the chain. -/
lemma e1000Output_frame (h : p.bytes.length ≤ 1514) (idx : Nat) : (e1000Output mem idx p).1.frame = p.bytes := by
  apply frame_of_stored
  · simp only [e1000Output, copyChain_bytes h, Nat.zero_add]
  · intro i hi
    simp only [e1000Output, copyChain_bytes h, Nat.add_zero]
    -- the descriptor lies before the data
    rw [writeList_behind (by simp; omega), writeList_behind (by simp [littleEndian]; omega), writeList_inside hi]

/-- `virtio_output` sends the first segment. -/
lemma virtioOutput_frame (h : p.bytes.length ≤ 1514) (txBuffer : Nat) :
    (virtioOutput mem txBuffer p).frame = p.payload := by
  have hle : p.payload.length ≤ 1514 := by
    rw [Pbuf.bytes, length_append] at h
    omega
  apply frame_of_stored rfl
  intro i hi
  simp only [virtioOutput, take_of_length_le hle]
  exact writeList_inside hi

/-- The three drivers hand the whole chain to their cards, wherever their buffers are. -/
def SameFrame (p : Pbuf) : Prop :=
  ∀ (mem : Mem) (txBuf txBuffer : Nat), ∀ idx < e1000MaxDesc,
    (rtlOutput mem txBuf p).frame = p.bytes ∧ (e1000Output mem idx p).1.frame = p.bytes ∧
    (virtioOutput mem txBuffer p).frame = p.bytes

/-- A chain that fits into a frame. -/
abbrev FrameChain := { p : Pbuf // 1 ≤ p.bytes.length ∧ p.bytes.length ≤ 1514 }

/-- **The three drivers send the same frame** exactly when the first segment holds all of it. -/
theorem same_frame_iff (p : FrameChain) : SameFrame p.val ↔ p.val.next.flatten = [] := by
  obtain ⟨p, -, hle⟩ := p
  have hbytes : p.payload = p.bytes ↔ p.next.flatten = [] := by
    rw [Pbuf.bytes, self_eq_append_right]
  constructor
  · intro h
    have hvirtio := (h (fun _ => 0) 0 0 0 (by decide)).2.2
    rw [virtioOutput_frame hle] at hvirtio
    exact hbytes.mp hvirtio
  · intro h mem txBuf txBuffer idx _
    refine ⟨rtlOutput_frame hle txBuf, e1000Output_frame hle idx, ?_⟩
    rw [virtioOutput_frame hle]
    exact hbytes.mpr h

/-- Two segments of a byte each: the first byte alone is sent. -/
theorem same_frame_fails : (virtioOutput (fun _ => 0) 0 ⟨[1], [[2]]⟩).frame = [1] ∧
    (⟨[1], [[2]]⟩ : Pbuf).bytes = [1, 2] ∧
    ¬ SameFrame ⟨[1], [[2]]⟩ := by
  have hframe : (virtioOutput (fun _ => 0) 0 ⟨[1], [[2]]⟩).frame = [1] := virtioOutput_frame (by decide) 0
  refine ⟨hframe, rfl, fun h => ?_⟩
  have hwhole := (h (fun _ => 0) 0 0 0 (by decide)).2.2
  rw [hframe] at hwhole
  exact absurd hwhole (by decide)

/-! ## The transmit ring of the e1000 -/

/-- The driver's memory and index, and what the card has been told and has not completed. -/
structure TxRing where
  mem : Mem
  txIdx : Nat
  pending : List Sent

inductive TxInput where
  | send (p : FrameChain)
  | complete (i : Nat)

/-- The output is what a call tells the card. The card completes what it likes. -/
def txStep (s : TxRing) : TxInput → Option Sent × TxRing
  | .send p =>
    let (sent, txIdx) := e1000Output s.mem s.txIdx p.val
    (some sent, ⟨sent.mem, txIdx, s.pending ++ [sent]⟩)
  | .complete i => (none, { s with pending := s.pending.eraseIdx i })

/-- After `e1000_hw_init`. -/
def txReady (mem : Mem) : TxRing := ⟨mem, 0, []⟩

/-- The bytes that a card reads as data. -/
def Sent.Covers (s : Sent) (x : Nat) : Prop := s.addr ≤ x ∧ x < s.addr + s.length

/-- The bytes of the descriptors. -/
def InTxRing (x : Nat) : Prop := txBase ≤ x ∧ x < txBase + e1000MaxDesc * 16

/-- The data of a call overlaps no descriptor and no data that is still to be sent. -/
def ClearCall (e : Machine.Event TxRing TxInput (Option Sent)) : Prop :=
  ∀ sent, e.output = some sent → ∀ x, sent.Covers x → ¬ InTxRing x ∧ ∀ q ∈ e.before.pending, ¬ q.Covers x

/-- The first byte of the data is in the ring, the index of the last descriptor apart. -/
lemma txData_clear_iff {idx : Nat} (hidx : idx < e1000MaxDesc) (p : FrameChain) :
    (∀ x, (e1000Output mem idx p.val).1.Covers x → ¬ InTxRing x) ↔ idx = 31 := by
  obtain ⟨p, hpos, hle⟩ := p
  have hmax : e1000MaxDesc = 32 := rfl
  have hlen : (copyChain 0 p.segments).length = p.bytes.length := by
    rw [copyChain_of_le (by rw [p.flatten_segments]; omega), p.flatten_segments]
  simp only [Sent.Covers, InTxRing, e1000Output, hlen]
  constructor
  · intro h
    have hfirst := h (txBase + idx * 16 + 16) ⟨Nat.le_refl _, by omega⟩
    omega
  · rintro rfl x hx
    omega

/-- The first frame of a run overlaps the ring. -/
lemma send_not_clear {s s' : TxRing} (hs : s.txIdx = 0) (p : FrameChain) :
    ¬ ClearCall ⟨s, .send p, some (e1000Output s.mem s.txIdx p.val).1, s'⟩ := by
  intro h
  have hclear := fun x hx => (h _ rfl x hx).1
  rw [txData_clear_iff (by rw [hs]; decide), hs] at hclear
  exact absurd hclear (by decide)

lemma clear_calls_iff {s : TxRing} (hs : s.txIdx = 0) (is : List TxInput) :
    (∀ e ∈ Machine.events txStep s is, ClearCall e) ↔ ∀ p, TxInput.send p ∉ is := by
  induction is generalizing s with
  | nil => simp only [Machine.events_nil, not_mem_nil, false_implies, implies_true, not_false_eq_true]
  | cons i is ih =>
    rw [Machine.events_cons, forall_mem_cons]
    cases i with
    | complete j =>
      have hsend : ∀ p, TxInput.send p ∈ TxInput.complete j :: is ↔ TxInput.send p ∈ is := by
        simp only [mem_cons, reduceCtorEq, false_or, implies_true]
      simp only [hsend]
      refine (and_iff_right ?_).trans (@ih { s with pending := s.pending.eraseIdx j } hs)
      intro sent hsent
      cases hsent
    | send p => exact iff_of_false (fun h => send_not_clear hs p h.1) (fun h => h p mem_cons_self)

/-- **Data and descriptors** of the e1000 are apart along a run exactly when nothing is sent in it;
a call writes into the ring unless its index is the last. -/
theorem e1000_apart_iff (mem : Mem) (is : List TxInput) :
    ((∀ e ∈ Machine.events txStep (txReady mem) is, ClearCall e) ↔ ∀ p, TxInput.send p ∉ is) ∧
    ∀ idx < e1000MaxDesc, ∀ p : FrameChain, (∀ x, (e1000Output mem idx p.val).1.Covers x → ¬ InTxRing x) ↔ idx = 31 :=
  ⟨clear_calls_iff rfl is, fun _ hidx p => txData_clear_iff hidx p⟩

/-- One frame of one byte, the first after `e1000_hw_init`: it is the first byte of descriptor 1. -/
theorem e1000_apart_fails : (e1000Output (fun _ => 0) 0 ⟨[7], []⟩).1.addr = txBase + 1 * 16 ∧
    ¬ ∀ e ∈ Machine.events txStep (txReady fun _ => 0) [.send ⟨⟨[7], []⟩, by decide⟩], ClearCall e := by
  refine ⟨rfl, fun h => ?_⟩
  exact (clear_calls_iff rfl _).mp h _ mem_cons_self

end PigOS.Drivers
