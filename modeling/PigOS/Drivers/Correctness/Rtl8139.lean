import PigOS.Drivers.Rtl8139
import PigOS.Lib.Machine
import PigOS.Lib.Ring

/-!
# `Drivers.Correctness.Rtl8139` — the card, the receive ring and the driver

The card writes a frame behind a header of four bytes, and only where nothing unread lies. The
driver takes what lies at its read pointer for a frame when it looks like one: it is right about the
frames that are there (`rtlRound_unread`), but not about what is left in memory. A call of
`rtl_input` is sixteen rounds (`exec_rounds`).
-/

namespace PigOS.Drivers

open List

variable {d : Rtl}

/-! ## The card -/

/-- A frame as the card writes it: a status with ROK set, the frame, its CRC and the padding. -/
structure Arrival where
  status : UInt8 × UInt8
  frame : List UInt8
  crc : List UInt8
  pad : List UInt8
  rok : status.1.toNat % 2 = 1
  size : 60 ≤ frame.length ∧ frame.length ≤ 1514
  crc4 : crc.length = 4
  whole : pad.length < 4 ∧ (frame.length + pad.length) % 4 = 0

/-- The length in the header counts the CRC. -/
def Arrival.header (a : Arrival) : List UInt8 :=
  [a.status.1, a.status.2, UInt8.ofNat (a.frame.length + 4), UInt8.ofNat ((a.frame.length + 4) / 256)]

def Arrival.bytes (a : Arrival) : List UInt8 := a.header ++ (a.frame ++ (a.crc ++ a.pad))

/-- The driver and the card: where it writes next, what is unread, and the frames that have arrived
and that lwIP has got. -/
structure Line where
  driver : Rtl
  tail : Nat
  unread : List (Nat × Arrival)
  arrived : List (List UInt8)
  delivered : List (List UInt8)

def Line.pending (s : Line) : List UInt8 := s.unread.flatMap fun u => u.2.bytes

/-- The position of the next frame's header. -/
def Line.nextHeader (s : Line) : Nat :=
  match s.unread with
  | [] => s.tail
  | u :: _ => u.1

inductive LineInput where
  | frame (a : Arrival)
  | round

/-- A frame that has no room is lost on the card. -/
def arrive (s : Line) (a : Arrival) : Line :=
  if s.pending.length + a.bytes.length ≤ rtlRxSz then
    { driver := { s.driver with mem := Ring.write rtlRxSz a.bytes s.tail s.driver.mem }
      tail := (s.tail + a.bytes.length) % rtlRxSz
      unread := s.unread ++ [(s.tail, a)]
      arrived := s.arrived ++ [a.frame]
      delivered := s.delivered }
  else s

def deliver (s : Line) : Line :=
  match rtlRound s.driver with
  | none => s
  | some (payload, d) => { s with driver := d, unread := s.unread.tail, delivered := s.delivered ++ [payload] }

def lineStep (s : Line) : LineInput → Unit × Line
  | .frame a => ((), arrive s a)
  | .round => ((), deliver s)

/-- After `rtl_hw_init`. -/
def lineReady : Line := ⟨rtlReady, 0, [], [], []⟩

/-! ## What is asked of the driver -/

/-- Every frame that has arrived has been delivered once, in order, or is unread; nothing else has
been; and the read pointer is at the next header. -/
structure InStep (s : Line) : Prop where
  frames : s.arrived = s.delivered ++ s.unread.map fun u => u.2.frame
  next : s.driver.rxPtr = s.nextHeader

/-- A step leaves the driver in step, and a round with something unread delivers the first of it. -/
structure Serves (e : Machine.Event Line LineInput Unit) : Prop where
  inStep : InStep e.after
  delivers : e.input = .round → ∀ u q, e.before.unread = u :: q → e.after.delivered = e.before.delivered ++ [u.2.frame]

/-- What lies at the read pointer looks like a frame. -/
def LooksLikeFrame (d : Rtl) : Prop :=
  d.word d.rxPtr % 2 = 1 ∧ 4 < d.word (d.rxPtr + 2) ∧ d.word (d.rxPtr + 2) ≤ 1522

lemma rtlRound_eq_none_iff (d : Rtl) : rtlRound d = none ↔ ¬ LooksLikeFrame d := by
  unfold rtlRound LooksLikeFrame
  dsimp only
  split_ifs with hstatus hlen
  · exact iff_of_true rfl fun h => by omega
  · exact iff_of_true rfl fun h => by omega
  · refine iff_of_false (by simp) ?_
    rw [not_not]
    omega

/-! ## A round with something unread -/

/-- The positions of the headers, from `p` on. -/
def Laid : Nat → List (Nat × Arrival) → Prop
  | _, [] => True
  | p, u :: q => u.1 = p % rtlRxSz ∧ Laid (p + u.2.bytes.length) q

variable {q : List (Nat × Arrival)}

lemma laid_mod {p : Nat} : Laid (p % rtlRxSz) q ↔ Laid p q := by
  induction q generalizing p with
  | nil => exact Iff.rfl
  | cons u q ih =>
    rw [Laid, Laid, Nat.mod_mod, ← ih, Nat.mod_add_mod, ih]

variable {u : Nat × Arrival}

lemma laid_append {p : Nat} :
    Laid p (q ++ [u]) ↔ Laid p q ∧ u.1 = (p + (q.flatMap fun u => u.2.bytes).length) % rtlRxSz := by
  induction q generalizing p with
  | nil => simp [Laid]
  | cons v q ih =>
    rw [cons_append, Laid, Laid, ih, flatMap_cons, length_append, Nat.add_assoc, and_assoc]

lemma Arrival.length_bytes (a : Arrival) : a.bytes.length = (4 + (a.frame.length + 4) + 3) / 4 * 4 := by
  have hcrc := a.crc4
  have hpad := a.whole
  simp only [Arrival.bytes, Arrival.header, length_append, length_cons, length_nil]
  omega

variable {a : Arrival}

lemma words_unread (hlt : d.rxPtr < rtlRxSz) (halign : d.rxPtr % 4 = 0)
    (hmem : Ring.Holds rtlRxSz d.mem d.rxPtr a.header) :
    d.word d.rxPtr % 2 = 1 ∧ d.word (d.rxPtr + 2) = a.frame.length + 4 := by
  have hsz : rtlRxSz = 8192 := rfl
  have hcell : ∀ (k : Nat) (hk : k < a.header.length), d.mem (d.rxPtr + k) = a.header[k] := by
    intro k hk
    have hk4 : k < 4 := hk
    rw [← hmem k hk, Nat.mod_eq_of_lt (by omega)]
  have h0 : d.mem d.rxPtr = a.status.1 := hcell 0 (by show 0 < 4; decide)
  have h2 : d.mem (d.rxPtr + 2) = UInt8.ofNat (a.frame.length + 4) := hcell 2 (by show 2 < 4; decide)
  have h3 : d.mem (d.rxPtr + 2 + 1) = UInt8.ofNat ((a.frame.length + 4) / 256) := hcell 3 (by show 3 < 4; decide)
  have hrok := a.rok
  have hsize := a.size
  unfold Rtl.word
  constructor
  · rw [h0]
    omega
  · rw [h2, h3, UInt8.toNat_ofNat', UInt8.toNat_ofNat']
    omega

/-- Memory that holds a frame at the read pointer: the round delivers it and goes to the next. -/
lemma rtlRound_unread (hlt : d.rxPtr < rtlRxSz) (halign : d.rxPtr % 4 = 0)
    (hmem : Ring.Holds rtlRxSz d.mem d.rxPtr a.bytes) :
    rtlRound d = some (a.frame, { d with rxPtr := (d.rxPtr + a.bytes.length) % rtlRxSz }) := by
  have hsz : rtlRxSz = 8192 := rfl
  have hsize := a.size
  obtain ⟨hheader, hrest⟩ := Ring.holds_append.mp hmem
  obtain ⟨hstatus, hraw⟩ := words_unread hlt halign hheader
  have hframe : Ring.Holds rtlRxSz d.mem ((d.rxPtr + 4) % rtlRxSz) a.frame :=
    Ring.holds_mod.mpr (Ring.holds_append.mp hrest).1
  have hlen : ((d.word (d.rxPtr + 2) : Int) - 4).toNat = a.frame.length := by
    rw [hraw]
    omega
  have hnext : (if (d.rxPtr + 4 + d.word (d.rxPtr + 2) + 3) / 4 * 4 % 65536 ≥ rtlRxSz
        then (d.rxPtr + 4 + d.word (d.rxPtr + 2) + 3) / 4 * 4 % 65536 - rtlRxSz
        else (d.rxPtr + 4 + d.word (d.rxPtr + 2) + 3) / 4 * 4 % 65536) =
      (d.rxPtr + a.bytes.length) % rtlRxSz := by
    rw [hraw, a.length_bytes]
    have hslot : (d.rxPtr + 4 + (a.frame.length + 4) + 3) / 4 * 4 % 65536 =
        d.rxPtr + (4 + (a.frame.length + 4) + 3) / 4 * 4 := by omega
    rw [hslot]
    split
    · rw [Nat.mod_eq_sub_mod (by omega), Nat.mod_eq_of_lt (by omega)]
    · rw [Nat.mod_eq_of_lt (by omega)]
  unfold rtlRound
  dsimp only
  rw [if_neg (by omega), if_neg (by omega), hlen, hnext]
  exact congrArg some (Prod.ext hframe.read rfl)

/-! ## In step -/

/-- `InStep`, with what memory holds. -/
structure Synced (s : Line) : Prop where
  lt : s.driver.rxPtr < rtlRxSz
  align : s.driver.rxPtr % 4 = 0
  frames : s.arrived = s.delivered ++ s.unread.map fun u => u.2.frame
  laid : Laid s.driver.rxPtr s.unread
  tail : s.tail = (s.driver.rxPtr + s.pending.length) % rtlRxSz
  room : s.pending.length ≤ rtlRxSz
  holds : Ring.Holds rtlRxSz s.driver.mem s.driver.rxPtr s.pending

variable {s : Line}

lemma Synced.inStep (h : Synced s) : InStep s := by
  refine ⟨h.frames, ?_⟩
  have hlt := h.lt
  have hlaid := h.laid
  have htail := h.tail
  unfold Line.nextHeader
  unfold Line.pending at htail
  cases hunread : s.unread with
  | nil =>
    rw [hunread] at htail
    rw [htail]
    exact (Nat.mod_eq_of_lt hlt).symm
  | cons u q =>
    rw [hunread] at hlaid
    show s.driver.rxPtr = u.1
    rw [hlaid.1, Nat.mod_eq_of_lt hlt]

lemma synced_ready : Synced lineReady where
  lt := by decide
  align := rfl
  frames := rfl
  laid := trivial
  tail := rfl
  room := by decide
  holds := fun i hi => absurd hi (Nat.not_lt_zero i)

lemma arrive_synced (h : Synced s) (a : Arrival) : Synced (arrive s a) := by
  unfold arrive
  split
  case isFalse => exact h
  case isTrue hroom =>
    have hpending : (s.unread ++ [(s.tail, a)]).flatMap (fun u => u.2.bytes) = s.pending ++ a.bytes := by
      simp [Line.pending]
    have hwrite : Ring.write rtlRxSz a.bytes s.tail s.driver.mem =
        Ring.write rtlRxSz a.bytes (s.driver.rxPtr + s.pending.length) s.driver.mem := by
      rw [h.tail, Ring.write_mod]
    refine ⟨h.lt, h.align, ?_, laid_append.mpr ⟨h.laid, h.tail⟩, ?_, ?_, ?_⟩
    · simp [h.frames]
    · show (s.tail + a.bytes.length) % rtlRxSz =
        (s.driver.rxPtr + ((s.unread ++ [(s.tail, a)]).flatMap _).length) % rtlRxSz
      rw [hpending, length_append, h.tail, Nat.mod_add_mod, Nat.add_assoc]
    · show ((s.unread ++ [(s.tail, a)]).flatMap _).length ≤ rtlRxSz
      rw [hpending, length_append]
      exact hroom
    · show Ring.Holds rtlRxSz (Ring.write rtlRxSz a.bytes s.tail s.driver.mem) s.driver.rxPtr
        ((s.unread ++ [(s.tail, a)]).flatMap _)
      rw [hpending, hwrite]
      exact Ring.holds_append.mpr ⟨h.holds.write (by omega) (by omega), Ring.holds_write (by omega)⟩

lemma deliver_unread (h : Synced s) (hunread : s.unread = u :: q) :
    deliver s = { s with
      driver := { s.driver with rxPtr := (s.driver.rxPtr + u.2.bytes.length) % rtlRxSz }
      unread := q
      delivered := s.delivered ++ [u.2.frame] } := by
  have hholds := h.holds
  rw [Line.pending, hunread, flatMap_cons] at hholds
  rw [deliver, rtlRound_unread h.lt h.align (Ring.holds_append.mp hholds).1, hunread]
  rfl

lemma deliver_synced (h : Synced s) (hne : s.unread ≠ []) : Synced (deliver s) := by
  obtain ⟨u, q, hunread⟩ := exists_cons_of_ne_nil hne
  have hpending : s.pending = u.2.bytes ++ q.flatMap fun u => u.2.bytes := by
    rw [Line.pending, hunread, flatMap_cons]
  have hholds := h.holds
  have htail := h.tail
  have hroom := h.room
  have hframes := h.frames
  have hlaid := h.laid
  have halign := h.align
  have hslot := u.2.length_bytes
  have hsz : rtlRxSz = 8192 := rfl
  rw [hunread] at hframes hlaid
  rw [hpending] at hholds htail hroom
  rw [length_append] at htail hroom
  rw [deliver_unread h hunread]
  refine ⟨Nat.mod_lt _ (by decide), ?_, ?_, laid_mod.mpr hlaid.2, ?_, ?_,
    Ring.holds_mod.mpr (Ring.holds_append.mp hholds).2⟩
  · show (s.driver.rxPtr + u.2.bytes.length) % rtlRxSz % 4 = 0
    rw [hsz]
    omega
  · rw [hframes, map_cons, append_assoc]
    rfl
  · show s.tail = ((s.driver.rxPtr + u.2.bytes.length) % rtlRxSz + (q.flatMap fun u => u.2.bytes).length) % rtlRxSz
    rw [htail, Nat.mod_add_mod, Nat.add_assoc]
  · show (q.flatMap fun u => u.2.bytes).length ≤ rtlRxSz
    omega

/-! ## Runs -/

/-- A round may be made: something is unread, or what lies there does not look like a frame. -/
def Quiet (s : Line) : LineInput → Prop
  | .frame _ => True
  | .round => s.unread = [] → ¬ LooksLikeFrame s.driver

variable {i : LineInput}

lemma lineStep_synced (h : Synced s) (hquiet : Quiet s i) : Synced (lineStep s i).2 := by
  cases i with
  | frame a => exact arrive_synced h a
  | round =>
    by_cases hunread : s.unread = []
    · have hnone := (rtlRound_eq_none_iff s.driver).mpr (hquiet hunread)
      show Synced (deliver s)
      rw [deliver, hnone]
      exact h
    · exact deliver_synced h hunread

/-- A frame that is not there is delivered: the driver is out of step. -/
lemma lineStep_not_inStep (h : Synced s) (hnot : ¬ Quiet s i) : ¬ InStep (lineStep s i).2 := by
  cases i with
  | frame a => exact absurd trivial hnot
  | round =>
    obtain ⟨hunread, hlooks⟩ : s.unread = [] ∧ LooksLikeFrame s.driver := by
      rw [Quiet, Classical.not_imp, not_not] at hnot
      exact hnot
    have hsome : rtlRound s.driver ≠ none := fun hnone => (rtlRound_eq_none_iff s.driver).mp hnone hlooks
    obtain ⟨⟨payload, d⟩, hround⟩ := Option.ne_none_iff_exists'.mp hsome
    intro hstep
    have hframes := hstep.frames
    have hall := h.frames
    rw [lineStep, deliver, hround, hunread] at hframes
    rw [hunread] at hall
    have hlen := congrArg length (hall.symm.trans hframes)
    simp at hlen

/-- The driver is right all along a run exactly when, at every round with nothing unread, what lies
at the read pointer does not look like a frame. -/
theorem line_serves_iff (is : List LineInput) : (∀ e ∈ Machine.events lineStep lineReady is, Serves e) ↔
      ∀ e ∈ Machine.events lineStep lineReady is, Quiet e.before e.input := by
  constructor
  · intro h
    exact (Machine.events_invariant_iff InStep (fun _ hs => hs.inStep) (fun _ _ hs hquiet => lineStep_synced hs hquiet)
      (fun _ _ hs hnot => lineStep_not_inStep hs hnot) synced_ready is).mp fun e he => (h e he).inStep
  · intro hquiet e he
    have hsynced : ∀ e ∈ Machine.events lineStep lineReady is, Synced e.before ∧ Synced e.after :=
      Machine.events_invariant Synced (fun _ _ hs hok => lineStep_synced hs hok) synced_ready hquiet
    obtain ⟨hbefore, hafter⟩ := hsynced e he
    refine ⟨hafter.inStep, fun hround u q hunread => ?_⟩
    have hstep : e.after = deliver e.before := by
      have := congrArg Prod.snd (Machine.mem_events he)
      rw [hround] at this
      exact this.symm
    rw [hstep, deliver_unread hbefore hunread]

/-! ## Calls of `rtl_input` -/

lemma rtlRounds_none (h : rtlRound d = none) (n : Nat) : rtlRounds n d = ([], d) := by
  cases n with
  | zero => rfl
  | succ n => rw [rtlRounds, h]

/-- The loop of `rtl_input` is rounds one after the other: once it is left, a round changes
nothing. -/
lemma exec_rounds (n : Nat) (s : Line) :
    Machine.exec lineStep s (replicate n .round) = { s with
      driver := (rtlRounds n s.driver).2
      unread := s.unread.drop (rtlRounds n s.driver).1.length
      delivered := s.delivered ++ (rtlRounds n s.driver).1 } := by
  induction n generalizing s with
  | zero => simp [rtlRounds]
  | succ n ih =>
    have hstep : (lineStep s .round).2 = deliver s := rfl
    rw [replicate_succ, Machine.exec_cons, hstep, ih]
    cases hround : rtlRound s.driver with
    | none =>
      have hstay : deliver s = s := by rw [deliver, hround]
      rw [hstay, rtlRounds_none hround, rtlRounds_none hround]
    | some r =>
      rw [deliver, hround, rtlRounds, hround]
      simp

/-- A call of `rtl_input` is sixteen rounds. -/
lemma exec_rtlInput (hok : s.driver.hwOk = true) :
    (Machine.exec lineStep s (replicate 16 .round)).driver = (rtlInput s.driver).2 ∧
    (Machine.exec lineStep s (replicate 16 .round)).delivered = s.delivered ++ (rtlInput s.driver).1 := by
  rw [exec_rounds, rtlInput, if_pos hok]
  exact ⟨rfl, rfl⟩

/-! ## A lap -/

lemma arrive_empty (hunread : s.unread = []) (hfits : a.bytes.length ≤ rtlRxSz) :
    arrive s a = { s with
      driver := { s.driver with mem := Ring.write rtlRxSz a.bytes s.tail s.driver.mem }
      tail := (s.tail + a.bytes.length) % rtlRxSz
      unread := [(s.tail, a)]
      arrived := s.arrived ++ [a.frame] } := by
  have hempty : s.pending.length = 0 := by rw [Line.pending, hunread]; rfl
  rw [arrive, if_pos (by omega), hunread]
  rfl

lemma frame_round (h : Synced s) (hunread : s.unread = []) (hfits : a.bytes.length ≤ rtlRxSz) :
    Synced (Machine.exec lineStep s [.frame a, .round]) ∧
    Machine.exec lineStep s [.frame a, .round] = { s with
      driver := { s.driver with
        mem := Ring.write rtlRxSz a.bytes s.tail s.driver.mem
        rxPtr := (s.driver.rxPtr + a.bytes.length) % rtlRxSz }
      tail := (s.tail + a.bytes.length) % rtlRxSz
      arrived := s.arrived ++ [a.frame]
      delivered := s.delivered ++ [a.frame] } := by
  have hone : (arrive s a).unread = [(s.tail, a)] := by rw [arrive_empty hunread hfits]
  constructor
  · show Synced (deliver (arrive s a))
    exact deliver_synced (arrive_synced h a) (by rw [hone]; exact cons_ne_nil _ _)
  · show deliver (arrive s a) = _
    rw [deliver_unread (arrive_synced h a) hone, arrive_empty hunread hfits, hunread]

section Lap

variable {a : Arrival} {k : Nat}

/-- Frames that are delivered as they arrive. -/
def lap (a : Arrival) : Nat → List LineInput
  | 0 => []
  | k + 1 => lap a k ++ [.frame a, .round]

/-- After `k` frames of a lap, an eighth of the ring each, nothing is unread, and all bytes are
still there. -/
structure Lapped (a : Arrival) (k : Nat) (s : Line) : Prop where
  synced : Synced s
  unread : s.unread = []
  rxPtr : s.driver.rxPtr = 1024 * k % rtlRxSz
  left : ∀ j < k, Ring.Holds rtlRxSz s.driver.mem (1024 * j) a.bytes
  arrived : s.arrived = replicate k a.frame
  delivered : s.delivered = replicate k a.frame

lemma Lapped.tail (h : Lapped a k s) : s.tail = 1024 * k % rtlRxSz := by
  rw [h.synced.tail, Line.pending, h.unread, h.rxPtr]
  exact Nat.mod_mod _ _

lemma Lapped.next (hlen : a.bytes.length = 1024) (h : Lapped a k s) (hk : k < 8) :
    Lapped a (k + 1) (Machine.exec lineStep s [.frame a, .round]) := by
  have hsz : rtlRxSz = 8192 := rfl
  have htail := h.tail
  obtain ⟨hsynced, hstate⟩ := frame_round h.synced h.unread (a := a) (by omega)
  rw [Nat.mod_eq_of_lt (by omega)] at htail
  rw [hstate] at hsynced ⊢
  refine ⟨hsynced, h.unread, ?_, ?_, ?_, ?_⟩
  · rw [h.rxPtr, hlen, Nat.mod_add_mod, Nat.mul_add]
  · intro j hj
    rcases Nat.lt_or_ge j k with hlt | hge
    · exact (h.left j hlt).write (by omega) (by omega)
    · have hjk : 1024 * j = s.tail := by omega
      rw [hjk]
      exact Ring.holds_write (by omega)
  · rw [h.arrived, replicate_succ']
  · rw [h.delivered, replicate_succ']

lemma lapped_exec (hlen : a.bytes.length = 1024) (hk : k ≤ 8) :
    Lapped a k (Machine.exec lineStep lineReady (lap a k)) := by
  induction k with
  | zero => exact ⟨synced_ready, rfl, rfl, fun j hj => absurd hj (Nat.not_lt_zero j), rfl, rfl⟩
  | succ k ih =>
    rw [lap, Machine.exec_append]
    exact (ih (by omega)).next hlen (by omega)

/-- After a whole lap the driver is back at the first header, and delivers the first frame again. -/
lemma lap_round (hlen : a.bytes.length = 1024) :
    (Machine.exec lineStep lineReady (lap a 8 ++ [.round])).arrived = replicate 8 a.frame ∧
    (Machine.exec lineStep lineReady (lap a 8 ++ [.round])).delivered = replicate 9 a.frame := by
  have hlap := lapped_exec hlen (Nat.le_refl 8)
  rw [Machine.exec_append]
  generalize Machine.exec lineStep lineReady (lap a 8) = s at hlap
  have hzero : s.driver.rxPtr = 0 := hlap.rxPtr
  have hround := rtlRound_unread hlap.synced.lt hlap.synced.align (by rw [hzero]; exact hlap.left 0 (by decide))
  show (deliver s).arrived = _ ∧ (deliver s).delivered = _
  rw [deliver, hround]
  refine ⟨hlap.arrived, ?_⟩
  rw [hlap.delivered, replicate_succ' (n := 8)]

end Lap

/-- A frame of 1016 bytes. -/
def eighth : Arrival where
  status := (1, 0)
  frame := replicate 1016 0xAA
  crc := [0, 0, 0, 0]
  pad := []
  rok := rfl
  size := by rw [length_replicate]; decide
  crc4 := rfl
  whole := by rw [length_replicate]; decide

lemma length_eighth : eighth.bytes.length = 1024 := by
  have hframe : eighth.frame.length = 1016 := length_replicate
  rw [Arrival.length_bytes, hframe]

/-- Eight frames, each delivered before the next arrives, and one more round: nine are delivered. -/
theorem line_replays : (Machine.exec lineStep lineReady (lap eighth 8 ++ [.round])).arrived.length = 8 ∧
    (Machine.exec lineStep lineReady (lap eighth 8 ++ [.round])).delivered.length = 9 ∧
    ¬ ∀ e ∈ Machine.events lineStep lineReady (lap eighth 8 ++ [.round]), Serves e := by
  obtain ⟨harrived, hdelivered⟩ := lap_round length_eighth
  rw [harrived, hdelivered]
  refine ⟨length_replicate, length_replicate, fun hall => ?_⟩
  have hend := (Machine.exec_of_events InStep synced_ready.inStep fun e he => (hall e he).inStep).frames
  have hlen := congrArg length hend
  rw [harrived, hdelivered, length_append, length_replicate, length_replicate] at hlen
  omega

end PigOS.Drivers
