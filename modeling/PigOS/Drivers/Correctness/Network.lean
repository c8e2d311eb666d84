import PigOS.Drivers.Network

/-!
# `Drivers.Correctness.Network` — what the TCP shim loses

A call keeps the last chain lwIP handed over, copies the part of its first segment that fits the
caller's buffer, and reports 16 bytes (`callBytes`). This is what was handed over exactly when that
was nothing, or sixteen bytes in one segment that fit (`callBytes_eq_iff`).
-/

namespace PigOS.Drivers

open List

variable {s : Shim} {d : Delivery} {p : Pbuf}

/-! ## The callbacks of one call -/

/-- The chain in the slot after some callbacks: the last one handed over. -/
def lastPbuf (cbs : List (Option Pbuf)) : Option Pbuf := (cbs.filterMap id).getLast?

lemma foldl_tcpRecvCb_connected (cbs : List (Option Pbuf)) (s : Shim) :
    (cbs.foldl tcpRecvCb s).connected = s.connected := by
  induction cbs generalizing s with
  | nil => rfl
  | cons cb cbs ih =>
    rw [foldl_cons, ih]
    cases cb <;> rfl

lemma foldl_tcpRecvCb_recvPbuf (cbs : List (Option Pbuf)) (s : Shim) :
    (cbs.foldl tcpRecvCb s).recvPbuf = (lastPbuf cbs).or s.recvPbuf := by
  induction cbs generalizing s with
  | nil => rfl
  | cons cb cbs ih =>
    rw [foldl_cons, ih]
    unfold lastPbuf
    cases cb with
    | none => rfl
    | some p =>
      show ((cbs.filterMap id).getLast?).or (some p) = ((p :: cbs.filterMap id).getLast?).or s.recvPbuf
      rw [getLast?_cons]
      cases (cbs.filterMap id).getLast? <;> rfl

lemma recvPoll_eq (polls : List (List (Option Pbuf))) (s : Shim) :
    recvPoll s polls = (recvPollCbs s polls).foldl tcpRecvCb s := by
  induction polls generalizing s with
  | nil => rfl
  | cons cbs polls ih =>
    unfold recvPoll recvPollCbs
    split
    · rfl
    · rw [ih, foldl_append]

/-- The callbacks of a call on a connected shim do not depend on what the slot held before. -/
def Delivery.cbs (d : Delivery) : List (Option Pbuf) := recvPollCbs ⟨true, none, false⟩ (d.polls.take pollMax)

lemma polled_eq (d : Delivery) (hs : s.connected = true) : d.polled s = d.cbs := by
  unfold Delivery.polled Delivery.cbs Shim.clear
  rw [if_pos hs, hs]

/-- The bytes that a call with this delivery makes its caller read. -/
def Delivery.callBytes (d : Delivery) (out : Buffer) : List UInt8 :=
  match lastPbuf d.cbs with
  | none => []
  | some p =>
    if min p.payload.length d.max = 0 then []
    else (range 16).map (fun i => if i < min p.payload.length d.max then p.payload.getD i 0 else out i)

/-- One call on a connected shim: the bytes reported, the chains handed over, and an empty slot. -/
lemma recvStep_spec (hs : s.connected = true) (d : Delivery) (out : Buffer) :
    (recvStep s (d, out)).1.bytes = d.callBytes out ∧
    (recvStep s (d, out)).1.handed = d.idle ++ d.cbs ∧
    (recvStep s (d, out)).2.connected = true ∧ (recvStep s (d, out)).2.recvPbuf = none := by
  have hs₀ : (d.idle.foldl tcpRecvCb s).connected = true := (foldl_tcpRecvCb_connected d.idle s).trans hs
  have hloop : recvPoll (d.idle.foldl tcpRecvCb s).clear (d.polls.take pollMax) =
      d.cbs.foldl tcpRecvCb ⟨true, none, false⟩ := by
    unfold Shim.clear
    rw [hs₀, recvPoll_eq]
    rfl
  have hslot := foldl_tcpRecvCb_recvPbuf d.cbs ⟨true, none, false⟩
  have hconn := foldl_tcpRecvCb_connected d.cbs ⟨true, none, false⟩
  rw [Option.or_none] at hslot
  unfold recvStep tcpRecvDataCompat tcpRecvCompat tcpRecvSync Delivery.callBytes
  simp only [hs₀, polled_eq d hs₀, hloop, hslot]
  cases hlast : lastPbuf d.cbs with
  | none =>
    rw [hlast] at hslot
    exact ⟨rfl, trivial, hconn, hslot⟩
  | some p =>
    refine ⟨?_, trivial, hconn, rfl⟩
    by_cases hlen : min p.payload.length d.max = 0
    · simp [hlen]
    · have hpos : (0 : Int) < ((min p.payload.length d.max : Nat) : Int) := by omega
      simp only [Bool.not_true, Bool.false_eq_true, if_false, if_neg hlen]
      rw [if_pos hpos]
      rfl

/-! ## One call against what was handed over -/

/-- What lwIP hands over between the end of the last call and the end of this one. -/
def Delivery.payload (d : Delivery) : List UInt8 := Drivers.payload (d.idle ++ d.cbs)

/-- No data, or sixteen bytes that are the first segment of the last chain of the loop, and room for
them. -/
def Delivery.Lossless (d : Delivery) : Prop :=
  d.payload = [] ∨
  ∃ p, lastPbuf d.cbs = some p ∧ p.payload.length = 16 ∧ 16 ≤ d.max ∧ d.payload = p.payload

lemma map_range_getD (l : List UInt8) (n : Nat) (h : n ≤ l.length) :
    (range n).map (fun i => l.getD i 0) = l.take n := by
  apply ext_getElem
  · simp [Nat.min_eq_left h]
  · intro i h₁ h₂
    have hi : i < l.length := by
      simp only [length_map, length_range] at h₁
      omega
    simp [hi]

lemma lastPbuf_payload_le (h : lastPbuf d.cbs = some p) : p.payload.length ≤ d.payload.length := by
  have hmem : p ∈ (d.idle ++ d.cbs).filterMap id := by
    rw [filterMap_append]
    exact mem_append_right _ (mem_of_getLast? h)
  unfold Delivery.payload Drivers.payload
  have hsub := sublist_flatten_of_mem (mem_map_of_mem (f := Pbuf.bytes) hmem)
  rw [flatMap_def]
  refine Nat.le_trans ?_ hsub.length_le
  unfold Pbuf.bytes
  rw [length_append]
  omega

/-- Sixteen bytes or more of the segment fit: the call reports the first sixteen. -/
lemma callBytes_of_long (h : lastPbuf d.cbs = some p)
    (hlen : 16 ≤ min p.payload.length d.max) (out : Buffer) : d.callBytes out = p.payload.take 16 := by
  unfold Delivery.callBytes
  rw [h]
  simp only
  rw [if_neg (by omega), ← map_range_getD p.payload 16 (by omega)]
  apply map_congr_left
  intro i hi
  rw [mem_range] at hi
  rw [if_pos (by omega)]

/-- Fewer bytes than that fit: the last byte reported is one the call did not write. -/
lemma callBytes_of_short (h : lastPbuf d.cbs = some p)
    (hpos : min p.payload.length d.max ≠ 0) (hlen : min p.payload.length d.max < 16) (out : Buffer) :
    (d.callBytes out).getLast? = some (out 15) := by
  unfold Delivery.callBytes
  rw [h]
  simp only
  rw [if_neg hpos, range_succ, map_append, map_singleton, getLast?_append]
  simp only [getLast?_singleton, Option.some_or]
  rw [if_neg (by omega)]

/-- **One call.** The caller reads what was handed over exactly when the delivery is lossless. -/
theorem callBytes_eq_iff (d : Delivery) : (∀ out, d.callBytes out = d.payload) ↔ d.Lossless := by
  constructor
  · intro h
    cases hlast : lastPbuf d.cbs with
    | none =>
      refine Or.inl ?_
      rw [← h (fun _ => 0)]
      unfold Delivery.callBytes
      rw [hlast]
    | some p =>
      by_cases hzero : min p.payload.length d.max = 0
      · refine Or.inl ?_
        rw [← h (fun _ => 0)]
        unfold Delivery.callBytes
        rw [hlast]
        simp only
        rw [if_pos hzero]
      · by_cases hshort : min p.payload.length d.max < 16
        · -- two buffers that differ in the sixteenth byte give different results
          have h0 := callBytes_of_short hlast hzero hshort (fun _ => 0)
          have h1 := callBytes_of_short hlast hzero hshort (fun _ => 1)
          rw [h] at h0 h1
          rw [h0] at h1
          exact absurd (Option.some.inj h1) (by decide)
        · have hlong : 16 ≤ min p.payload.length d.max := Nat.le_of_not_lt hshort
          have heq := h (fun _ => 0)
          rw [callBytes_of_long hlast hlong] at heq
          have hle := lastPbuf_payload_le hlast
          rw [← heq, length_take] at hle
          have hsixteen : p.payload.length = 16 := by omega
          refine Or.inr ⟨p, hlast, hsixteen, by omega, ?_⟩
          rw [← heq]
          exact take_of_length_le (by omega)
  · rintro (hnil | ⟨p, hlast, hlen, hmax, hp⟩) out
    · -- an empty payload: every chain is empty, so that the call reports nothing
      rw [hnil]
      unfold Delivery.callBytes
      cases hlast : lastPbuf d.cbs with
      | none => rfl
      | some p =>
        have hle := lastPbuf_payload_le hlast
        rw [hnil] at hle
        simp only [length_nil, Nat.le_zero] at hle
        simp [hle]
    · rw [callBytes_of_long hlast (by omega), hp]
      exact take_of_length_le (by omega)

/-! ## Sequences of calls -/

/-- What the caller has read begins what was handed over, and is all of it once the shim is
empty. -/
def LosesNothing (s : Shim) (cs : List (Delivery × Buffer)) : Prop :=
  received s cs <+: handed s cs ∧
  ((Machine.exec recvStep s cs).recvPbuf = none → received s cs = handed s cs)

section Calls

variable (hs : s.connected = true) (d : Delivery) (out : Buffer) (cs : List (Delivery × Buffer))

include hs

lemma received_cons : received s ((d, out) :: cs) = d.callBytes out ++ received (recvStep s (d, out)).2 cs := by
  unfold received
  rw [Machine.events_cons, flatMap_cons, (recvStep_spec hs d out).1]

lemma handed_cons : handed s ((d, out) :: cs) = d.payload ++ handed (recvStep s (d, out)).2 cs := by
  unfold handed Delivery.payload
  rw [Machine.events_cons, flatMap_cons, (recvStep_spec hs d out).2.1]

/-- After a call the slot is empty, so that all data there is has been read. -/
lemma recvPbuf_exec (hne : cs ≠ []) : (Machine.exec recvStep s cs).recvPbuf = none := by
  induction cs generalizing s with
  | nil => exact absurd rfl hne
  | cons c cs ih =>
    obtain ⟨d, out⟩ := c
    obtain ⟨-, -, hconn, hslot⟩ := recvStep_spec hs d out
    cases cs with
    | nil => exact hslot
    | cons c' cs => exact ih hconn (by simp)

lemma losesNothing_iff : LosesNothing s cs ↔ received s cs = handed s cs := by
  unfold LosesNothing
  constructor
  · rintro ⟨-, heq⟩
    cases cs with
    | nil => rfl
    | cons c cs => exact heq (recvPbuf_exec hs _ (by simp))
  · intro heq
    exact ⟨heq ▸ prefix_refl _, fun _ => heq⟩

/-- The run lemma: a sequence of lossless deliveries is received as it was handed over. -/
lemma received_eq_handed (h : ∀ c ∈ cs, c.1.Lossless) : received s cs = handed s cs := by
  induction cs generalizing s with
  | nil => rfl
  | cons c cs ih =>
    obtain ⟨d, out⟩ := c
    rw [forall_mem_cons] at h
    rw [received_cons hs, handed_cons hs, (callBytes_eq_iff d).mpr h.1 out,
      ih (recvStep_spec hs d out).2.2.1 h.2]

end Calls

/-- **When the shim loses nothing.** Whatever lies in the callers' buffers, after every number of
calls the bytes read are those handed over, exactly when every delivery is lossless. -/
theorem recv_loses_nothing_iff (s : Shim) (hs : s.connected = true) (ds : List Delivery) :
    (∀ cs : List (Delivery × Buffer), cs.map Prod.fst = ds → ∀ k, LosesNothing s (cs.take k)) ↔
      ∀ d ∈ ds, d.Lossless := by
  simp only [losesNothing_iff hs]
  constructor
  · intro h
    induction ds generalizing s with
    | nil => simp
    | cons d ds ih =>
      -- the buffers of the calls after the first do not matter for the first
      have hcall : ∀ out, d.callBytes out = d.payload := by
        intro out
        have h1 := h ((d, out) :: ds.map (fun d' => (d', out))) (by simp [Function.comp_def]) 1
        rw [take_succ_cons, take_zero, received_cons hs, handed_cons hs] at h1
        exact append_cancel_right h1
      rw [forall_mem_cons]
      refine ⟨(callBytes_eq_iff d).mp hcall, ?_⟩
      refine ih (recvStep s (d, fun _ => 0)).2 (recvStep_spec hs d _).2.2.1 ?_
      intro cs hcs k
      have hk := h ((d, fun _ => 0) :: cs) (by rw [map_cons, hcs]) (k + 1)
      rw [take_succ_cons, received_cons hs, handed_cons hs, hcall] at hk
      exact append_cancel_left hk
  · rintro h cs rfl k
    refine received_eq_handed hs _ (fun c hc => ?_)
    exact h c.1 (mem_map_of_mem (mem_of_mem_take hc))

/-- One round of polling hands over a single chain of one segment. -/
def oneSegment (seg : List UInt8) (max : Nat) : Delivery := ⟨[], [[some ⟨seg, []⟩]], max⟩

/-- Two segments of sixteen bytes, each arriving in a call of its own. -/
theorem recv_loses_nothing_sixteen :
    let cs := [(oneSegment (replicate 16 1) 1200, fun _ => 0),
      (oneSegment (replicate 16 2) 1200, fun _ => 0)]
    LosesNothing ⟨true, none, false⟩ cs := by
  intro cs
  refine (recv_loses_nothing_iff ⟨true, none, false⟩ rfl
    [oneSegment (replicate 16 1) 1200, oneSegment (replicate 16 2) 1200]).mpr ?_ cs rfl 2
  intro d hd
  rcases mem_cons.mp hd with rfl | hd
  · exact Or.inr ⟨⟨replicate 16 1, []⟩, rfl, rfl, by decide, rfl⟩
  · rw [mem_singleton.mp hd]
    exact Or.inr ⟨⟨replicate 16 2, []⟩, rfl, rfl, by decide, rfl⟩

/-- Of one segment of 40 bytes the caller reads sixteen; the rest is gone. -/
theorem recv_drops_rest :
    let cs := [(oneSegment (replicate 40 1) 1200, fun _ => 0)]
    handed ⟨true, none, false⟩ cs = replicate 40 1 ∧
    received ⟨true, none, false⟩ cs = replicate 16 1 ∧ ¬ LosesNothing ⟨true, none, false⟩ cs := by
  refine ⟨by decide, by decide, ?_⟩
  rintro ⟨-, hall⟩
  exact absurd (hall rfl) (by decide)

end PigOS.Drivers
