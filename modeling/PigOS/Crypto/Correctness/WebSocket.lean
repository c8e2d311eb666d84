import PigOS.Crypto.WebSocket
import PigOS.Lib.Machine

/-!
# `Crypto.Correctness.WebSocket` — what `ws_recv_frame` reads off a stream of frames

`ws_recv_frame` reads one frame, except that it stops in the middle of a payload that is too long
for its caller (`wsRecvFrame_cases`): the next call takes the rest for a header.
-/

namespace PigOS.Crypto

open List

/-! ## Numbers -/

/-- A number as `w` bytes, the highest first. -/
def beBytes : Nat → Nat → List UInt8
  | 0, _ => []
  | w + 1, n => beBytes w (n / 256) ++ [UInt8.ofNat n]

@[simp] lemma length_beBytes (w n : Nat) : (beBytes w n).length = w := by
  induction w generalizing n with
  | zero => rfl
  | succ w ih => rw [beBytes, length_append, ih, length_singleton]

lemma beValue_beBytes {w n : Nat} (h : n < 256 ^ w) : beValue (beBytes w n) = n := by
  induction w generalizing n with
  | zero =>
    rw [Nat.pow_zero, Nat.lt_one_iff] at h
    rw [h]
    rfl
  | succ w ih =>
    rw [Nat.pow_succ] at h
    have hdiv : n / 256 < 256 ^ w := Nat.div_lt_of_lt_mul (by rwa [Nat.mul_comm] at h)
    have hvalue : beValue (beBytes w (n / 256)) = n / 256 := ih hdiv
    unfold beValue at hvalue ⊢
    rw [beBytes, foldl_append, hvalue, foldl_cons, foldl_nil, UInt8.toNat_ofNat']
    omega

lemma toInt32_le (n : Nat) : toInt32 n ≤ n := by
  unfold toInt32
  split <;> omega

lemma toInt32_of_lt {n : Nat} (h : n < 2 ^ 31) : toInt32 n = n := by
  unfold toInt32
  split <;> omega

lemma wsLimit_le_length (n maxout : Nat) : wsLimit n maxout ≤ n := by
  have hle := toInt32_le n
  unfold wsLimit
  split <;> omega

lemma wsLimit_le_maxout (n maxout : Nat) : wsLimit n maxout ≤ maxout := by
  unfold wsLimit
  split <;> omega

variable {maxout : Nat}

lemma wsLimit_eq_iff {n : Nat} (hmax : maxout < 2 ^ 31) : wsLimit n maxout = n ↔ n ≤ maxout := by
  constructor
  · intro h
    rw [← h]
    exact wsLimit_le_maxout n maxout
  · intro h
    have hint := toInt32_of_lt (Nat.lt_of_le_of_lt h hmax)
    unfold wsLimit
    rw [hint, if_neg (by omega), Int.toNat_natCast]

/-! ## Frames -/

/-- The three forms of the length. -/
inductive LenField where
  | bits7 | bits16 | bits64
  deriving DecidableEq

namespace LenField

/-- The lengths that the form can express are those below. -/
def bound : LenField → Nat
  | bits7 => 126
  | bits16 => 2 ^ 16
  | bits64 => 2 ^ 64

/-- The seven bits in the header. -/
def code : LenField → Nat → Nat
  | bits7, n => n
  | bits16, _ => 126
  | bits64, _ => 127

/-- The bytes behind the header. -/
def ext : LenField → Nat → List UInt8
  | bits7, _ => []
  | bits16, n => beBytes 2 n
  | bits64, n => beBytes 8 n

end LenField

structure WsFrame where
  /-- the flags and the opcode -/
  first : UInt8
  field : LenField
  mask : Option { m : List UInt8 // m.length = 4 }
  /-- the payload, as it is in the stream -/
  body : List UInt8
  fits : body.length < field.bound

namespace WsFrame

variable (fr : WsFrame)

def op : UInt8 := fr.first &&& 0x0F

def second : UInt8 := (if fr.mask.isSome then 0x80 else 0) ||| UInt8.ofNat (fr.field.code fr.body.length)

def maskBytes : List UInt8 :=
  match fr.mask with
  | some m => m.val
  | none => []

def bytes : List UInt8 :=
  [fr.first, fr.second] ++ (fr.field.ext fr.body.length ++ (fr.maskBytes ++ fr.body))

/-- Bytes of the payload before they were masked. -/
def unmask (out : List UInt8) : List UInt8 :=
  match fr.mask with
  | some m => wsMaskData out m.val
  | none => out

end WsFrame

lemma second_bits : ∀ (masked : Bool) (n : Fin 128),
    ((((if masked then 0x80 else 0) ||| UInt8.ofNat n) &&& 0x80 ≠ 0) ↔ masked = true) ∧
    (((if masked then 0x80 else 0) ||| UInt8.ofNat n) &&& 0x7F).toNat = n := by
  decide +kernel

lemma WsFrame.code_lt (fr : WsFrame) : fr.field.code fr.body.length < 128 := by
  have hfits := fr.fits
  cases hfield : fr.field with
  | bits7 =>
    rw [hfield] at hfits
    exact Nat.lt_trans hfits (by decide)
  | bits16 => exact (by decide : 126 < 128)
  | bits64 => exact (by decide : 127 < 128)

lemma WsFrame.masked_iff (fr : WsFrame) : decide (fr.second &&& 0x80 ≠ 0) = fr.mask.isSome := by
  have h := (second_bits fr.mask.isSome ⟨_, fr.code_lt⟩).1
  rw [Bool.eq_iff_iff, decide_eq_true_iff]
  exact h

lemma WsFrame.len7 (fr : WsFrame) : (fr.second &&& 0x7F).toNat = fr.field.code fr.body.length :=
  (second_bits fr.mask.isSome ⟨_, fr.code_lt⟩).2

/-! ## One call -/

section Reading

variable (maxout : Nat) (fr : WsFrame) {f : Feed UInt8} {rest : List UInt8}

/-- What is left of a frame and the stream behind it. -/
def afterFrame (rest : List UInt8) : List UInt8 := fr.body.drop (wsLimit fr.body.length maxout) ++ rest

/-- What is delivered of a frame. -/
def delivered : UInt8 × List UInt8 := (fr.op, fr.unmask (fr.body.take (wsLimit fr.body.length maxout)))

lemma wsReadPayload_yields (hbytes : f.bytes = fr.body ++ rest) :
    f.Yields (wsReadPayload maxout fr.op fr.body.length (fr.mask.map Subtype.val) f) (delivered maxout fr)
      (afterFrame maxout fr rest) := by
  have hsplit : f.bytes = fr.body.take (wsLimit fr.body.length maxout) ++ afterFrame maxout fr rest := by
    rw [hbytes, afterFrame, ← append_assoc, take_append_drop]
  refine Feed.Yields.readThen hsplit (length_take_of_le (wsLimit_le_length _ _)) (fun f' hf' => ?_)
  unfold delivered WsFrame.unmask
  rw [← hf']
  cases fr.mask with
  | none => exact Feed.yields_pure _
  | some m => exact Feed.yields_pure _

lemma wsReadMask_yields (hbytes : f.bytes = fr.maskBytes ++ (fr.body ++ rest)) :
    f.Yields (wsReadMask maxout fr.op fr.mask.isSome fr.body.length f) (delivered maxout fr)
      (afterFrame maxout fr rest) := by
  have hnext := fun (f' : Feed UInt8) (hf' : f'.bytes = fr.body ++ rest) => wsReadPayload_yields maxout fr hf'
  unfold wsReadMask
  unfold WsFrame.maskBytes at hbytes
  cases hmask : fr.mask with
  | none =>
    rw [hmask] at hbytes hnext
    rw [Option.isSome_none, if_neg Bool.false_ne_true]
    simp only [nil_append] at hbytes
    exact hnext f hbytes
  | some m =>
    rw [hmask] at hbytes hnext
    rw [Option.isSome_some, if_pos rfl]
    exact Feed.Yields.readThen hbytes m.property hnext

lemma wsReadFrame_yields (hbytes : f.bytes = fr.bytes ++ rest) :
    f.Yields (wsReadFrame maxout f) (delivered maxout fr) (afterFrame maxout fr rest) := by
  unfold WsFrame.bytes at hbytes
  rw [append_assoc] at hbytes
  refine Feed.Yields.readThen hbytes rfl (fun f' hf' => ?_)
  rw [append_assoc, append_assoc] at hf'
  have hfits := fr.fits
  have hmask := fun (f : Feed UInt8) (hf : f.bytes = fr.maskBytes ++ (fr.body ++ rest)) =>
    wsReadMask_yields maxout fr hf
  simp only [getD_cons_zero, getD_cons_succ, fr.masked_iff, fr.len7]
  cases hfield : fr.field with
  | bits7 =>
    rw [hfield] at hf' hfits
    have hlt : fr.body.length < 126 := hfits
    rw [LenField.code, if_neg (by omega), if_neg (by omega)]
    exact hmask f' hf'
  | bits16 =>
    rw [hfield] at hf' hfits
    have hvalue : beValue (LenField.bits16.ext fr.body.length) = fr.body.length := beValue_beBytes (w := 2) hfits
    rw [LenField.code, if_pos rfl]
    refine Feed.Yields.readThen hf' (length_beBytes 2 _) (fun f'' hf'' => ?_)
    rw [hvalue]
    exact hmask f'' hf''
  | bits64 =>
    rw [hfield] at hf' hfits
    have hvalue : beValue (LenField.bits64.ext fr.body.length) = fr.body.length := beValue_beBytes (w := 8) hfits
    rw [LenField.code, if_neg (by decide), if_pos rfl]
    refine Feed.Yields.readThen hf' (length_beBytes 8 _) (fun f'' hf'' => ?_)
    rw [hvalue]
    exact hmask f'' hf''

end Reading

/-- **One call of `ws_recv_frame`** at the beginning of a frame. -/
theorem wsRecvFrame_cases (s : WsState) (maxout : Nat) (fr : WsFrame) {rest : List UInt8}
    (hbytes : s.feed.bytes = fr.bytes ++ rest) :
    ((wsRecvFrame s maxout).1 = (wsAnswer s.ms (delivered maxout fr).1 (delivered maxout fr).2).1 ∧
      s.feed.Left (wsRecvFrame s maxout).2.feed (afterFrame maxout fr rest)) ∨
    (¬ s.feed.Live ∧ (wsRecvFrame s maxout).1 = .fail) := by
  unfold wsRecvFrame
  rcases wsReadFrame_yields maxout fr hbytes with ⟨f', hread, hleft⟩ | ⟨hdry, hnone⟩
  · rw [hread]
    exact .inl ⟨rfl, hleft⟩
  · right
    refine ⟨hdry, ?_⟩
    split
    · rfl
    · rename_i heq
      rw [heq] at hnone
      exact absurd hnone (by simp)

variable {s : WsState}

lemma wsRecvFrame_end (maxout : Nat) (hbytes : s.feed.bytes = []) : (wsRecvFrame s maxout).1 = .fail := by
  have hnone : (wsReadFrame maxout s.feed).1 = none := by
    refine Feed.readThen_short ?_
    rw [hbytes]
    exact Nat.zero_lt_two
  unfold wsRecvFrame
  split
  · rfl
  · rename_i heq
    rw [heq] at hnone
    exact absurd hnone (by simp)

/-! ## The round trip -/

@[simp] lemma length_wsMaskData (data mask : List UInt8) : (wsMaskData data mask).length = data.length :=
  length_mapIdx

lemma wsMaskData_twice (data mask : List UInt8) : wsMaskData (wsMaskData data mask) mask = data := by
  unfold wsMaskData
  rw [mapIdx_mapIdx]
  refine ext_getElem length_mapIdx (fun i h _ => ?_)
  rw [getElem_mapIdx]
  simp only [Function.comp_apply]
  rw [UInt8.xor_assoc, UInt8.xor_self, UInt8.xor_zero]

/-- A message that `ws_send_frame` can send and that `ws_recv_frame` hands to its caller. -/
structure WsMessage where
  op : UInt8
  payload : List UInt8
  op_lt : op < 16
  op_ne : op ≠ wsOpPing
  length : payload.length ≤ 65535

/-- `ws_send_frame` as a step of the mask generator. -/
def wsSendStep (ms : UInt32) (m : WsMessage) : Option (List UInt8) × UInt32 := wsSendFrame ms m.op m.payload

/-- What a sequence of `ws_send_frame` calls passes to `tls_send`. -/
def wsSent (ms : UInt32) (msgs : List WsMessage) : List UInt8 :=
  (Machine.events wsSendStep ms msgs).flatMap (fun e => e.output.getD [])

/-- The frame of a message. -/
def sentFrame (ms : UInt32) (m : WsMessage) : WsFrame where
  first := 0x80 ||| m.op
  field := if m.payload.length < 126 then .bits7 else .bits16
  mask := some ⟨wsMask (xorshift ms), rfl⟩
  body := wsMaskData m.payload (wsMask (xorshift ms))
  fits := by
    rw [length_wsMaskData]
    split
    · assumption
    · exact Nat.lt_succ_of_le m.length

lemma opcode_bits : ∀ n : Fin 16, (0x80 ||| UInt8.ofNat n) &&& 0x0F = UInt8.ofNat n := by decide

lemma sentFrame_op (ms : UInt32) (m : WsMessage) : (sentFrame ms m).op = m.op := by
  have h := opcode_bits ⟨m.op.toNat, m.op_lt⟩
  rwa [UInt8.ofNat_toNat] at h

lemma wsSendFrame_bytes (ms : UInt32) (m : WsMessage) :
    wsSendStep ms m = (some (sentFrame ms m).bytes, xorshift ms) := by
  have hlen : m.payload.length < 65536 := Nat.lt_succ_of_le m.length
  unfold wsSendStep wsSendFrame WsFrame.bytes WsFrame.second WsFrame.maskBytes sentFrame
  simp only [length_wsMaskData, Option.isSome_some, if_true]
  by_cases hshort : m.payload.length < 126
  · simp only [if_pos hshort]
    rfl
  · simp only [if_neg hshort, if_pos hlen]
    rfl

variable {rest : List UInt8}

/-- The step lemma: the frame of a message is received as that message. -/
lemma wsRecvFrame_sent (s : WsState) (ms : UInt32) (m : WsMessage)
    (hlive : s.feed.Live) (hbytes : s.feed.bytes = (sentFrame ms m).bytes ++ rest)
    (hmax : m.payload.length ≤ maxout ∧ maxout < 2 ^ 31) :
    (wsRecvFrame s maxout).1 = .frame m.op m.payload ∧ s.feed.Left (wsRecvFrame s maxout).2.feed rest := by
  have hbody : (sentFrame ms m).body = wsMaskData m.payload (wsMask (xorshift ms)) := rfl
  have hlen : (sentFrame ms m).body.length = m.payload.length := by rw [hbody, length_wsMaskData]
  have hall : wsLimit (sentFrame ms m).body.length maxout = (sentFrame ms m).body.length := by
    rw [wsLimit_eq_iff hmax.2, hlen]
    exact hmax.1
  have hout : (sentFrame ms m).unmask (sentFrame ms m).body = m.payload := wsMaskData_twice _ _
  rcases wsRecvFrame_cases s maxout (sentFrame ms m) hbytes with ⟨hresult, hleft⟩ | ⟨hdry, -⟩
  · unfold delivered at hresult
    unfold afterFrame at hleft
    rw [hall, List.take_length, hout, sentFrame_op, wsAnswer, if_neg m.op_ne] at hresult
    rw [hall, drop_length, nil_append] at hleft
    exact ⟨hresult, hleft⟩
  · exact absurd hlive hdry

/-- **What is sent is received**, message by message and however `tls_recv` splits the stream, if
the buffers are large enough. -/
theorem ws_roundtrip (ms : UInt32) (s : WsState) (hlive : s.feed.Live) {msgs : List WsMessage} {maxouts : List Nat}
    (hmax : List.Forall₂ (fun m maxout => m.payload.length ≤ maxout ∧ maxout < 2 ^ 31) msgs maxouts)
    {rest : List UInt8} (hbytes : s.feed.bytes = wsSent ms msgs ++ rest) :
    (Machine.events wsRecvFrame s maxouts).map (·.output) = msgs.map (fun m => .frame m.op m.payload) ∧
    (Machine.exec wsRecvFrame s maxouts).feed.bytes = rest := by
  induction hmax generalizing ms s with
  | nil => exact ⟨rfl, hbytes⟩
  | @cons m maxout msgs maxouts hm _ ih =>
    have hstream : s.feed.bytes = (sentFrame ms m).bytes ++ (wsSent (xorshift ms) msgs ++ rest) := by
      rw [hbytes, wsSent, Machine.events_cons, wsSendFrame_bytes, flatMap_cons, append_assoc]
      rfl
    obtain ⟨hresult, hleft⟩ := wsRecvFrame_sent s ms m hlive hstream hm
    obtain ⟨houts, hend⟩ := ih (xorshift ms) (wsRecvFrame s maxout).2 (hleft.live hlive) hleft.bytes
    rw [Machine.events_cons, map_cons, map_cons, Machine.exec_cons, hresult, houts]
    exact ⟨rfl, hend⟩

/-- A text message and a close message, in pieces of three bytes. -/
theorem ws_roundtrip_oink :
    let text : WsMessage := ⟨1, [0x6F, 0x69, 0x6E, 0x6B], by decide, by decide, by decide⟩
    let close : WsMessage := ⟨8, [0x03, 0xE8], by decide, by decide, by decide⟩
    let s : WsState := ⟨0, ⟨wsSent 0x12345678 [text, close], fun _ => 3⟩⟩
    (Machine.events wsRecvFrame s [4, 100]).map (·.output) =
      [.frame 1 [0x6F, 0x69, 0x6E, 0x6B], .frame 8 [0x03, 0xE8]] := by
  intro text close s
  have hmax : List.Forall₂ (fun (m : WsMessage) maxout => m.payload.length ≤ maxout ∧ maxout < 2 ^ 31) [text, close]
      [4, 100] := .cons (by decide) (.cons (by decide) .nil)
  exact (ws_roundtrip 0x12345678 s (fun _ => Nat.zero_lt_succ 2) hmax (append_nil _).symm).1

/-! ## Staying in sync -/

/-- The bytes that a call has written to `out`. -/
def WsResult.written : WsResult → List UInt8
  | .frame _ out => out
  | .ping out _ => out
  | _ => []

/-- The calls up to the first that returns -1 read one frame each and write no more than they
may. -/
def InSync : List WsFrame → List Nat → WsState → Prop
  | _, [], _ => True
  | frames, maxout :: maxouts, s =>
    (wsRecvFrame s maxout).1 = .fail ∨
    ((wsRecvFrame s maxout).1 ≠ .undefined ∧ (wsRecvFrame s maxout).1.written.length ≤ maxout ∧
      ∃ fr frames', frames = fr :: frames' ∧ s.feed.bytes = fr.bytes ++ (wsRecvFrame s maxout).2.feed.bytes ∧
        InSync frames' maxouts (wsRecvFrame s maxout).2)

/-- The payload fits the buffer of the caller, and that of a ping fits a pong. -/
def FitsCaller (fr : WsFrame) (maxout : Nat) : Prop :=
  fr.body.length ≤ maxout ∧ (fr.op = wsOpPing → fr.body.length < 65536)

lemma wsAnswer_ne_fail (ms : UInt32) (op : UInt8) (out : List UInt8) : (wsAnswer ms op out).1 ≠ .fail := by
  unfold wsAnswer
  split
  · split <;> simp
  · simp

lemma wsSendFrame_none_iff (ms : UInt32) (op : UInt8) (payload : List UInt8) :
    (wsSendFrame ms op payload).1 = none ↔ 65536 ≤ payload.length := by
  unfold wsSendFrame
  simp only
  split
  · simp only [reduceCtorEq, false_iff]
    omega
  · split
    · simp only [reduceCtorEq, false_iff]
      omega
    · simp only [true_iff]
      omega

lemma wsAnswer_undefined_iff (ms : UInt32) (op : UInt8) (out : List UInt8) :
    (wsAnswer ms op out).1 = .undefined ↔ op = wsOpPing ∧ 65536 ≤ out.length := by
  rw [← wsSendFrame_none_iff ms wsOpPong]
  unfold wsAnswer
  split
  · rename_i hping
    split
    · rename_i heq
      simp [heq]
    · rename_i heq
      simp [heq, hping]
  · rename_i hping
    simp [hping]

lemma wsAnswer_written_le (ms : UInt32) (op : UInt8) (out : List UInt8) :
    (wsAnswer ms op out).1.written.length ≤ out.length := by
  unfold wsAnswer
  split
  · split
    · exact Nat.le_refl _
    · exact Nat.zero_le _
  · exact Nat.le_refl _

lemma length_delivered (maxout : Nat) (fr : WsFrame) :
    (delivered maxout fr).2.length = wsLimit fr.body.length maxout := by
  have htake : (fr.body.take (wsLimit fr.body.length maxout)).length = wsLimit fr.body.length maxout :=
    length_take_of_le (wsLimit_le_length _ _)
  unfold delivered WsFrame.unmask
  simp only
  split
  · rw [length_wsMaskData, htake]
  · exact htake

lemma afterFrame_eq_iff (hmax : maxout < 2 ^ 31) (fr : WsFrame) (rest : List UInt8) :
    afterFrame maxout fr rest = rest ↔ fr.body.length ≤ maxout := by
  rw [← wsLimit_eq_iff hmax, afterFrame, append_left_eq_self, drop_eq_nil_iff]
  exact ⟨fun h => Nat.le_antisymm (wsLimit_le_length _ _) h, fun h => Nat.le_of_eq h.symm⟩

/-- The step lemma: a call that does not return -1 keeps the sync exactly if the frame fits the
caller. -/
lemma wsRecvFrame_sync_iff (hmax : maxout < 2 ^ 31) {fr : WsFrame}
    (hbytes : s.feed.bytes = fr.bytes ++ rest) (hret : (wsRecvFrame s maxout).1 ≠ .fail) :
    ((wsRecvFrame s maxout).1 ≠ .undefined ∧ (wsRecvFrame s maxout).1.written.length ≤ maxout ∧
      (wsRecvFrame s maxout).2.feed.bytes = rest) ↔ FitsCaller fr maxout := by
  rcases wsRecvFrame_cases s maxout fr hbytes with ⟨hresult, hleft⟩ | ⟨-, hfail⟩
  · have hop : (delivered maxout fr).1 = fr.op := rfl
    have hwritten := wsAnswer_written_le s.ms (delivered maxout fr).1 (delivered maxout fr).2
    rw [length_delivered] at hwritten
    have hle := Nat.le_trans hwritten (wsLimit_le_maxout _ _)
    rw [hresult, ne_eq, wsAnswer_undefined_iff, length_delivered, hleft.bytes, afterFrame_eq_iff hmax, hop, not_and,
      Nat.not_le]
    constructor
    · rintro ⟨hping, -, hfits⟩
      rw [(wsLimit_eq_iff hmax).mpr hfits] at hping
      exact ⟨hfits, hping⟩
    · rintro ⟨hfits, hping⟩
      rw [(wsLimit_eq_iff hmax).mpr hfits]
      exact ⟨hping, hle, hfits⟩
  · exact absurd hfail hret

/-- The next call fails only at the end of the stream, or at a read that comes back empty. -/
lemma wsRecvFrame_live (hlive : s.feed.Live) (maxout : Nat) {fr : WsFrame}
    (hbytes : s.feed.bytes = fr.bytes ++ rest) : (wsRecvFrame s maxout).1 ≠ .fail ∧
      (wsRecvFrame s maxout).2.feed.Live := by
  rcases wsRecvFrame_cases s maxout fr hbytes with ⟨hresult, hleft⟩ | ⟨hdry, -⟩
  · rw [hresult]
    exact ⟨wsAnswer_ne_fail _ _ _, hleft.live hlive⟩
  · exact absurd hlive hdry

/-- An unmasked text frame with a payload of four bytes. -/
def textFrame : WsFrame := ⟨0x81, .bits7, none, [0x61, 0x62, 0x88, 0x00], by decide⟩

/-- A masked ping. -/
def pingFrame : WsFrame := ⟨0x89, .bits7, some ⟨[1, 2, 3, 4], rfl⟩, [0x71, 0x6B], by decide⟩

end PigOS.Crypto
