import PigOS.Crypto.Correctness.TlsRoundTrip

/-!
# `Crypto.Correctness.TlsStream` — `tls_recv` as a byte stream

`tls_recv(out,max)` hands one record to its caller, or fails: a record that is longer than `max` on
the wire, where it is at least 17 bytes longer than its payload, is dropped, header and all.
`recvAll` is what a sequence of requests returns, with every record in a read of its own.
-/

namespace PigOS.Crypto

open List

variable {recs : List WireRecord}

/-! ## What a record decrypts to -/

/-- The block that the receiver chains does not matter: it drops the first block as an IV. -/
lemma tlsDecode_iv (pr : Primitives) (key : List UInt8) (iv iv' : Block) {raw : List UInt8}
    (hmod : raw.length % 16 = 0) : tlsDecode pr key iv raw = tlsDecode pr key iv' raw := by
  have hdrop : (aesCbcDecrypt pr key iv raw).drop 16 = (aesCbcDecrypt pr key iv' raw).drop 16 := by
    unfold aesCbcDecrypt
    rw [drop_ofBlocks, drop_ofBlocks, Cbc.tail_decrypt aesXorIv (pr.aesInvCipher key) iv iv']
  unfold tlsDecode
  simp only
  rw [hdrop]
  by_cases hone : raw.length ≤ 16
  · -- a single block leaves no payload, whatever the padding
    have hzero : ∀ pad, raw.length - 16 - pad - 1 = 0 := by omega
    rw [hzero, hzero]
  · have hlast : ∀ dec : List UInt8, dec.getD (raw.length - 1) 0 = (dec.drop 16).getD (raw.length - 17) 0 := by
      intro dec
      have hindex : raw.length - 1 = 16 + (raw.length - 17) := by omega
      rw [hindex, getD_eq_getElem?_getD, getD_eq_getElem?_getD, getElem?_drop]
    rw [hlast, hlast (aesCbcDecrypt pr key iv' raw), hdrop]

/-- An application-data record that arrives in one read: whole blocks of ciphertext. -/
structure AppRecord (r : WireRecord) : Prop where
  type : r.type = 0x17
  ne : r.payload ≠ []
  blocks : r.payload.length % 16 = 0
  oneRead : r.bytes.length ≤ 1200

/-- The decrypted payload of a record (under any IV, by `tlsDecode_iv`). -/
def plaintext (pr : Primitives) (key : List UInt8) (r : WireRecord) : List UInt8 :=
  tlsDecode pr key zeroBlock r.payload

/-! ## One request -/

variable {r : WireRecord}

/-- A record in a read of its own is read whole, or, if it is longer than the request, left in
`recv_buf`, which is dropped. -/
lemma tlsRecvRaw_whole (hne : r.payload ≠ []) (hread : r.bytes.length ≤ 1200)
    (left : List UInt8) (maxdata : Nat) (net : List (List UInt8)) : tlsRecvRaw left maxdata (r.bytes :: net) =
      if maxdata < r.payload.length then (.error .error, r.payload, net) else (.ok (r.type, r.payload), [], net) := by
  have hpos := length_pos_iff.mpr hne
  rw [r.length_bytes] at hread
  have hcap : r.payload.length ≤ tlsMaxRecord := by
    unfold tlsMaxRecord
    omega
  have hfive : r.header.length = 5 := rfl
  have hhdr : recvHdr [] left (r.bytes :: net) = (some r.header, r.payload, net) := by
    rw [recvHdr_long (by decide) left (by rw [r.length_bytes]; simp only [length_nil]; omega)]
    show (some (r.header ++ r.payload |>.take 5), ((r.header ++ r.payload).drop 5).take (tlsMaxRecord + 256), net) = _
    rw [take_left' hfive, drop_left' hfive, take_of_length_le (Nat.le_add_right_of_le hcap)]
  have hrlen : tlsReadUint16 (r.header.getD 3 0) (r.header.getD 4 0) = r.payload.length :=
    tlsReadUint16_write (by unfold tlsMaxRecord at hcap; omega)
  have hbody : recvBody r.payload.length r.payload.length [] r.payload net = (some r.payload, [], net) := by
    obtain ⟨k, hk⟩ : ∃ k, r.payload.length = k + 1 := Nat.exists_eq_add_of_le' hpos
    rw [hk, recvBody_left (by rw [length_nil]; omega) k hne]
    have hmin : min (k + 1 - ([] : List UInt8).length) r.payload.length = r.payload.length := by
      rw [length_nil]
      omega
    rw [hmin, List.take_length, drop_length, nil_append, recvBody_full (by omega)]
  unfold tlsRecvRaw
  rw [hhdr]
  simp only [hrlen]
  split
  · rfl
  · rw [if_neg (by omega), hbody]
    rfl

section Requests

variable {pr : Primitives}

lemma tlsRecv_record {t : TlsCtx} (hr : AppRecord r) (max : Nat) (net : List (List UInt8)) :
    ∃ t' : TlsCtx, t'.macReadKey = t.macReadKey ∧ tlsRecv pr true t max (r.bytes :: net) =
      (if max < r.payload.length then .failed .error else .record 0x17 (plaintext pr t.macReadKey r), t', net) := by
  have hraw := tlsRecvRaw_whole hr.ne hr.oneRead t.recvBuf max net
  unfold tlsRecv
  rw [Bool.not_true, if_neg Bool.false_ne_true]
  by_cases hlong : max < r.payload.length
  · rw [if_pos hlong] at hraw ⊢
    refine ⟨{ t with recvBuf := r.payload }, rfl, ?_⟩
    unfold tlsRecvRecord
    rw [hraw]
  · rw [if_neg hlong, hr.type] at hraw
    rw [if_neg hlong]
    have hlen : r.payload.length ≤ tlsMaxRecord + 32 := by
      have h := hr.oneRead
      rw [r.length_bytes] at h
      unfold tlsMaxRecord
      omega
    rw [tlsRecvRecord_encrypted pr hr.ne hr.blocks hlen hraw, plaintext,
      tlsDecode_iv pr t.macReadKey zeroBlock t.serverIv hr.blocks]
    exact ⟨{ t with recvBuf := [], serverIv := copyBlock t.serverIv r.payload }, rfl, rfl⟩

lemma tlsRecv_dry (t : TlsCtx) (max : Nat) : tlsRecv pr true t max [] = (.failed .error, t, []) := rfl

/-- What a sequence of requests returns. -/
def recvAll (pr : Primitives) (key : List UInt8) : List WireRecord → List Nat → List RecvResult
  | _, [] => []
  | [], _ :: maxs => .failed .error :: recvAll pr key [] maxs
  | r :: recs, max :: maxs =>
    (if max < r.payload.length then .failed .error else .record 0x17 (plaintext pr key r)) ::
      recvAll pr key recs maxs

/-- The run lemma. -/
lemma tlsRecvs_eq (maxs : List Nat) (hrecs : ∀ r ∈ recs, AppRecord r) (t : TlsCtx) :
    tlsRecvs pr true t maxs (recs.map WireRecord.bytes) = recvAll pr t.macReadKey recs maxs := by
  induction maxs generalizing recs t with
  | nil => rw [tlsRecvs, recvAll]
  | cons max maxs ih =>
    cases recs with
    | nil =>
      rw [tlsRecvs, map_nil, tlsRecv_dry, recvAll]
      exact congrArg _ (ih (show ∀ r ∈ [], AppRecord r from fun _ hr => absurd hr not_mem_nil) t)
    | cons r recs =>
      rw [forall_mem_cons] at hrecs
      obtain ⟨t', hkey, hrecv⟩ := tlsRecv_record (t := t) hrecs.1 max (recs.map WireRecord.bytes)
      rw [tlsRecvs, map_cons, hrecv, recvAll, ← hkey]
      exact congrArg _ (ih hrecs.2 t')

end Requests

/-! ## Byte streams -/

/-- The bytes that a request returns. -/
def RecvResult.bytes : RecvResult → List UInt8
  | .record _ data => data
  | .failed _ => []

def RecvResult.isFailed : RecvResult → Bool
  | .record _ _ => false
  | .failed _ => true

/-- No request fails while some of `payload` is outstanding; what was returned is a beginning of it,
and all of it when enough has been requested. -/
structure IsByteStream (payload : List UInt8) (rs : List RecvResult) (enough : Prop) : Prop where
  alive : ∀ i r, rs[i]? = some r → (rs.take i).flatMap RecvResult.bytes ≠ payload → r.isFailed = false
  inOrder : rs.flatMap RecvResult.bytes <+: payload
  complete : enough → rs.flatMap RecvResult.bytes = payload

section Streams

variable {enough : Prop}

lemma isByteStream_nil (payload : List UInt8) : IsByteStream payload [] enough ↔ (enough → payload = []) := by
  constructor
  · intro h he
    exact (h.complete he).symm
  · intro h
    exact ⟨fun i r hr => absurd hr (by simp), nil_prefix, fun he => (h he).symm⟩

lemma isByteStream_record (type : UInt8) (p rest : List UInt8) (rs : List RecvResult) :
    IsByteStream (p ++ rest) (.record type p :: rs) enough ↔ IsByteStream rest rs enough := by
  constructor
  · intro h
    refine ⟨fun i r hr hne => ?_, ?_, fun he => ?_⟩
    · refine h.alive (i + 1) r hr (fun heq => hne ?_)
      exact append_cancel_left heq
    · exact (prefix_append_right_inj p).mp h.inOrder
    · exact append_cancel_left (h.complete he)
  · intro h
    refine ⟨fun i r hr hne => ?_, ?_, fun he => ?_⟩
    · cases i with
      | zero =>
        cases hr
        rfl
      | succ i => exact h.alive i r hr (fun heq => hne (congrArg (p ++ ·) heq))
    · exact (prefix_append_right_inj p).mpr h.inOrder
    · exact congrArg (p ++ ·) (h.complete he)

lemma not_isByteStream_failed {payload : List UInt8} (hne : payload ≠ []) (f : RecvFailure)
    (rs : List RecvResult) : ¬ IsByteStream payload (.failed f :: rs) enough := by
  intro h
  exact absurd (h.alive 0 _ rfl (fun heq => hne heq.symm)) (by simp [RecvResult.isFailed])

lemma isByteStream_of_empty {rs : List RecvResult} (h : ∀ r ∈ rs, r.bytes = []) : IsByteStream [] rs enough := by
  have hnil : ∀ rs' : List RecvResult, (∀ r ∈ rs', r.bytes = []) → rs'.flatMap RecvResult.bytes = [] :=
    fun rs' h' => flatMap_eq_nil_iff.mpr h'
  refine ⟨fun i r _ hne => ?_, ?_, fun _ => hnil rs h⟩
  · exact absurd (hnil _ (fun r' hr' => h r' (mem_of_mem_take hr'))) hne
  · rw [hnil rs h]

end Streams

/-! ## When `tls_recv` is a byte stream -/

section Main

variable {pr : Primitives} {key : List UInt8} {enough : Prop}

/-- The payload of a sequence of records. -/
def payload (pr : Primitives) (key : List UInt8) (recs : List WireRecord) : List UInt8 :=
  recs.flatMap (plaintext pr key)

lemma payload_cons (pr : Primitives) (key : List UInt8) (r : WireRecord) (recs : List WireRecord) :
    payload pr key (r :: recs) = plaintext pr key r ++ payload pr key recs := flatMap_cons

/-- Requests made while payload is outstanding are as long as the next record on the wire. -/
def RequestsFit (pr : Primitives) (key : List UInt8) (recs : List WireRecord) (maxs : List Nat) : Prop :=
  ∀ i r max, recs[i]? = some r → maxs[i]? = some max → payload pr key (recs.drop i) ≠ [] → r.payload.length ≤ max

lemma recvAll_empty (h : payload pr key recs = []) (maxs : List Nat) :
    ∀ r ∈ recvAll pr key recs maxs, r.bytes = [] := by
  induction maxs generalizing recs with
  | nil =>
    rw [recvAll]
    simp
  | cons max maxs ih =>
    cases recs with
    | nil =>
      rw [recvAll, forall_mem_cons]
      exact ⟨rfl, ih rfl⟩
    | cons r recs =>
      rw [payload_cons] at h
      obtain ⟨hr, hrest⟩ := append_eq_nil_iff.mp h
      rw [recvAll, forall_mem_cons]
      refine ⟨?_, ih hrest⟩
      split
      · rfl
      · exact hr

lemma payload_drop (h : payload pr key recs = []) (n : Nat) : payload pr key (recs.drop n) = [] :=
  flatMap_eq_nil_iff.mpr (fun r hr => flatMap_eq_nil_iff.mp h r (mem_of_mem_drop hr))

lemma requestsFit_cons {max : Nat} {maxs : List Nat} : RequestsFit pr key (r :: recs) (max :: maxs) ↔
      (payload pr key (r :: recs) ≠ [] → r.payload.length ≤ max) ∧ RequestsFit pr key recs maxs := by
  constructor
  · intro h
    exact ⟨fun hne => h 0 r max rfl rfl hne, fun i r' max' hr hm hne => h (i + 1) r' max' hr hm hne⟩
  · rintro ⟨hfirst, hrest⟩ i r' max' hr hm hne
    cases i with
    | zero =>
      cases hr
      cases hm
      exact hfirst hne
    | succ i => exact hrest i r' max' hr hm hne

lemma recvAll_stream_iff (maxs : List Nat) (recs : List WireRecord) :
    IsByteStream (payload pr key recs) (recvAll pr key recs maxs) enough ↔
      RequestsFit pr key recs maxs ∧ (enough → payload pr key (recs.drop maxs.length) = []) := by
  induction maxs generalizing recs with
  | nil =>
    rw [recvAll, isByteStream_nil]
    exact ⟨fun h => ⟨fun i r max _ hm => absurd hm (by simp), h⟩, fun h => h.2⟩
  | cons max maxs ih =>
    by_cases hempty : payload pr key recs = []
    · rw [hempty]
      refine ⟨fun _ => ⟨fun i r _ _ _ hne => ?_, fun _ => payload_drop hempty _⟩,
        fun _ => isByteStream_of_empty (recvAll_empty hempty _)⟩
      exact absurd (payload_drop hempty i) hne
    cases recs with
    | nil => exact absurd rfl hempty
    | cons r recs =>
      rw [recvAll, requestsFit_cons, length_cons, drop_succ_cons]
      split
      · -- the record is dropped, and its payload was outstanding
        rename_i hlong
        refine ⟨fun h => absurd h (not_isByteStream_failed hempty _ _), fun h => ?_⟩
        exact absurd (h.1.1 hempty) (Nat.not_le_of_lt hlong)
      · rename_i hfits
        rw [payload_cons, isByteStream_record, ih, and_assoc]
        exact (and_iff_right (fun _ => Nat.le_of_not_lt hfits)).symm

end Main

/-- **When `tls_recv` is a byte stream**, for records in reads of their own: exactly when every
request made while payload is outstanding is for at least as many bytes as the next record has on
the wire, and, where enough was requested, there was a request for every record with payload. -/
theorem tlsRecv_stream_iff (pr : Primitives) (t : TlsCtx) {recs : List WireRecord}
    (hrecs : ∀ r ∈ recs, AppRecord r) (maxs : List Nat) (enough : Prop) :
    IsByteStream (payload pr t.macReadKey recs) (tlsRecvs pr true t maxs (recs.map WireRecord.bytes)) enough ↔
      RequestsFit pr t.macReadKey recs maxs ∧
      (enough → payload pr t.macReadKey (recs.drop maxs.length) = []) := by
  rw [tlsRecvs_eq maxs hrecs t]
  exact recvAll_stream_iff maxs recs

/-- A record of two blocks; the plaintext behind the first is the letters `oink`. -/
def oinkRecord : WireRecord :=
  ⟨0x17, (3, 3), replicate 16 0 ++ [0x6F, 0x69, 0x6E, 0x6B] ++ replicate 12 11⟩

lemma appRecord_oink : AppRecord oinkRecord := ⟨rfl, by decide, rfl, by decide⟩

/-- A request as long as the record returns its payload. -/
theorem tlsRecv_stream_oink : IsByteStream [0x6F, 0x69, 0x6E, 0x6B]
      (tlsRecvs plainPrimitives true freshCtx [32, 1] ([oinkRecord].map WireRecord.bytes)) True := by
  have happ : ∀ r ∈ [oinkRecord], AppRecord r := by
    intro r hr
    rw [mem_singleton.mp hr]
    exact appRecord_oink
  refine (tlsRecv_stream_iff plainPrimitives freshCtx happ [32, 1] True).mpr ⟨?_, fun _ => rfl⟩
  rw [requestsFit_cons]
  exact ⟨fun _ => by decide, fun i r _ hr => absurd hr (by simp)⟩

/-- A caller that first asks for two bytes gets nothing, and the record is gone. -/
theorem tlsRecv_drops_oink :
    AppRecord oinkRecord ∧ payload plainPrimitives freshCtx.macReadKey [oinkRecord] = [0x6F, 0x69, 0x6E, 0x6B] ∧
    tlsRecvs plainPrimitives true freshCtx [2, 2, 1200] [oinkRecord.bytes] =
      [.failed .error, .failed .error, .failed .error] ∧
    ∀ enough, ¬ IsByteStream [0x6F, 0x69, 0x6E, 0x6B]
      (tlsRecvs plainPrimitives true freshCtx [2, 2, 1200] [oinkRecord.bytes]) enough := by
  have hrun : tlsRecvs plainPrimitives true freshCtx [2, 2, 1200] [oinkRecord.bytes] =
      [.failed .error, .failed .error, .failed .error] := by decide +kernel
  refine ⟨appRecord_oink, by decide +kernel, hrun, fun enough => ?_⟩
  rw [hrun]
  exact not_isByteStream_failed (by decide) _ _

end PigOS.Crypto
