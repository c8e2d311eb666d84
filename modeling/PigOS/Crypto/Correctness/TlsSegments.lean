import PigOS.Crypto.TlsRecord
import PigOS.Lib.Chunks

/-!
# `Crypto.Correctness.TlsSegments` — reassembling records from TCP reads

The header loop of `tls_recv_record` passes over the bytes that the last call left in `recv_buf`: a
read that holds the end of one record and the beginning of the next loses the latter. Each loop has
two lemmas: what holds when it returns (`…_conserves`) and when it returns at all (`…_succeeds`).
-/

namespace PigOS.Crypto

open Chunks List

variable {left' raw : List UInt8} {net net' : List (List UInt8)} {type : UInt8} {t : TlsCtx}

/-! ## The header loop -/

variable {got left : List UInt8}

lemma recvHdr_full (h : ¬ got.length < 5) (left : List UInt8) (net : List (List UInt8)) :
    recvHdr got left net = (some got, left, net) := by
  cases net with
  | nil => rw [recvHdr, if_neg h]
  | cons c net => rw [recvHdr, if_neg h]

section HeaderRounds

variable {got : List UInt8} (hlt : got.length < 5) (left : List UInt8) {c : List UInt8}
include hlt

lemma recvHdr_short (hc : c ≠ []) (hle : c.length ≤ 5 - got.length) (net : List (List UInt8)) :
    recvHdr got left (c :: net) = recvHdr (got ++ c) left net := by
  have hmin : min c.length (5 - got.length) = c.length := Nat.min_eq_left hle
  rw [recvHdr, if_pos hlt, if_neg hc]
  simp only [hmin, Nat.lt_irrefl, if_false, List.take_length]

/-- A round whose read holds more than the header needs puts the rest into `recv_buf`, and ends. -/
lemma recvHdr_long (hgt : 5 - got.length < c.length) (net : List (List UInt8)) : recvHdr got left (c :: net) =
      (some (got ++ c.take (5 - got.length)), (c.drop (5 - got.length)).take (tlsMaxRecord + 256), net) := by
  have hmin : min c.length (5 - got.length) = 5 - got.length := Nat.min_eq_right (Nat.le_of_lt hgt)
  have hc : c ≠ [] := length_pos_iff.mp (Nat.zero_lt_of_lt hgt)
  rw [recvHdr, if_pos hlt, if_neg hc]
  simp only [hmin, hgt, if_true]
  exact recvHdr_full (by rw [length_append, length_take]; omega) _ _

lemma recvHdr_dry (net : List (List UInt8)) (hnet : ∀ c rest, net = c :: rest → c = []) :
    (recvHdr got left net).1 = none := by
  cases net with
  | nil => rw [recvHdr, if_pos hlt]
  | cons c rest => rw [recvHdr, if_pos hlt, if_pos (hnet c rest rfl)]

end HeaderRounds

/-- The sizes of the reads fit `recv_buf`. -/
def FitsRecvBuf (net : List (List UInt8)) : Prop := ∀ c ∈ net, c.length ≤ tlsMaxRecord + 256

/-- The five bytes come off the network, and `recv_buf` is as it was or holds the rest of the last
read. -/
lemma recvHdr_conserves {hdr : List UInt8}
    (hfit : FitsRecvBuf net) (hgot : got.length ≤ 5)
    (h : recvHdr got left net = (some hdr, left', net')) : hdr.length = 5 ∧
    ((left' = left ∧ net' <:+ net ∧ hdr ++ net'.flatten = got ++ net.flatten) ∨
     (Cut net left' net' ∧ hdr ++ (left' ++ net'.flatten) = got ++ net.flatten)) := by
  induction net generalizing got left with
  | nil =>
    by_cases hlt : got.length < 5
    · have hnone := recvHdr_dry hlt left [] (by simp)
      rw [h] at hnone
      exact absurd hnone (by simp)
    · rw [recvHdr_full hlt] at h
      cases h
      exact ⟨by omega, Or.inl ⟨rfl, suffix_refl _, rfl⟩⟩
  | cons c net ih =>
    by_cases hlt : ¬ got.length < 5
    · rw [recvHdr_full hlt] at h
      cases h
      exact ⟨by omega, Or.inl ⟨rfl, suffix_refl _, rfl⟩⟩
    rw [not_not] at hlt
    have hcfit := hfit c mem_cons_self
    by_cases hc : c = []
    · have hnone := recvHdr_dry hlt left (c :: net) (by rintro _ _ ⟨⟩; exact hc)
      rw [h] at hnone
      exact absurd hnone (by simp)
    by_cases hlong : 5 - got.length < c.length
    · have hdrop : (c.drop (5 - got.length)).take (tlsMaxRecord + 256) = c.drop (5 - got.length) :=
        take_of_length_le (by rw [length_drop]; omega)
      rw [recvHdr_long hlt left hlong, hdrop] at h
      cases h
      refine ⟨by rw [length_append, length_take]; omega, Or.inr ⟨?_, ?_⟩⟩
      · exact (cut_refl _).next (by rw [length_drop]; omega)
      · rw [append_assoc, ← append_assoc (c.take _), take_append_drop, flatten_cons]
    · rw [recvHdr_short hlt left hc (Nat.not_lt.mp hlong)] at h
      obtain ⟨hlen, hcases⟩ := ih (fun d hd => hfit d (mem_cons_of_mem c hd))
        (by rw [length_append]; omega) h
      refine ⟨hlen, ?_⟩
      rw [flatten_cons, ← append_assoc]
      rcases hcases with ⟨hleft, hsuf, hflat⟩ | ⟨hcut, hflat⟩
      · exact Or.inl ⟨hleft, hsuf.trans (suffix_cons c net), hflat⟩
      · exact Or.inr ⟨hcut.of_suffix (suffix_cons c net), hflat⟩

lemma recvHdr_succeeds (hne : ∀ c ∈ net, c ≠ []) (hlen : 5 ≤ got.length + net.flatten.length) :
    ∃ hdr left' net', recvHdr got left net = (some hdr, left', net') := by
  induction net generalizing got left with
  | nil =>
    rw [flatten_nil, length_nil] at hlen
    exact ⟨_, _, _, recvHdr_full (by omega) _ _⟩
  | cons c net ih =>
    by_cases hlt : got.length < 5
    · by_cases hlong : 5 - got.length < c.length
      · exact ⟨_, _, _, recvHdr_long hlt left hlong net⟩
      · rw [recvHdr_short hlt left (hne c mem_cons_self) (Nat.not_lt.mp hlong)]
        refine ih (fun d hd => hne d (mem_cons_of_mem c hd)) ?_
        rw [flatten_cons, length_append] at hlen
        rw [length_append]
        omega
    · exact ⟨_, _, _, recvHdr_full hlt _ _⟩

/-! ## The body loop -/

variable {maxdata rlen : Nat} {rounds : Nat}

lemma recvBody_full (h : ¬ got.length < rlen) (rounds : Nat)
    (left : List UInt8) (net : List (List UInt8)) : recvBody rlen rounds got left net = (some got, left, net) := by
  cases rounds with
  | zero => rw [recvBody, if_neg h]
  | succ rounds =>
    unfold recvBody
    rw [if_neg h]

section Rounds

variable {rlen : Nat} {got : List UInt8} (hlt : got.length < rlen) (rounds : Nat)
include hlt

lemma recvBody_left (hleft : left ≠ []) (net : List (List UInt8)) :
    recvBody rlen (rounds + 1) got left net =
      recvBody rlen rounds (got ++ left.take (min (rlen - got.length) left.length))
        (left.drop (min (rlen - got.length) left.length)) net := by
  conv => lhs; unfold recvBody
  rw [if_pos hlt, if_pos hleft]

/-- A round that reads from TCP: what the record does not need goes into `recv_buf`. -/
lemma recvBody_chunk {c : List UInt8} (hc : c ≠ []) (net : List (List UInt8)) :
    recvBody rlen (rounds + 1) got [] (c :: net) =
      recvBody rlen rounds (got ++ c.take (min (rlen - got.length) c.length))
        (c.drop (min (rlen - got.length) c.length)) net := by
  conv => lhs; unfold recvBody
  rw [if_pos hlt, if_neg (not_not_intro rfl)]
  simp only
  rw [if_neg hc]
  split
  · rfl
  · rw [drop_of_length_le (by omega)]

lemma recvBody_dry (hnet : ∀ c rest, net = c :: rest → c = []) : (recvBody rlen (rounds + 1) got [] net).1 = none := by
  unfold recvBody
  rw [if_pos hlt, if_neg (not_not_intro rfl)]
  cases net with
  | nil => rfl
  | cons c rest =>
    simp only
    rw [if_pos (hnet c rest rfl)]

end Rounds

/-- The bytes of a successful body loop come off `recv_buf` and then off the network, in order. -/
lemma recvBody_conserves
    (hgot : got.length ≤ rlen) (h : recvBody rlen rounds got left net = (some raw, left', net')) :
    raw.length = rlen ∧ raw ++ (left' ++ net'.flatten) = got ++ (left ++ net.flatten) ∧ net' <:+ net ∧
    ∀ base, Cut base left net → Cut base left' net' := by
  induction rounds generalizing got left net with
  | zero =>
    by_cases hlt : got.length < rlen
    · rw [recvBody, if_pos hlt] at h
      exact absurd (congrArg Prod.fst h) (by simp)
    · rw [recvBody_full hlt] at h
      cases h
      exact ⟨by omega, rfl, suffix_refl _, fun _ hcut => hcut⟩
  | succ rounds ih =>
    by_cases hlt : ¬ got.length < rlen
    · rw [recvBody_full hlt] at h
      cases h
      exact ⟨by omega, rfl, suffix_refl _, fun _ hcut => hcut⟩
    rw [not_not] at hlt
    by_cases hleft : left = []
    · subst hleft
      by_cases hdry : ∀ c rest, net = c :: rest → c = []
      · have hnone := recvBody_dry hlt rounds hdry
        rw [h] at hnone
        exact absurd hnone (by simp)
      · simp only [not_forall] at hdry
        obtain ⟨c, rest, rfl, hc⟩ := hdry
        have hpos := length_pos_iff.mpr hc
        rw [recvBody_chunk hlt rounds hc] at h
        obtain ⟨hlen, hflat, hsuf, hcut⟩ := ih (by rw [length_append, length_take]; omega) h
        refine ⟨hlen, ?_, hsuf.trans (suffix_cons c rest), fun base hbase => hcut base (hbase.next ?_)⟩
        · rw [hflat, append_assoc, ← append_assoc (c.take _), take_append_drop,
            nil_append, flatten_cons]
        · rw [length_drop]
          omega
    · rw [recvBody_left hlt rounds hleft] at h
      obtain ⟨hlen, hflat, hsuf, hcut⟩ := ih (by rw [length_append, length_take]; omega) h
      refine ⟨hlen, ?_, hsuf, fun base hbase => hcut base (hbase.shrink ?_)⟩
      · rw [hflat, append_assoc, ← append_assoc (left.take _), take_append_drop]
      · rw [length_drop]
        omega

/-- The body loop returns once `recv_buf` and the network have enough bytes. -/
lemma recvBody_succeeds
    (hne : ∀ c ∈ net, c ≠ []) (hrounds : rlen ≤ got.length + rounds)
    (hlen : rlen ≤ got.length + left.length + net.flatten.length) :
    ∃ raw left' net', recvBody rlen rounds got left net = (some raw, left', net') := by
  induction rounds generalizing got left net with
  | zero => exact ⟨_, _, _, recvBody_full (by omega) _ _ _⟩
  | succ rounds ih =>
    by_cases hlt : got.length < rlen
    · by_cases hleft : left = []
      · subst hleft
        cases net with
        | nil =>
          rw [flatten_nil, length_nil] at hlen
          omega
        | cons c net =>
          have hpos := length_pos_iff.mpr (hne c mem_cons_self)
          rw [recvBody_chunk hlt rounds (hne c mem_cons_self)]
          rw [flatten_cons, length_append, length_nil] at hlen
          refine ih (fun d hd => hne d (mem_cons_of_mem c hd)) ?_ ?_
          · rw [length_append, length_take]
            omega
          · rw [length_append, length_take, length_drop]
            omega
      · have hpos := length_pos_iff.mpr hleft
        rw [recvBody_left hlt rounds hleft]
        refine ih hne ?_ ?_
        · rw [length_append, length_take]
          omega
        · rw [length_append, length_take, length_drop]
          omega
    · exact ⟨_, _, _, recvBody_full hlt _ _ _⟩

/-! ## One record -/

/-- A record as it is on the wire: its header's length field is that of its payload. -/
structure WireRecord where
  type : UInt8
  version : UInt8 × UInt8
  payload : List UInt8

def WireRecord.header (r : WireRecord) : List UInt8 :=
  r.type :: r.version.1 :: r.version.2 :: tlsWriteUint16 r.payload.length

def WireRecord.bytes (r : WireRecord) : List UInt8 := r.header ++ r.payload

lemma WireRecord.length_bytes (r : WireRecord) : r.bytes.length = 5 + r.payload.length := by
  unfold WireRecord.bytes
  rw [length_append]
  rfl

lemma tlsReadUint16_write {n : Nat} (h : n < 65536) : tlsReadUint16 (UInt8.ofNat (n / 256)) (UInt8.ofNat n) = n := by
  unfold tlsReadUint16
  rw [UInt8.toNat_ofNat', UInt8.toNat_ofNat']
  omega

variable {r : WireRecord}

/-- **Reading one record.** From an empty `recv_buf`, the record at the front is read off the
network, however it is cut. -/
theorem tlsRecvRaw_record {maxdata : Nat} {rest : List UInt8}
    (hne : ∀ c ∈ net, c ≠ []) (hfit : FitsRecvBuf net) (hr : r.payload.length ≤ maxdata)
    (hraw : r.payload.length ≤ tlsMaxRecord + 64) (hflat : net.flatten = r.bytes ++ rest) :
    ∃ left' net', tlsRecvRaw [] maxdata net = (.ok (r.type, r.payload), left', net') ∧
      left' ++ net'.flatten = rest ∧ Cut net left' net' := by
  have hlen : net.flatten.length = 5 + r.payload.length + rest.length := by
    rw [hflat, length_append, r.length_bytes]
  obtain ⟨hdr, left₁, net₁, hhdr⟩ : ∃ hdr left' net', recvHdr [] [] net = (some hdr, left', net') :=
    recvHdr_succeeds hne (by rw [hlen]; omega)
  obtain ⟨hhdrlen, hcases⟩ := recvHdr_conserves hfit (by simp) hhdr
  -- whether the last read was used up or not, the bytes after the header are next
  have hnext : hdr ++ (left₁ ++ net₁.flatten) = net.flatten ∧ Cut net left₁ net₁ := by
    rcases hcases with ⟨rfl, hsuf, heq⟩ | ⟨hcut, heq⟩
    · exact ⟨heq, hsuf, Or.inl rfl⟩
    · exact ⟨heq, hcut⟩
  obtain ⟨heq, hcut⟩ := hnext
  have hsplit : hdr = r.header ∧ left₁ ++ net₁.flatten = r.payload ++ rest := by
    refine append_inj ?_ hhdrlen
    rw [heq, hflat, WireRecord.bytes, append_assoc]
  obtain ⟨rfl, hbody⟩ := hsplit
  have hrlen : tlsReadUint16 (r.header.getD 3 0) (r.header.getD 4 0) = r.payload.length :=
    tlsReadUint16_write (by simp only [tlsMaxRecord] at hraw; omega)
  have hne₁ : ∀ c ∈ net₁, c ≠ [] := fun c hc => hne c (hcut.1.subset hc)
  have hbodylen : left₁.length + net₁.flatten.length = r.payload.length + rest.length := by
    rw [← length_append, hbody, length_append]
  obtain ⟨raw, left', net', hbodyloop⟩ : ∃ raw left' net',
      recvBody r.payload.length r.payload.length [] left₁ net₁ = (some raw, left', net') :=
    recvBody_succeeds hne₁ (by simp) (by simp only [length_nil]; omega)
  obtain ⟨hrawlen, hrawflat, -, hrawcut⟩ := recvBody_conserves (Nat.zero_le _) hbodyloop
  have hpayload : raw = r.payload ∧ left' ++ net'.flatten = rest := by
    refine append_inj ?_ hrawlen
    rw [hrawflat, nil_append, hbody]
  obtain ⟨rfl, hrest⟩ := hpayload
  refine ⟨left', net', ?_, hrest, hrawcut net hcut⟩
  unfold tlsRecvRaw
  rw [hhdr]
  simp only [hrlen]
  rw [if_neg (by omega), if_neg (by omega), hbodyloop]
  rfl

lemma tlsRecvRaw_ok
    (h : tlsRecvRaw left maxdata net = (.ok (type, raw), left', net')) :
    ∃ hdr left₁ net₁ rlen, rlen ≤ tlsMaxRecord + 64 ∧ recvHdr [] left net = (some hdr, left₁, net₁) ∧
      recvBody rlen rlen [] left₁ net₁ = (some raw, left', net') := by
  unfold tlsRecvRaw at h
  split at h
  · cases h
  · rename_i hdr left₁ net₁ hhdr
    simp only at h
    split at h
    · cases h
    · split at h
      · cases h
      · rename_i hcap
        split at h
        · cases h
        · rename_i raw₁ left₂ net₂ hraw
          cases h
          exact ⟨hdr, left₁, net₁, _, Nat.le_of_not_lt hcap, hhdr, hraw⟩

lemma tlsRecvRaw_length
    (h : tlsRecvRaw left maxdata net = (.ok (type, raw), left', net')) : raw.length ≤ tlsMaxRecord + 64 := by
  obtain ⟨_, _, _, rlen, hcap, _, hraw⟩ := tlsRecvRaw_ok h
  rw [(recvBody_conserves (Nat.zero_le _) hraw).1]
  exact hcap

/-- A call that returns a record takes at least the record's size off `recv_buf` and the network. -/
lemma tlsRecvRaw_weight (hfit : FitsRecvBuf net)
    (h : tlsRecvRaw left maxdata net = (.ok (type, raw), left', net')) : net' <:+ net ∧
    left'.length + net'.flatten.length + (5 + raw.length) ≤ left.length + net.flatten.length := by
  obtain ⟨hdr, left₁, net₁, rlen, -, hhdr, hraw⟩ := tlsRecvRaw_ok h
  obtain ⟨hhdrlen, hcases⟩ := recvHdr_conserves hfit (by simp) hhdr
  obtain ⟨-, hflat, hsuf, -⟩ := recvBody_conserves (Nat.zero_le _) hraw
  have hlen := congrArg length hflat
  simp only [length_append, nil_append] at hlen
  rcases hcases with ⟨rfl, hsuf₁, heq⟩ | ⟨hcut, heq⟩
  · have hlen₁ := congrArg length heq
    simp only [length_append, nil_append] at hlen₁
    exact ⟨hsuf.trans hsuf₁, by omega⟩
  · have hlen₁ := congrArg length heq
    simp only [length_append, nil_append] at hlen₁
    exact ⟨hsuf.trans hcut.1, by omega⟩

/-- A call that finds the beginning of a record in `recv_buf` drops it, or takes it for the
payload. -/
lemma tlsRecvRaw_desync {rest : List UInt8} (hfit : FitsRecvBuf net) (hleft : left ≠ [])
    (hflat : left ++ net.flatten = r.bytes ++ rest) (hne : r.payload ≠ []) (hmark : r.payload.head? ≠ some r.type)
    (h : tlsRecvRaw left maxdata net = (.ok (r.type, r.payload), left', net')) :
    left'.length + net'.flatten.length < rest.length := by
  obtain ⟨hdr, left₁, net₁, rlen, -, hhdr, hraw⟩ := tlsRecvRaw_ok h
  obtain ⟨hhdrlen, hcases⟩ := recvHdr_conserves hfit (by simp) hhdr
  obtain ⟨-, hbody, -, -⟩ := recvBody_conserves (Nat.zero_le _) hraw
  rw [nil_append] at hbody
  rcases hcases with ⟨rfl, -, -⟩ | ⟨-, heq⟩
  · -- `recv_buf` was kept: the payload begins where it does, with the type
    obtain ⟨x, left, rfl⟩ := exists_cons_of_ne_nil hleft
    obtain ⟨y, payload, hp⟩ := exists_cons_of_ne_nil hne
    rw [hp] at hbody
    have hx : y = x := (cons.inj hbody).1
    have ht : x = r.type := (cons.inj hflat).1
    rw [hp, hx, ht] at hmark
    exact absurd rfl hmark
  · -- `recv_buf` was dropped: too few bytes are left
    have hlen := congrArg length hbody
    have hlen₁ := congrArg length heq
    have hlen₂ := congrArg length hflat
    have hpos := length_pos_iff.mpr hleft
    simp only [length_append, nil_append, r.length_bytes] at hlen hlen₁ hlen₂
    omega

/-! ## Sequences of records -/

/-- The bytes of a sequence of records. -/
def stream (recs : List WireRecord) : List UInt8 := recs.flatMap WireRecord.bytes

lemma stream_cons (r : WireRecord) (recs : List WireRecord) : stream (r :: recs) = r.bytes ++ stream recs :=
  flatMap_cons

/-- Successive calls return the records in order, and then fail. -/
def Delivered (pr : Primitives) (maxdata : Nat) (t : TlsCtx) (net : List (List UInt8))
    (recs : List WireRecord) : Prop :=
  tlsRecvRecords pr maxdata (recs.length + 1) t net =
    recs.map (fun r => .record r.type r.payload) ++ [.failed .error]

variable {pr : Primitives}

lemma tlsRecvRecord_plain (htype : type ≠ 0x17)
    (h : tlsRecvRaw t.recvBuf maxdata net = (.ok (type, raw), left', net')) :
    tlsRecvRecord pr t maxdata net = (.record type raw, { t with recvBuf := left' }, net') := by
  unfold tlsRecvRecord
  rw [h]
  simp only
  rw [if_neg htype]

lemma tlsRecvRecord_plain_inv (htype : type ≠ 0x17)
    (h : (tlsRecvRecord pr t maxdata net).1 = .record type raw) :
    ∃ left' net', tlsRecvRaw t.recvBuf maxdata net = (.ok (type, raw), left', net') := by
  unfold tlsRecvRecord at h
  split at h
  · cases h
  · rename_i type' raw' left' net' hraw
    simp only at h
    split at h
    · rename_i h17
      split at h
      · cases h
      · cases h
        exact absurd h17 htype
    · cases h
      exact ⟨left', net', hraw⟩

lemma tlsRecvRecords_succ (pr : Primitives) (maxdata n : Nat) (t : TlsCtx) (net : List (List UInt8)) :
    tlsRecvRecords pr maxdata (n + 1) t net = (tlsRecvRecord pr t maxdata net).1 ::
      tlsRecvRecords pr maxdata n (tlsRecvRecord pr t maxdata net).2.1 (tlsRecvRecord pr t maxdata net).2.2 := rfl

variable {recs : List WireRecord}

lemma delivered_cons (htype : r.type ≠ 0x17)
    (h : tlsRecvRaw t.recvBuf maxdata net = (.ok (r.type, r.payload), left', net')) :
    Delivered pr maxdata t net (r :: recs) ↔ Delivered pr maxdata { t with recvBuf := left' } net' recs := by
  unfold Delivered
  rw [length_cons, tlsRecvRecords_succ, tlsRecvRecord_plain htype h]
  simp only [map_cons, cons_append, cons.injEq, true_and]

lemma Delivered.first (htype : r.type ≠ 0x17)
    (h : Delivered pr maxdata t net (r :: recs)) :
    ∃ left' net', tlsRecvRaw t.recvBuf maxdata net = (.ok (r.type, r.payload), left', net') := by
  unfold Delivered at h
  rw [length_cons, tlsRecvRecords_succ] at h
  exact tlsRecvRecord_plain_inv htype (cons.inj h).1

/-- A sequence that is delivered had its bytes in `recv_buf` and on the network. -/
lemma stream_length_le (hfit : FitsRecvBuf net) (htype : ∀ r ∈ recs, r.type ≠ 0x17)
    (h : Delivered pr maxdata t net recs) : (stream recs).length ≤ t.recvBuf.length + net.flatten.length := by
  induction recs generalizing t net with
  | nil => exact Nat.zero_le _
  | cons r recs ih =>
    rw [forall_mem_cons] at htype
    obtain ⟨left', net', hraw⟩ := h.first htype.1
    obtain ⟨hsuf, hweight⟩ := tlsRecvRaw_weight hfit hraw
    have hrest := ih (fun c hc => hfit c (hsuf.subset hc)) htype.2 ((delivered_cons htype.1 hraw).mp h)
    rw [stream_cons, length_append, r.length_bytes]
    simp only at hrest
    omega

/-- What the network is cut into: reads of 1 to 1200 bytes. -/
def TcpReads (net : List (List UInt8)) : Prop := ∀ c ∈ net, 1 ≤ c.length ∧ c.length ≤ 1200

lemma TcpReads.fits (h : TcpReads net) : FitsRecvBuf net := by
  intro c hc
  have := (h c hc).2
  unfold tlsMaxRecord
  omega

lemma TcpReads.ne_nil (h : TcpReads net) : ∀ c ∈ net, c ≠ [] := by
  intro c hc hnil
  have := (h c hc).1
  rw [hnil] at this
  exact absurd this (by decide)

lemma TcpReads.suffix (h : TcpReads net) (hsuf : net' <:+ net) :
    TcpReads net' := fun c hc => h c (hsuf.subset hc)

/-- The sizes of the records on the wire. -/
def wireSizes (recs : List WireRecord) : List Nat := recs.map (fun r => r.bytes.length)

lemma wireSizes_eq (recs : List WireRecord) : wireSizes recs = (recs.map (fun r => r.payload.length)).map (5 + ·) := by
  unfold wireSizes
  rw [List.map_map]
  exact map_congr_left (fun r _ => r.length_bytes)

/-- Handshake records of zeros, one for each payload length: no payload begins with the type. -/
def zeroRecords (lens : List Nat) : List WireRecord := lens.map (fun l => ⟨0x16, (3, 3), replicate l 0⟩)

lemma zeroRecords_lengths (lens : List Nat) : (zeroRecords lens).map (fun r => r.payload.length) = lens := by
  simp [zeroRecords, Function.comp_def]

lemma zeroRecords_type (lens : List Nat) : ∀ r ∈ zeroRecords lens, r.type ≠ 0x17 := by
  intro r hr
  obtain ⟨l, -, rfl⟩ := mem_map.mp hr
  show (0x16 : UInt8) ≠ 0x17
  decide

lemma zeroRecords_marked {lens : List Nat} (hlens : ∀ l ∈ lens, 1 ≤ l) :
    ∀ r ∈ zeroRecords lens, r.payload ≠ [] ∧ r.payload.head? ≠ some r.type := by
  intro r hr
  obtain ⟨l, hl, rfl⟩ := mem_map.mp hr
  obtain ⟨k, rfl⟩ : ∃ k, l = k + 1 := Nat.exists_eq_add_of_le' (hlens l hl)
  show replicate (k + 1) (0 : UInt8) ≠ [] ∧ (replicate (k + 1) (0 : UInt8)).head? ≠ some 0x16
  rw [replicate_succ]
  exact ⟨cons_ne_nil _ _, fun heq => absurd (Option.some.inj heq) (by decide)⟩

lemma delivered_nil : Delivered pr maxdata t [] [] := by
  unfold Delivered
  rw [length_nil, tlsRecvRecords_succ]
  rfl

section Segmentation

variable {pr : Primitives} {maxdata : Nat}

lemma delivered_of_aligned (ht : t.recvBuf = []) (hnet : TcpReads net)
    (hrecs : ∀ r ∈ recs, r.type ≠ 0x17 ∧ r.payload.length ≤ maxdata)
    (hraw : ∀ r ∈ recs, r.payload.length ≤ tlsMaxRecord + 64)
    (hflat : net.flatten = stream recs) (h : Aligned (wireSizes recs) (net.map List.length)) :
    Delivered pr maxdata t net recs := by
  induction recs generalizing t net with
  | nil =>
    have hnil : net = [] := map_eq_nil_iff.mp h
    rw [hnil]
    exact delivered_nil
  | cons r recs ih =>
    rw [forall_mem_cons] at hrecs hraw
    rw [stream_cons] at hflat
    obtain ⟨left', net', hread, hrest, hcut⟩ :=
      tlsRecvRaw_record hnet.ne_nil hnet.fits hrecs.1.2 hraw.1 hflat
    rw [← hrest] at hflat
    obtain ⟨hnil, hns⟩ := (aligned_cons_iff_of_cut hnet.ne_nil hcut hflat).mp h
    rw [← ht] at hread
    rw [delivered_cons hrecs.1.1 hread]
    refine ih hnil (hnet.suffix hcut.1) hrecs.2 hraw.2 ?_ hns
    rw [← hrest, hnil, nil_append]

/-- Records whose payloads do not begin with their type are delivered only if they fit `raw` and no
read joins two of them. -/
lemma aligned_of_delivered (ht : t.recvBuf = []) (hnet : TcpReads net)
    (hrecs : ∀ r ∈ recs, r.type ≠ 0x17 ∧ r.payload.length ≤ maxdata)
    (hmark : ∀ r ∈ recs, r.payload ≠ [] ∧ r.payload.head? ≠ some r.type)
    (hflat : net.flatten = stream recs) (h : Delivered pr maxdata t net recs) :
    Aligned (wireSizes recs) (net.map List.length) ∧ ∀ r ∈ recs, r.payload.length ≤ tlsMaxRecord + 64 := by
  induction recs generalizing t net with
  | nil =>
    cases net with
    | nil => exact ⟨rfl, by simp⟩
    | cons c net =>
      have hc := hnet.ne_nil c mem_cons_self
      rw [flatten_cons] at hflat
      exact absurd (append_eq_nil_iff.mp hflat).1 hc
  | cons r recs ih =>
    rw [forall_mem_cons] at hrecs hmark
    rw [stream_cons] at hflat
    obtain ⟨_, _, hfirst⟩ := h.first hrecs.1.1
    have hcap := tlsRecvRaw_length hfirst
    obtain ⟨left', net', hraw, hrest, hcut⟩ :=
      tlsRecvRaw_record hnet.ne_nil hnet.fits hrecs.1.2 hcap hflat
    rw [← hrest] at hflat
    rw [← ht] at hraw
    rw [delivered_cons hrecs.1.1 hraw] at h
    have hnet' := hnet.suffix hcut.1
    have hnil : left' = [] := by
      by_contra hleft
      -- the next call starts with the beginning of its record in `recv_buf`
      cases recs with
      | nil => exact hleft (append_eq_nil_iff.mp hrest).1
      | cons r₂ recs =>
        rw [forall_mem_cons] at hrecs hmark
        obtain ⟨left₂, net₂, hraw₂⟩ := h.first hrecs.2.1.1
        rw [stream_cons] at hrest
        have hlost := tlsRecvRaw_desync hnet'.fits hleft hrest hmark.2.1.1 hmark.2.1.2 hraw₂
        rw [delivered_cons hrecs.2.1.1 hraw₂] at h
        have hsuf := (tlsRecvRaw_weight hnet'.fits hraw₂).1
        have hle := stream_length_le (hnet'.suffix hsuf).fits (fun r hr => (hrecs.2.2 r hr).1) h
        exact absurd hle (Nat.not_le.mpr hlost)
    obtain ⟨hns, hcaps⟩ := ih hnil hnet' hrecs.2 hmark.2 (by rw [← hrest, hnil, nil_append]) h
    refine ⟨(aligned_cons_iff_of_cut hnet.ne_nil hcut hflat).mpr ⟨hnil, hns⟩, ?_⟩
    rw [forall_mem_cons]
    exact ⟨hcap, hcaps⟩

/-- **When reassembly does not depend on segmentation.** Whatever the types (other than `0x17`),
versions and payloads, successive calls return the records in order and then fail, exactly when the
stream is cut at the end of every record and every record fits `raw`. -/
theorem recv_segmentation_iff {t : TlsCtx} (ht : t.recvBuf = []) (lens ks : List Nat)
    (hlens : ∀ l ∈ lens, 1 ≤ l ∧ l ≤ maxdata) (hks : ∀ k ∈ ks, 1 ≤ k ∧ k ≤ 1200)
    (hsum : ks.sum = (lens.map (5 + ·)).sum) :
    (∀ recs net, recs.map (fun r => r.payload.length) = lens → (∀ r ∈ recs, r.type ≠ 0x17) →
      net.map List.length = ks → net.flatten = stream recs → Delivered pr maxdata t net recs) ↔
    Aligned (lens.map (5 + ·)) ks ∧ ∀ l ∈ lens, l ≤ tlsMaxRecord + 64 := by
  have hreads : ∀ net : List (List UInt8), net.map List.length = ks → TcpReads net := by
    rintro net rfl c hc
    exact hks _ (mem_map_of_mem hc)
  constructor
  · intro h
    have hrecslen := zeroRecords_lengths lens
    have hsizes : wireSizes (zeroRecords lens) = lens.map (5 + ·) := by rw [wireSizes_eq, hrecslen]
    have hlen : ks.sum = (stream (zeroRecords lens)).length := by
      rw [hsum, ← hsizes, stream, length_flatMap]
      rfl
    obtain ⟨net, hnet, hflat⟩ := exists_chunks ks (stream (zeroRecords lens)) hlen
    have htype := zeroRecords_type lens
    have hmax : ∀ r ∈ zeroRecords lens, r.payload.length ≤ maxdata := by
      intro r hr
      have hl : r.payload.length ∈ lens := hrecslen ▸ mem_map_of_mem hr
      exact (hlens _ hl).2
    obtain ⟨halign, hcap⟩ := aligned_of_delivered ht (hreads net hnet) (fun r hr => ⟨htype r hr, hmax r hr⟩)
      (zeroRecords_marked (fun l hl => (hlens l hl).1)) hflat (h _ net hrecslen htype hnet hflat)
    rw [hsizes, hnet] at halign
    refine ⟨halign, ?_⟩
    rw [← hrecslen, forall_mem_map]
    exact hcap
  · rintro ⟨halign, hcap⟩ recs net rfl htype hnet hflat
    rw [forall_mem_map] at hlens hcap
    refine delivered_of_aligned ht (hreads net hnet) (fun r hr => ⟨htype r hr, (hlens r hr).2⟩) hcap hflat ?_
    rw [wireSizes_eq, hnet]
    exact halign

end Segmentation

/-- Primitives that are easy to compute with. -/
def plainPrimitives : Primitives where
  aesCipher := fun _ b => b
  aesInvCipher := fun _ b => b
  hmacSha256 := fun _ _ => ⟨replicate 32 0, rfl⟩

/-- Two records, the first one cut inside its header and inside its payload. -/
theorem recv_segmentation_two_records : Delivered plainPrimitives tlsMaxRecord freshCtx
      [[0x16, 3], [3, 0, 2, 0xAA], [0xBB], [0x15, 3, 3, 0, 1, 0xCC]]
      [⟨0x16, (3, 3), [0xAA, 0xBB]⟩, ⟨0x15, (3, 3), [0xCC]⟩] := by
  refine (recv_segmentation_iff rfl [2, 1] [2, 4, 1, 6] (by decide) (by decide)
    (by decide)).mpr ?_ _ _ rfl (by decide) rfl (by decide)
  exact ⟨⟨[2, 4, 1], [6], rfl, rfl, [6], [], rfl, rfl, rfl⟩, by decide⟩

/-- Two records in one read: the second one is lost. -/
theorem recv_loses_joined_record :
    let recs : List WireRecord := [⟨0x16, (3, 3), [0xAA]⟩, ⟨0x15, (3, 3), [0xBB]⟩]
    let net : List (List UInt8) := [[0x16, 3, 3, 0, 1, 0xAA, 0x15, 3, 3, 0, 1, 0xBB]]
    net.flatten = stream recs ∧
    tlsRecvRecords plainPrimitives tlsMaxRecord 2 freshCtx net = [.record 0x16 [0xAA], .failed .error] ∧
    ¬ Delivered plainPrimitives tlsMaxRecord freshCtx net recs := by
  refine ⟨by decide, by decide, ?_⟩
  unfold Delivered
  decide

end PigOS.Crypto
