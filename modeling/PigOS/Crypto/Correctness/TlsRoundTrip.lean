import PigOS.Crypto.Correctness.TlsSegments

/-!
# `Crypto.Correctness.TlsRoundTrip` — what a sent record decrypts to

The sender encrypts padded data and half a MAC under a chained IV that it does not send. The
receiver takes the first block for an explicit IV and drops it, and takes the last byte, which
belongs to the MAC, for a padding length. A wrong IV spoils the first block only
(`Cbc.tail_decrypt_encrypt`).
-/

namespace PigOS.Crypto

open Chunks List

variable {accept : List UInt8 → Bool} {t : TlsCtx} {chunks ds net : List (List UInt8)} {buf data key : List UInt8}

/-! ## Buffers and blocks -/

lemma length_ofBlocks (bs : List Block) : (ofBlocks bs).length = 16 * bs.length := by
  induction bs with
  | nil => rfl
  | cons b bs ih =>
    show (b.val ++ ofBlocks bs).length = _
    rw [length_append, b.property, ih, length_cons]
    omega

lemma toBlocks_ofBlocks (bs : List Block) : toBlocks bs.length (ofBlocks bs) = bs := by
  induction bs with
  | nil => rfl
  | cons b bs ih =>
    have htake : (ofBlocks (b :: bs)).take 16 = b.val := by
      exact take_left' b.property
    have hdrop : (ofBlocks (b :: bs)).drop 16 = ofBlocks bs := by
      exact drop_left' b.property
    rw [length_cons, toBlocks, dif_pos (by rw [htake]; exact b.property)]
    simp only [htake, hdrop, ih]

lemma ofBlocks_inj {as bs : List Block} (hlen : as.length = bs.length) (h : ofBlocks as = ofBlocks bs) : as = bs := by
  rw [← toBlocks_ofBlocks as, h, hlen, toBlocks_ofBlocks]

lemma ofBlocks_toBlocks (n : Nat) (h : buf.length = 16 * n) :
    ofBlocks (toBlocks n buf) = buf ∧ (toBlocks n buf).length = n := by
  induction n generalizing buf with
  | zero =>
    rw [eq_nil_of_length_eq_zero h]
    exact ⟨rfl, rfl⟩
  | succ n ih =>
    have htake : (buf.take 16).length = 16 := by
      rw [length_take]
      omega
    have hrest : (buf.drop 16).length = 16 * n := by
      rw [length_drop]
      omega
    obtain ⟨hof, hlen⟩ := ih hrest
    rw [toBlocks, dif_pos htake]
    refine ⟨?_, by rw [length_cons, hlen]⟩
    show buf.take 16 ++ ofBlocks (toBlocks n (buf.drop 16)) = buf
    rw [hof, take_append_drop]

lemma drop_ofBlocks (bs : List Block) : (ofBlocks bs).drop 16 = ofBlocks bs.tail := by
  cases bs with
  | nil => rfl
  | cons b bs =>
    exact drop_left' b.property

section Cipher

variable {pr : Primitives} {key : List UInt8}

lemma length_aesCbcEncrypt (iv : Block) {buf : List UInt8} (h : buf.length % 16 = 0) :
    (aesCbcEncrypt pr key iv buf).length = buf.length := by
  have hn : buf.length = 16 * (buf.length / 16) := by omega
  unfold aesCbcEncrypt
  rw [length_ofBlocks, Cbc.length_encrypt, (ofBlocks_toBlocks _ hn).2]
  omega

lemma aesCbcDecrypt_encrypt (iv iv' : Block) {buf : List UInt8} (h : buf.length % 16 = 0) :
    aesCbcDecrypt pr key iv' (aesCbcEncrypt pr key iv buf) = ofBlocks (Cbc.decrypt aesXorIv (pr.aesInvCipher key) iv'
        (Cbc.encrypt aesXorIv (pr.aesCipher key) iv (toBlocks (buf.length / 16) buf))) := by
  have hn : buf.length = 16 * (buf.length / 16) := by omega
  unfold aesCbcDecrypt
  rw [length_aesCbcEncrypt iv h]
  unfold aesCbcEncrypt
  have hlen : (Cbc.encrypt aesXorIv (pr.aesCipher key) iv (toBlocks (buf.length / 16) buf)).length =
      buf.length / 16 := by
    rw [Cbc.length_encrypt, (ofBlocks_toBlocks _ hn).2]
  generalize Cbc.encrypt aesXorIv (pr.aesCipher key) iv (toBlocks (buf.length / 16) buf) = cs at hlen ⊢
  rw [← hlen, toBlocks_ofBlocks]

variable (hinv : ∀ (iv : Block) (buf : List UInt8), buf.length % 16 = 0 →
  aesCbcDecrypt pr key iv (aesCbcEncrypt pr key iv buf) = buf)
include hinv

lemma cbc_inverts (iv : Block) (bs : List Block) :
    Cbc.decrypt aesXorIv (pr.aesInvCipher key) iv (Cbc.encrypt aesXorIv (pr.aesCipher key) iv bs) = bs := by
  have hmod : (ofBlocks bs).length % 16 = 0 := by
    rw [length_ofBlocks]
    omega
  have hdiv : (ofBlocks bs).length / 16 = bs.length := by
    rw [length_ofBlocks]
    omega
  have h := hinv iv (ofBlocks bs) hmod
  rw [aesCbcDecrypt_encrypt iv iv hmod, hdiv, toBlocks_ofBlocks] at h
  exact ofBlocks_inj (by rw [Cbc.length_decrypt, Cbc.length_encrypt]) h

lemma drop_aesCbcDecrypt_encrypt (iv iv' : Block) {buf : List UInt8} (h : buf.length % 16 = 0) :
    (aesCbcDecrypt pr key iv' (aesCbcEncrypt pr key iv buf)).drop 16 = buf.drop 16 := by
  have hn : buf.length = 16 * (buf.length / 16) := by omega
  rw [aesCbcDecrypt_encrypt iv iv' h, drop_ofBlocks,
    Cbc.tail_decrypt_encrypt aesXorIv (cbc_inverts hinv) iv iv', ← drop_ofBlocks, (ofBlocks_toBlocks _ hn).1]

/-! ## One record -/

omit hinv in
lemma length_padded (data : List UInt8) : (padded data).length = data.length + padVal data.length := by
  unfold padded
  rw [length_append, length_replicate]

omit hinv in
lemma length_encBuf (pr : Primitives) (key data : List UInt8) :
    (encBuf pr key data).length = data.length + padVal data.length + 16 ∧
    (encBuf pr key data).length % 16 = 0 := by
  have hmac := (pr.hmacSha256 key (padded data)).property
  have hlen : (encBuf pr key data).length = data.length + padVal data.length + 16 := by
    unfold encBuf
    rw [length_append, length_padded, length_take, hmac]
    rfl
  refine ⟨hlen, ?_⟩
  rw [hlen]
  unfold padVal
  omega

/-- The padding that the receiver finds, less one: the last byte of the MAC's first half. -/
def foundPad (pr : Primitives) (key data : List UInt8) : Nat :=
  min 15 ((pr.hmacSha256 key (padded data)).val.getD 15 0).toNat

omit hinv in
lemma encBuf_getD_last (data : List UInt8) : (encBuf pr key data).getD ((encBuf pr key data).length - 1) 0 =
      (pr.hmacSha256 key (padded data)).val.getD 15 0 := by
  have hindex : (encBuf pr key data).length - 1 = (padded data).length + 15 := by
    rw [length_encBuf pr key data |>.1, length_padded]
    omega
  rw [hindex]
  unfold encBuf
  rw [getD_eq_getElem?_getD, getElem?_append_right (by omega), Nat.add_sub_cancel_left,
    getElem?_take_of_lt (by omega), ← getD_eq_getElem?_getD]

/-- What is made of a sent record: the buffer without its first block, cut by the padding found. -/
lemma tlsDecode_sent (iv iv' : Block) (data : List UInt8) :
    tlsDecode pr key iv' (aesCbcEncrypt pr key iv (encBuf pr key data)) =
      ((encBuf pr key data).drop 16).take (data.length + padVal data.length - (foundPad pr key data + 1)) := by
  obtain ⟨hlen, hmod⟩ := length_encBuf pr key data
  have hdrop := drop_aesCbcDecrypt_encrypt hinv iv iv' hmod
  have hlast : (aesCbcDecrypt pr key iv' (aesCbcEncrypt pr key iv (encBuf pr key data))).getD
      ((encBuf pr key data).length - 1) 0 = (pr.hmacSha256 key (padded data)).val.getD 15 0 := by
    have hpad : 16 ≤ data.length + padVal data.length := by
      unfold padVal
      omega
    have hindex : (encBuf pr key data).length - 1 = 16 + ((encBuf pr key data).length - 1 - 16) := by omega
    rw [← encBuf_getD_last, hindex, getD_eq_getElem?_getD, getD_eq_getElem?_getD,
      ← getElem?_drop, ← getElem?_drop, hdrop]
  have hplain : data.length + padVal data.length + 16 - 16 -
      min 15 ((pr.hmacSha256 key (padded data)).val.getD 15 0).toNat - 1 =
      data.length + padVal data.length - (foundPad pr key data + 1) := by
    unfold foundPad
    omega
  unfold tlsDecode
  simp only
  rw [length_aesCbcEncrypt iv hmod, hlast, hdrop, hlen, hplain]

/-- The payload is the bytes that follow the first sixteen in the buffer, and the MAC ends in the
padding's length. -/
def Echoes (pr : Primitives) (key data : List UInt8) : Prop :=
  foundPad pr key data + 1 = padVal data.length ∧ ((encBuf pr key data).drop 16).take data.length = data

/-- **One record.** A payload comes back exactly when it echoes what follows it. -/
theorem tlsDecode_eq_iff (iv iv' : Block) (data : List UInt8) :
    tlsDecode pr key iv' (aesCbcEncrypt pr key iv (encBuf pr key data)) = data ↔ Echoes pr key data := by
  rw [tlsDecode_sent hinv]
  unfold Echoes
  have hfound : foundPad pr key data ≤ 15 := Nat.min_le_left _ _
  constructor
  · intro h
    -- the lengths agree, which gives the padding
    have hlen := congrArg length h
    rw [length_take, length_drop, (length_encBuf pr key data).1] at hlen
    have hp : foundPad pr key data + 1 = padVal data.length := by
      have h16 : 16 ≤ data.length + padVal data.length := by
        unfold padVal
        omega
      omega
    refine ⟨hp, ?_⟩
    rwa [hp, Nat.add_sub_cancel] at h
  · rintro ⟨hp, h⟩
    rw [hp, Nat.add_sub_cancel]
    exact h

end Cipher

/-! ## Sequences of records -/

/-- The record that the sender makes of a payload under some IV. -/
def Sealed (pr : Primitives) (key data : List UInt8) (r : WireRecord) : Prop :=
  r.type = 0x17 ∧ ∃ iv, r.payload = aesCbcEncrypt pr key iv (encBuf pr key data)

lemma sendChunks_flatten {n : Nat} (hn : buf.length ≤ n) (h : sendChunks accept n buf = some chunks) :
    chunks.flatten = buf := by
  induction n generalizing buf chunks with
  | zero =>
    rw [sendChunks] at h
    cases h
    exact (eq_nil_of_length_eq_zero (Nat.le_zero.mp hn)).symm
  | succ n ih =>
    rw [sendChunks] at h
    split at h
    · rename_i hnil
      cases h
      exact hnil.symm
    · rename_i hne
      split at h
      · obtain ⟨rest, hrest, rfl⟩ := Option.map_eq_some_iff.mp h
        rw [flatten_cons, ih (by rw [length_drop]; omega) hrest, take_append_drop]
      · cases h

variable {pr : Primitives}

lemma tlsSendRecord_sealed {t' : TlsCtx}
    (h : tlsSendRecord pr accept t 0x17 data = (some chunks, t')) : t'.macWriteKey = t.macWriteKey ∧
    ∃ r, chunks.flatten = r.bytes ∧ Sealed pr t.macWriteKey data r := by
  unfold tlsSendRecord at h
  simp only at h
  split at h
  · cases h
  · rename_i chunks' hsend
    cases h
    refine ⟨rfl, ⟨0x17, (3, 3), aesCbcEncrypt pr t.macWriteKey t.clientIv (encBuf pr t.macWriteKey data)⟩,
      ?_, rfl, t.clientIv, rfl⟩
    rw [sendChunks_flatten (Nat.le_refl _) hsend]
    unfold WireRecord.bytes WireRecord.header
    rw [length_aesCbcEncrypt t.clientIv (length_encBuf pr _ data).2]

lemma tlsSendRecords_sealed {css : List (List (List UInt8))}
    (h : tlsSendRecords pr accept 0x17 t ds = some css) :
    ∃ recs : List WireRecord, css.map List.flatten = recs.map WireRecord.bytes ∧
      List.Forall₂ (Sealed pr t.macWriteKey) ds recs := by
  induction ds generalizing t css with
  | nil =>
    rw [tlsSendRecords] at h
    cases h
    exact ⟨[], rfl, List.Forall₂.nil⟩
  | cons d ds ih =>
    rw [tlsSendRecords] at h
    split at h
    · cases h
    · rename_i chunks t' hsend
      obtain ⟨css', hcss, rfl⟩ := Option.map_eq_some_iff.mp h
      obtain ⟨hkey, r, hr, hsealed⟩ := tlsSendRecord_sealed hsend
      obtain ⟨recs, hrecs, hall⟩ := ih hcss
      rw [hkey] at hall
      exact ⟨r :: recs, by rw [map_cons, map_cons, hr, hrecs], List.Forall₂.cons hsealed hall⟩

/-- The payload of a sealed record is whole blocks, and fits a record. -/
lemma Sealed.payload_length {r : WireRecord} (h : Sealed pr key data r) :
    r.payload.length = data.length + padVal data.length + 16 ∧ r.payload.length % 16 = 0 := by
  obtain ⟨-, iv, hp⟩ := h
  obtain ⟨hlen, hmod⟩ := length_encBuf pr key data
  rw [hp, length_aesCbcEncrypt iv hmod]
  exact ⟨hlen, hmod⟩

lemma tlsRecvRecord_encrypted (pr : Primitives) {maxdata : Nat} {net' : List (List UInt8)}
    {raw left' : List UInt8} (hne : raw ≠ []) (hmod : raw.length % 16 = 0) (hlen : raw.length ≤ tlsMaxRecord + 32)
    (h : tlsRecvRaw t.recvBuf maxdata net = (.ok (0x17, raw), left', net')) :
    tlsRecvRecord pr t maxdata net = (.record 0x17 (tlsDecode pr t.macReadKey t.serverIv raw),
      { t with recvBuf := left', serverIv := copyBlock t.serverIv raw }, net') := by
  unfold tlsRecvRecord
  rw [h]
  simp only [if_true]
  rw [if_neg]
  rintro (hnil | hodd | hbig)
  · exact hne hnil
  · exact hodd hmod
  · omega

/-- The run lemma, for any IV at the receiver: sealed records that no read joins are received as
each decodes. -/
lemma tlsRecvRecords_sealed
    (hinv : ∀ (iv : Block) (buf : List UInt8), buf.length % 16 = 0 →
      aesCbcDecrypt pr key iv (aesCbcEncrypt pr key iv buf) = buf) {recs : List WireRecord}
      (hsealed : List.Forall₂ (Sealed pr key) ds recs)
    (hds : ∀ d ∈ ds, d.length ≤ 16000) (hkey : t.macReadKey = key) (ht : t.recvBuf = []) (hnet : TcpReads net)
    (hflat : net.flatten = stream recs)
    (halign : Aligned (wireSizes recs) (net.map List.length)) :
    tlsRecvRecords pr tlsMaxRecord ds.length t net = ds.map (.record 0x17) ↔ ∀ d ∈ ds, Echoes pr key d := by
  induction hsealed generalizing t net with
  | nil => exact ⟨fun _ => by simp, fun _ => rfl⟩
  | @cons d r ds recs hr _ ih =>
    rw [forall_mem_cons] at hds
    obtain ⟨hplen, hpmod⟩ := hr.payload_length
    obtain ⟨htype, iv, hp⟩ := hr
    have hpad : padVal d.length ≤ 16 := Nat.sub_le _ _
    rw [stream_cons] at hflat
    have hmax : r.payload.length ≤ tlsMaxRecord := by
      unfold tlsMaxRecord
      omega
    obtain ⟨left', net', hraw, hrest, hcut⟩ :=
      tlsRecvRaw_record hnet.ne_nil hnet.fits hmax (by omega) hflat
    rw [← hrest] at hflat
    obtain ⟨hnil, hns⟩ := (aligned_cons_iff_of_cut hnet.ne_nil hcut hflat).mp halign
    rw [htype, ← ht] at hraw
    have hne : r.payload ≠ [] := by
      intro hnil'
      rw [hnil', length_nil] at hplen
      omega
    have hrecv := tlsRecvRecord_encrypted pr hne hpmod (by omega) hraw
    have hdecode : tlsDecode pr t.macReadKey t.serverIv r.payload = d ↔ Echoes pr key d := by
      rw [hkey, hp]
      exact tlsDecode_eq_iff hinv iv t.serverIv d
    have hih := ih hds.2 (t := { t with recvBuf := left', serverIv := copyBlock t.serverIv r.payload })
      hkey hnil (hnet.suffix hcut.1) (by rw [← hrest, hnil, nil_append]) hns
    rw [length_cons, tlsRecvRecords_succ, hrecv, map_cons, cons.injEq,
      forall_mem_cons, RecvResult.record.injEq, hdecode, hih]
    simp only [true_and]

/-- **When the round trip works.** Let decryption invert encryption for equal key and IV. Payloads
delivered with no read joining two records are returned exactly when each echoes what follows it in
its buffer. -/
theorem records_roundtrip_iff (pr : Primitives)
    (hinv : ∀ (key : List UInt8) (iv : Block) (buf : List UInt8), buf.length % 16 = 0 →
      aesCbcDecrypt pr key iv (aesCbcEncrypt pr key iv buf) = buf)
    {snd rcv : TlsCtx} (hkey : rcv.macReadKey = snd.macWriteKey) (hbuf : rcv.recvBuf = [])
    {accept : List UInt8 → Bool} {ds : List (List UInt8)} (hds : ∀ d ∈ ds, 1 ≤ d.length ∧ d.length ≤ 16000)
    {css : List (List (List UInt8))} (hsend : tlsSendRecords pr accept 0x17 snd ds = some css)
    {net : List (List UInt8)} (hnet : TcpReads net) (hflat : net.flatten = (css.map List.flatten).flatten)
    (halign : Aligned (css.map (fun cs => cs.flatten.length)) (net.map List.length)) :
    tlsRecvRecords pr tlsMaxRecord ds.length rcv net = ds.map (.record 0x17) ↔
      ∀ d ∈ ds, Echoes pr snd.macWriteKey d := by
  obtain ⟨recs, hrecs, hsealed⟩ := tlsSendRecords_sealed hsend
  refine tlsRecvRecords_sealed (hinv snd.macWriteKey) hsealed (fun d hd => (hds d hd).2) hkey hbuf hnet ?_ ?_
  · rw [hflat, hrecs]
    rfl
  · have hsizes : css.map (fun cs => cs.flatten.length) = wireSizes recs := by
      have h := congrArg (List.map List.length) hrecs
      rwa [List.map_map, List.map_map] at h
    rw [← hsizes]
    exact halign

lemma aesXorIv_aesXorIv (b iv : Block) : aesXorIv (aesXorIv b iv) iv = b := by
  apply Subtype.ext
  show List.zipWith (· ^^^ ·) (List.zipWith (· ^^^ ·) b.val iv.val) iv.val = b.val
  have hlen : b.val.length = iv.val.length := b.property.trans iv.property.symm
  apply ext_getElem
  · simp [hlen]
  · intro i h₁ h₂
    rw [getElem_zipWith, getElem_zipWith, UInt8.xor_assoc, UInt8.xor_self, UInt8.xor_zero]

lemma plainPrimitives_invert (key : List UInt8) (iv : Block) (buf : List UInt8) (h : buf.length % 16 = 0) :
    aesCbcDecrypt plainPrimitives key iv (aesCbcEncrypt plainPrimitives key iv buf) = buf := by
  have hn : buf.length = 16 * (buf.length / 16) := by omega
  rw [aesCbcDecrypt_encrypt iv iv h,
    Cbc.decrypt_encrypt aesXorIv (fun _ => rfl) aesXorIv_aesXorIv, (ofBlocks_toBlocks _ hn).1]

/-- The record of fifteen zero bytes. -/
def zerosRecord : List UInt8 :=
  [0x17, 3, 3, 0, 32] ++ (replicate 15 0 ++ [1]) ++ (replicate 15 0 ++ [1])

/-- The record behind it: its initial value is the last block of the one before. -/
def nextRecord : List UInt8 := [0x17, 3, 3, 0, 32] ++ replicate 32 0

/-- Under a MAC that is all zero, fifteen zero bytes come back: here twice, with the first record in
two reads. -/
theorem records_roundtrip_zeros :
    tlsSendRecords plainPrimitives (fun _ => true) 0x17 freshCtx [replicate 15 0, replicate 15 0] =
      some [[zerosRecord], [nextRecord]] ∧
    tlsRecvRecords plainPrimitives tlsMaxRecord 2 freshCtx [zerosRecord.take 10, zerosRecord.drop 10, nextRecord] =
      [.record 0x17 (replicate 15 0), .record 0x17 (replicate 15 0)] := by
  have hsend : tlsSendRecords plainPrimitives (fun _ => true) 0x17 freshCtx
      [replicate 15 0, replicate 15 0] = some [[zerosRecord], [nextRecord]] := by decide +kernel
  have hnet : TcpReads [zerosRecord.take 10, zerosRecord.drop 10, nextRecord] := by
    simp only [TcpReads, forall_mem_cons, not_mem_nil, false_implies, implies_true, and_true]
    decide
  have halign : Aligned [37, 37] [10, 27, 37] := ⟨[10, 27], [37], rfl, rfl, [37], [], rfl, rfl, rfl⟩
  refine ⟨hsend, (records_roundtrip_iff plainPrimitives plainPrimitives_invert rfl rfl (by decide) hsend
    hnet rfl halign).mpr ?_⟩
  intro d hd
  obtain rfl : d = replicate 15 0 := by simpa using hd
  exact ⟨by decide, by decide⟩

/-- The record of sixteen times the letter A. -/
def lettersRecord : List UInt8 :=
  [0x17, 3, 3, 0, 48] ++ replicate 16 0x41 ++ replicate 16 0x51 ++ replicate 16 0x51

/-- Sixteen letters come back as sixteen bytes of padding and fifteen of the MAC, and under no MAC
as they were. -/
theorem records_roundtrip_letters : tlsSendRecords plainPrimitives (fun _ => true) 0x17 freshCtx [replicate 16 0x41] =
      some [[lettersRecord]] ∧
    tlsRecvRecords plainPrimitives tlsMaxRecord 1 freshCtx [lettersRecord] =
      [.record 0x17 (replicate 16 0x10 ++ replicate 15 0)] ∧
    ∀ pr key, ¬ Echoes pr key (replicate 16 0x41) := by
  refine ⟨by decide +kernel, by decide +kernel, ?_⟩
  rintro pr key ⟨-, h⟩
  have hpad : ((encBuf pr key (replicate 16 0x41)).drop 16).take 16 = replicate 16 0x10 := rfl
  rw [length_replicate, hpad] at h
  exact absurd h (by decide)

end PigOS.Crypto
