import PigOS.Crypto.Correctness.TlsConnect
import PigOS.Crypto.Correctness.TlsPrf
import PigOS.Crypto.Correctness.TlsStream

/-!
# `Crypto.Correctness.TlsKeys` — which bytes of the key block are which key

`tls_compute_keys` fills two MAC keys and two IVs, and the record layer encrypts with the MAC keys.
Which key is used for what is read off the wire: `SendsWith` and `ReceivesWith` compare what is sent
and received, for all primitives, with a record layer that is given its keys.
-/

namespace PigOS.Crypto

open Kernel List

/-! ## The keys of the record layer -/

/-- What `tls_send_record` puts on the wire is sealed with these keys. -/
def SendsWith (t : TlsCtx) (mac key : List UInt8) : Prop :=
  ∀ pr accept type data chunks t', tlsSendRecord pr accept t type data = (some chunks, t') →
    chunks.flatten.drop 5 = aesCbcEncrypt pr key t.clientIv (encBuf pr mac data)

/-- What `tls_recv` returns is opened with this key. -/
def ReceivesWith (t : TlsCtx) (key : List UInt8) : Prop :=
  ∀ pr r max net, AppRecord r → r.payload.length ≤ max →
    (tlsRecv pr true t max (r.bytes :: net)).1 = .record 0x17 (plaintext pr key r)

lemma sendsWith_macWriteKey (t : TlsCtx) : SendsWith t t.macWriteKey t.macWriteKey := by
  intro pr accept type data chunks t' h
  unfold tlsSendRecord at h
  simp only at h
  split at h
  · cases h
  · rename_i chunks' hsend
    cases h
    rw [sendChunks_flatten (Nat.le_refl _) hsend]
    rfl

lemma receivesWith_macReadKey (t : TlsCtx) : ReceivesWith t t.macReadKey := by
  intro pr r max net hr hmax
  obtain ⟨t', -, h⟩ := @tlsRecv_record r pr t hr max net
  rw [h, if_neg (by omega)]

/-- Keys that send the same as those of the context cannot be told from them by any primitives. -/
lemma SendsWith.same {t : TlsCtx} {mac key : List UInt8} (h : SendsWith t mac key) (pr : Primitives) :
    aesCbcEncrypt pr key t.clientIv (encBuf pr mac []) =
      aesCbcEncrypt pr t.macWriteKey t.clientIv (encBuf pr t.macWriteKey []) := by
  obtain ⟨chunks, t', hsend⟩ : ∃ chunks t', tlsSendRecord pr (fun _ => true) t 0x17 [] = (some chunks, t') := by
    unfold tlsSendRecord
    dsimp only
    split
    · rename_i hnone
      have hsome := congrArg Option.isSome hnone
      rw [sendChunks_isSome true (by simp) (by simp)] at hsome
      exact absurd hsome (by decide)
    · exact ⟨_, _, rfl⟩
  rw [← h pr _ _ _ _ _ hsend, sendsWith_macWriteKey t pr _ _ _ _ _ hsend]

/-- A block all of one byte. -/
def monoBlock (b : UInt8) : Block := ⟨replicate 16 b, length_replicate⟩

/-- Primitives that tell one key from the others. -/
def watching (key : List UInt8) : Primitives where
  aesCipher := fun k _ => monoBlock (if k = key then 1 else 2)
  aesInvCipher := fun k _ => monoBlock (if k = key then 1 else 2)
  hmacSha256 := fun _ _ => monoMac 0

/-- Primitives that encrypt nothing and tell one MAC key from the others. -/
def watchingMac (mac : List UInt8) : Primitives where
  aesCipher := fun _ b => b
  aesInvCipher := fun _ b => b
  hmacSha256 := fun k _ => monoMac (if k = mac then 1 else 2)

lemma watching_encrypt (key k : List UInt8) (iv : Block) (mac : List UInt8) :
    (aesCbcEncrypt (watching key) k iv (encBuf (watching key) mac [])).head? = some (if k = key then 1 else 2) := by
  have htwo : (encBuf (watching key) mac []).length = 16 * 2 := (length_encBuf (watching key) mac []).1
  obtain ⟨b, rest, hblocks⟩ := exists_cons_of_length_pos (l := toBlocks 2 (encBuf (watching key) mac []))
    (by rw [(ofBlocks_toBlocks 2 htwo).2]; decide)
  unfold aesCbcEncrypt
  rw [htwo, Nat.mul_div_cancel_left 2 (by decide), hblocks]
  rfl

lemma watchingMac_encrypt (mac : List UInt8) {k k' m m' : List UInt8} (iv : Block)
    (h : aesCbcEncrypt (watchingMac mac) k iv (encBuf (watchingMac mac) m []) =
      aesCbcEncrypt (watchingMac mac) k' iv (encBuf (watchingMac mac) m' [])) :
    (monoMac (if m = mac then 1 else 2)).val.take 16 = (monoMac (if m' = mac then 1 else 2)).val.take 16 := by
  have hopen : ∀ m, aesCbcDecrypt (watchingMac mac)
      [] iv (aesCbcEncrypt (watchingMac mac) [] iv (encBuf (watchingMac mac) m [])) =
      encBuf (watchingMac mac) m [] := by
    intro m
    have hlen := (length_encBuf (watchingMac mac) m []).2
    rw [aesCbcDecrypt_encrypt iv iv hlen, Cbc.decrypt_encrypt aesXorIv (fun _ => rfl) aesXorIv_aesXorIv,
      (ofBlocks_toBlocks _ (by omega)).1]
  have hbuf : encBuf (watchingMac mac) m [] = encBuf (watchingMac mac) m' [] := by
    rw [← hopen m, ← hopen m']
    exact congrArg _ h
  exact append_cancel_left hbuf

lemma sendsWith_iff (t : TlsCtx) (mac key : List UInt8) :
    SendsWith t mac key ↔ mac = t.macWriteKey ∧ key = t.macWriteKey := by
  constructor
  · intro h
    constructor
    · have hmac := watchingMac_encrypt mac t.clientIv (h.same (watchingMac mac))
      by_contra hne
      rw [if_pos rfl, if_neg (Ne.symm hne)] at hmac
      exact absurd hmac (by decide)
    · have hkey := congrArg List.head? (h.same (watching key))
      rw [watching_encrypt, watching_encrypt, if_pos rfl] at hkey
      by_contra hne
      rw [if_neg (Ne.symm hne)] at hkey
      exact absurd hkey (by decide)
  · rintro ⟨rfl, rfl⟩
    exact sendsWith_macWriteKey t

/-- Two blocks of zeros. -/
def zerosWire : WireRecord := ⟨0x17, (3, 3), replicate 32 0⟩

lemma watching_decrypt (key k : List UInt8) :
    (plaintext (watching key) k zerosWire).head? = some (if k = key then 1 else 2) := by
  have hdec : aesCbcDecrypt (watching key) k zeroBlock zerosWire.payload =
      ofBlocks (Cbc.decrypt aesXorIv (fun _ => monoBlock (if k = key then 1 else 2)) zeroBlock
        (toBlocks 2 zerosWire.payload)) := rfl
  unfold plaintext tlsDecode
  rw [hdec]
  by_cases h : k = key
  · simp only [if_pos h]
    rfl
  · simp only [if_neg h]
    rfl

lemma receivesWith_iff (t : TlsCtx) (key : List UInt8) : ReceivesWith t key ↔ key = t.macReadKey := by
  constructor
  · intro h
    have happ : AppRecord zerosWire := ⟨rfl, by decide, rfl, by decide⟩
    have hsame := (h (watching key) _ 32 [] happ (by decide)).symm.trans
      (receivesWith_macReadKey t (watching key) _ 32 [] happ (by decide))
    have hhead : (plaintext (watching key) key zerosWire).head? =
        (plaintext (watching key) t.macReadKey zerosWire).head? := by
      rw [(RecvResult.record.inj hsame).2]
    rw [watching_decrypt, watching_decrypt, if_pos rfl] at hhead
    by_contra hne
    rw [if_neg (Ne.symm hne)] at hhead
    exact absurd hhead (by decide)
  · rintro rfl
    exact receivesWith_macReadKey t

/-! ## What is prescribed -/

section Keys

variable (env : TlsEnv) (t : TlsCtx) (master clientRandom serverRandom : List UInt8)

def keyExpansion : List UInt8 := (cstr "key expansion").map Subtype.val

/-- `tls_compute_keys` on a PRF that is a stream of bytes for each secret, label and seed. -/
def keysOf (stream : List UInt8 → List UInt8 → List UInt8 → Nat → UInt8) : TlsCtx :=
  tlsComputeKeys { env with prf := fun n secret label seed => front (stream secret label seed) n } t master
    (clientRandom ++ serverRandom)

/-- The partition of RFC 5246 section 6.3: the MAC keys of client and server, then their encryption
keys. Nothing reads a MAC key of the server. -/
def Prescribed : Prop :=
  ∀ stream,
    let block := front (stream master keyExpansion (serverRandom ++ clientRandom)) 128
    SendsWith (keysOf env t master clientRandom serverRandom stream) (block.take 32) ((block.drop 64).take 32) ∧
    (keysOf env t master clientRandom serverRandom stream).macReadKey = (block.drop 32).take 32 ∧
    ReceivesWith (keysOf env t master clientRandom serverRandom stream) ((block.drop 96).take 32)

/-- Byte `i` of the key block is used in a key: the key changes with it. -/
def Feeds (role : TlsCtx → List UInt8 → Prop) (i : Nat) : Prop :=
  ∃ stream stream' : List UInt8 → List UInt8 → List UInt8 → Nat → UInt8,
    (∀ secret label seed j, j ≠ i → stream secret label seed j = stream' secret label seed j) ∧
    ∃ key key', role (keysOf env t master clientRandom serverRandom stream) key ∧
      role (keysOf env t master clientRandom serverRandom stream') key' ∧ key ≠ key'

def ClientMac (t : TlsCtx) (mac : List UInt8) : Prop := ∃ key, SendsWith t mac key

def ClientKey (t : TlsCtx) (key : List UInt8) : Prop := ∃ mac, SendsWith t mac key

def ServerMac (t : TlsCtx) (mac : List UInt8) : Prop := mac = t.macReadKey

/-- No byte of the key block is used both in a MAC key and in an encryption key. -/
def Separate : Prop :=
  ∀ i, ¬((Feeds env t master clientRandom serverRandom ClientMac i ∨
    Feeds env t master clientRandom serverRandom ServerMac i) ∧
    (Feeds env t master clientRandom serverRandom ClientKey i ∨
      Feeds env t master clientRandom serverRandom ReceivesWith i))

end Keys

/-! ## What is derived -/

section Derived

variable {env : TlsEnv} {t : TlsCtx} {master clientRandom serverRandom : List UInt8}
  {stream : List UInt8 → List UInt8 → List UInt8 → Nat → UInt8} {i off : Nat}

lemma front_getElem? {a : Nat → UInt8} {n : Nat} (h : i < n) : (front a n)[i]? = some (a i) := by
  simp [front, h]

lemma front_slice (a : Nat → UInt8) {n len : Nat} (h : off + len ≤ n) :
    ((front a n).drop off).take len = front (fun i => a (off + i)) len := by
  apply ext_getElem?
  intro i
  by_cases hi : i < len
  · have hi' : off + i < n := by omega
    simp [front, hi, hi']
  · simp [front, hi]

lemma keysOf_macWriteKey : (keysOf env t master clientRandom serverRandom stream).macWriteKey =
    front (stream master keyExpansion (clientRandom ++ serverRandom)) 32 := by
  show (front _ 104).take 32 = _
  rw [← drop_zero (l := front _ 104), front_slice _ (by omega)]
  simp only [Nat.zero_add]
  rfl

lemma keysOf_macReadKey : (keysOf env t master clientRandom serverRandom stream).macReadKey =
    front (fun i => stream master keyExpansion (clientRandom ++ serverRandom) (32 + i)) 32 := by
  show ((front _ 104).drop 32).take 32 = _
  rw [front_slice _ (by omega)]
  rfl

/-- A key that is a part of the block is fed by each byte of that part. -/
lemma feeds_of_slice {role : TlsCtx → List UInt8 → Prop}
    (hrole : ∀ stream, role (keysOf env t master clientRandom serverRandom stream)
      (front (fun j => stream master keyExpansion (clientRandom ++ serverRandom) (off + j)) 32))
      (hoff : off ≤ i) (hi : i < off + 32) :
    Feeds env t master clientRandom serverRandom role i := by
  refine ⟨fun _ _ _ _ => 0, fun _ _ _ j => if j = i then 1 else 0, ?_, _, _, hrole _, hrole _, ?_⟩
  · intro secret label seed j hj
    exact (if_neg hj).symm
  · intro heq
    have hbyte := congrArg (fun l => l[i - off]?) heq
    beta_reduce at hbyte
    rw [front_getElem? (by omega), front_getElem? (by omega), if_pos (by omega)] at hbyte
    exact absurd hbyte (by decide)

/-- The first 32 bytes are the MAC key and the encryption key of the client. -/
lemma feeds_client (hi : i < 32) :
    Feeds env t master clientRandom serverRandom ClientMac i ∧
      Feeds env t master clientRandom serverRandom ClientKey i := by
  have hwrite : ∀ stream, SendsWith (keysOf env t master clientRandom serverRandom stream)
      (front (fun j => stream master keyExpansion (clientRandom ++ serverRandom) (0 + j)) 32)
      (front (fun j => stream master keyExpansion (clientRandom ++ serverRandom) (0 + j)) 32) := by
    intro stream
    simp only [Nat.zero_add]
    rw [sendsWith_iff, keysOf_macWriteKey]
    exact ⟨rfl, rfl⟩
  constructor
  · exact feeds_of_slice (fun stream => ⟨_, hwrite stream⟩) (Nat.zero_le i) (by omega)
  · exact feeds_of_slice (fun stream => ⟨_, hwrite stream⟩) (Nat.zero_le i) (by omega)

lemma feeds_server (hlow : 32 ≤ i) (hi : i < 64) :
    Feeds env t master clientRandom serverRandom ServerMac i ∧
      Feeds env t master clientRandom serverRandom ReceivesWith i := by
  constructor
  · exact feeds_of_slice (fun stream => keysOf_macReadKey.symm) hlow (by omega)
  · exact feeds_of_slice (fun stream => (receivesWith_iff _ _).mpr keysOf_macReadKey.symm) hlow (by omega)

lemma not_separate : ¬ Separate env t master clientRandom serverRandom := by
  intro h
  obtain ⟨hmac, hkey⟩ := feeds_client (i := 0) (by decide)
  exact h 0 ⟨Or.inl hmac, Or.inl hkey⟩

/-- On a stream that counts, the client encrypts with the bytes from 0 on, and not from 64 on. -/
lemma not_prescribed : ¬ Prescribed env t master clientRandom serverRandom := by
  intro h
  obtain ⟨hsend, -, -⟩ := h fun _ _ _ i => UInt8.ofNat i
  have hkey := ((sendsWith_iff _ _ _).mp hsend).2
  rw [keysOf_macWriteKey, front_slice _ (by decide)] at hkey
  exact absurd hkey (by decide)

end Derived

/-- `tls_compute_keys` never cuts the key block as prescribed: each key byte is both of a MAC key
and of an encryption key. -/
theorem tlsComputeKeys_never (env : TlsEnv) (t : TlsCtx) (master clientRandom serverRandom : List UInt8) :
    ¬ Prescribed env t master clientRandom serverRandom ∧ ¬ Separate env t master clientRandom serverRandom :=
  ⟨not_prescribed, not_separate⟩

/-- Byte 0 of the block is in both keys of the client, and byte 32 in both keys of the server. -/
theorem tlsComputeKeys_shared :
    (Feeds certOnly freshCtx (replicate 48 7) (replicate 32 1) (replicate 32 2) ClientMac 0 ∧
      Feeds certOnly freshCtx (replicate 48 7) (replicate 32 1) (replicate 32 2) ClientKey 0) ∧
    (Feeds certOnly freshCtx (replicate 48 7) (replicate 32 1) (replicate 32 2) ServerMac 32 ∧
      Feeds certOnly freshCtx (replicate 48 7) (replicate 32 1) (replicate 32 2) ReceivesWith 32) ∧
    ¬ Prescribed certOnly freshCtx (replicate 48 7) (replicate 32 1) (replicate 32 2) :=
  ⟨feeds_client (by decide), feeds_server (by decide) (by decide), not_prescribed⟩

end PigOS.Crypto
