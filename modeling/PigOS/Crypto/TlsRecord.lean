import PigOS.Lib.Cbc

/-!
# `Crypto.TlsRecord` — the record layer of `crypto/tls_client.h`

`tls_send_record` and `tls_recv_record`, with the CBC mode of `crypto/aes256.h` between them. The
block cipher and the MAC are parameters (`Primitives`).

- `recv_buf[recv_pos..recv_len)` is one list, `TlsCtx.recvBuf`.
- The network is the list of the chunks that successive calls of `tls_tcp_recv` return; when it is
  used up the call fails, as does one that returns no bytes.
- A read or a write outside of a buffer is the outcome `undefined`.
-/

namespace PigOS.Crypto

def tlsMaxRecord : Nat := 16384

/-- A block of the cipher (`AES_BLOCKLEN` is 16). -/
abbrev Block := { b : List UInt8 // b.length = 16 }

/-- The block cipher under a key and its inverse, and `hmac_sha256` of a key and a message. -/
structure Primitives where
  aesCipher : List UInt8 → Block → Block
  aesInvCipher : List UInt8 → Block → Block
  hmacSha256 : List UInt8 → List UInt8 → { mac : List UInt8 // mac.length = 32 }

/-! ## CBC on buffers -/

def aesXorIv (b iv : Block) : Block :=
  ⟨List.zipWith (· ^^^ ·) b.val iv.val, by rw [List.length_zipWith, b.property, iv.property]; rfl⟩

/-- The first `n` blocks of a buffer. -/
def toBlocks : Nat → List UInt8 → List Block
  | 0, _ => []
  | n + 1, buf => if h : (buf.take 16).length = 16 then ⟨buf.take 16, h⟩ :: toBlocks n (buf.drop 16) else []

def ofBlocks (bs : List Block) : List UInt8 := bs.flatMap Subtype.val

/-- `aes_cbc_encrypt` on a buffer of whole blocks. -/
def aesCbcEncrypt (pr : Primitives) (key : List UInt8) (iv : Block) (buf : List UInt8) : List UInt8 :=
  ofBlocks (Cbc.encrypt aesXorIv (pr.aesCipher key) iv (toBlocks (buf.length / 16) buf))

/-- `aes_cbc_decrypt` on a buffer of whole blocks. -/
def aesCbcDecrypt (pr : Primitives) (key : List UInt8) (iv : Block) (buf : List UInt8) : List UInt8 :=
  ofBlocks (Cbc.decrypt aesXorIv (pr.aesInvCipher key) iv (toBlocks (buf.length / 16) buf))

/-! ## The context -/

/-- The fields of `TLS_CTX` that the record layer uses. -/
structure TlsCtx where
  macWriteKey : List UInt8
  macReadKey : List UInt8
  clientIv : Block
  serverIv : Block
  clientSeq : UInt32
  /-- the bytes of `recv_buf` that have not been used yet -/
  recvBuf : List UInt8

def zeroBlock : Block := ⟨List.replicate 16 0, rfl⟩

/-- The context of a connection on which nothing was received. -/
def freshCtx : TlsCtx := ⟨List.replicate 32 0, List.replicate 32 0, zeroBlock, zeroBlock, 0, []⟩

/-- `kmc(iv,p,16)`: a field that holds a block is overwritten by the sixteen bytes at `p`. -/
def copyBlock (old : Block) (p : List UInt8) : Block :=
  if h : (p.take 16).length = 16 then ⟨p.take 16, h⟩ else old

def tlsWriteUint16 (v : Nat) : List UInt8 := [UInt8.ofNat (v / 256), UInt8.ofNat v]

def tlsReadUint16 (a b : UInt8) : Nat := a.toNat * 256 + b.toNat

/-! ## Sending -/

/-- The padding value: between 1 and 16. -/
def padVal (len : Nat) : Nat := 16 - len % 16

/-- `padded`: the data and as many bytes of the padding value as fill the last block. -/
def padded (data : List UInt8) : List UInt8 :=
  data ++ List.replicate (padVal data.length) (UInt8.ofNat (padVal data.length))

/-- `enc_buf` before it is encrypted: the padded data and the first half of their MAC. -/
def encBuf (pr : Primitives) (key data : List UInt8) : List UInt8 :=
  padded data ++ (pr.hmacSha256 key (padded data)).val.take 16

/-- The loop that hands a record to TCP in chunks of at most 1200 bytes; `none` when one is
refused. -/
def sendChunks (accept : List UInt8 → Bool) : Nat → List UInt8 → Option (List (List UInt8))
  | 0, _ => some []
  | n + 1, buf =>
    if buf = [] then some []
    else if accept (buf.take 1200) then
      (sendChunks accept n (buf.drop 1200)).map (buf.take 1200 :: ·)
    else none

/-- `tls_send_record`: what is handed to TCP (`none` when the call fails) and the new context. -/
def tlsSendRecord (pr : Primitives) (accept : List UInt8 → Bool) (t : TlsCtx) (type : UInt8)
    (data : List UInt8) : Option (List (List UInt8)) × TlsCtx :=
  let enc := aesCbcEncrypt pr t.macWriteKey t.clientIv (encBuf pr t.macWriteKey data)
  let total := (encBuf pr t.macWriteKey data).length
  let t := { t with clientIv := copyBlock t.clientIv (enc.drop (total - 16)) }
  let buf := type :: 0x03 :: 0x03 :: tlsWriteUint16 total ++ enc
  match sendChunks accept buf.length buf with
  | none => (none, t)
  | some chunks => (some chunks, { t with clientSeq := t.clientSeq + 1 })

/-! ## Receiving -/

/-- The loop that collects a header. What a chunk holds beyond it goes into `recv_buf`, in place of
what that held. -/
def recvHdr (got left : List UInt8) :
    List (List UInt8) → Option (List UInt8) × List UInt8 × List (List UInt8)
  | [] => if got.length < 5 then (none, left, []) else (some got, left, [])
  | c :: net =>
    if got.length < 5 then
      if c = [] then (none, left, net)
      else
        let cpy := min c.length (5 - got.length)
        let left := if cpy < c.length then (c.drop cpy).take (tlsMaxRecord + 256) else left
        recvHdr (got ++ c.take cpy) left net
    else (some got, left, c :: net)

/-- The loop that collects the `rlen` bytes of a record. `rlen` rounds are enough: each copies a
byte. -/
def recvBody (rlen : Nat) : Nat → List UInt8 → List UInt8 → List (List UInt8) →
    Option (List UInt8) × List UInt8 × List (List UInt8)
  | 0, got, left, net => (if got.length < rlen then none else some got, left, net)
  | rounds + 1, got, left, net =>
    if got.length < rlen then
      if left ≠ [] then
        let cpy := min (rlen - got.length) left.length
        recvBody rlen rounds (got ++ left.take cpy) (left.drop cpy) net
      else
        match net with
        | [] => (none, left, [])
        | c :: net =>
          if c = [] then (none, left, net)
          else
            let cpy := min (rlen - got.length) c.length
            recvBody rlen rounds (got ++ c.take cpy) (if cpy < c.length then c.drop cpy else left) net
    else (some got, left, net)

/-- How a call can fail: it returns `-1`, or does something C does not define. -/
inductive RecvFailure where
  | error | undefined
  deriving DecidableEq

/-- What a call gives its caller: a type and the bytes written to `data`, or a failure. -/
inductive RecvResult where
  | record (type : UInt8) (data : List UInt8)
  | failed (f : RecvFailure)
  deriving DecidableEq

/-- The part of `tls_recv_record` that reads a record off the network: its type and its bytes. -/
def tlsRecvRaw (left : List UInt8) (maxdata : Nat) (net : List (List UInt8)) :
    Except RecvFailure (UInt8 × List UInt8) × List UInt8 × List (List UInt8) :=
  match recvHdr [] left net with
  | (none, left, net) => (.error .error, left, net)
  | (some hdr, left, net) =>
    let rlen := tlsReadUint16 (hdr.getD 3 0) (hdr.getD 4 0)
    if maxdata < rlen then (.error .error, left, net)
    else if tlsMaxRecord + 64 < rlen then (.error .undefined, left, net)
    else
      match recvBody rlen rlen [] left net with
      | (none, left, net) => (.error .error, left, net)
      | (some raw, left, net) => (.ok (hdr.getD 0 0, raw), left, net)

/-- What a record of type `0x17` decrypts to: the bytes after the first block, less the padding that
the last byte tells. -/
def tlsDecode (pr : Primitives) (key : List UInt8) (iv : Block) (raw : List UInt8) : List UInt8 :=
  let dec := aesCbcDecrypt pr key iv raw
  let pad := min 15 (dec.getD (raw.length - 1) 0).toNat
  let plain := raw.length - 16 - pad - 1
  (dec.drop 16).take plain

def tlsRecvRecord (pr : Primitives) (t : TlsCtx) (maxdata : Nat) (net : List (List UInt8)) :
    RecvResult × TlsCtx × List (List UInt8) :=
  match tlsRecvRaw t.recvBuf maxdata net with
  | (.error f, left, net) => (.failed f, { t with recvBuf := left }, net)
  | (.ok (type, raw), left, net) =>
    let t := { t with recvBuf := left }
    if type = 0x17 then
      -- an empty record reads `dec[-1]`, a last block that is not whole is decrypted past the bytes received,
      -- and `dec` is shorter than `raw`
      if raw = [] ∨ raw.length % 16 ≠ 0 ∨ tlsMaxRecord + 32 < raw.length then
        (.failed .undefined, t, net)
      else
        (.record type (tlsDecode pr t.macReadKey t.serverIv raw),
          { t with serverIv := copyBlock t.serverIv raw }, net)
    else (.record type raw, t, net)

/-- The results of `n` successive calls. -/
def tlsRecvRecords (pr : Primitives) (maxdata : Nat) : Nat → TlsCtx → List (List UInt8) → List RecvResult
  | 0, _, _ => []
  | n + 1, t, net =>
    match tlsRecvRecord pr t maxdata net with
    | (r, t, net) => r :: tlsRecvRecords pr maxdata n t net

/-- `tls_recv`: a request for at most `max` bytes of application data. -/
def tlsRecv (pr : Primitives) (connected : Bool) (t : TlsCtx) (max : Nat) (net : List (List UInt8)) :
    RecvResult × TlsCtx × List (List UInt8) :=
  if !connected then (.failed .error, t, net)
  else tlsRecvRecord pr t max net

/-- The results of successive requests. -/
def tlsRecvs (pr : Primitives) (connected : Bool) : TlsCtx → List Nat → List (List UInt8) → List RecvResult
  | _, [], _ => []
  | t, max :: maxs, net =>
    match tlsRecv pr connected t max net with
    | (r, t, net) => r :: tlsRecvs pr connected t maxs net

/-- Send payloads one after the other: for each the chunks handed to TCP; `none` when a call
fails. -/
def tlsSendRecords (pr : Primitives) (accept : List UInt8 → Bool) (type : UInt8) :
    TlsCtx → List (List UInt8) → Option (List (List (List UInt8)))
  | _, [] => some []
  | t, d :: ds =>
    match tlsSendRecord pr accept t type d with
    | (none, _) => none
    | (some chunks, t) => (tlsSendRecords pr accept type t ds).map (chunks :: ·)

end PigOS.Crypto
