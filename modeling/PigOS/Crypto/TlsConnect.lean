import PigOS.Crypto.Asn1
import PigOS.Crypto.Rsa
import PigOS.Crypto.TlsRecord
import PigOS.Kernel.Mem

/-!
# `Crypto.TlsConnect` — the handshake of `crypto/tls_client.h`, and `tls_prf`

- A run ends with a return value, or with the outcome `undefined` where it leaves an array.
- The handshake keeps a log of the records that it receives, with the buffer `resp` as each one
  leaves it. The buffer is longer than any record, is not cleared, and is read behind the end of the
  last record.
- What a run depends on besides its arguments is in `TlsEnv`. A record that the handshake sends is
  one chunk for TCP, so that one answer for each of them is enough.
- The lines that are printed are left out.
-/

namespace PigOS.Crypto

open Kernel

/-! ## Numbers and random bytes -/

def tlsWriteUint24 (v : Nat) : List UInt8 := [UInt8.ofNat (v / 65536), UInt8.ofNat (v / 256), UInt8.ofNat v]

def tlsReadUint24 (p : Nat → UInt8) (i : Nat) : Nat :=
  (p i).toNat * 65536 + (p (i + 1)).toNat * 256 + (p (i + 2)).toNat

/-- `tls_rng`: the next state, which is also what it returns. -/
def tlsRng (s : UInt32) : UInt32 :=
  let s := s ^^^ (s <<< 13)
  let s := s ^^^ (s >>> 17)
  s ^^^ (s <<< 5)

/-- The rounds of `tls_fill_random`, four bytes each, and the state after them. -/
def randomWords : Nat → UInt32 → List UInt8 × UInt32
  | 0, s => ([], s)
  | n + 1, s =>
    let r := tlsRng s
    let (bytes, s) := randomWords n r
    ([r.toUInt8, (r >>> 8).toUInt8, (r >>> 16).toUInt8, (r >>> 24).toUInt8] ++ bytes, s)

def tlsFillRandom (s : UInt32) (len : Nat) : List UInt8 × UInt32 :=
  let (bytes, s) := randomWords ((len + 3) / 4) s
  (bytes.take len, s)

/-! ## The address -/

/-- The loop over the host name: the address so far and the number of its parts. Characters of no
use are passed over. -/
def hostLoop : CStr → UInt32 → UInt32 → Nat → UInt32 × Nat
  | [], hip, _, parts => (hip, parts)
  | c :: cs, hip, oct, parts =>
    if 4 ≤ parts then (hip, parts)
    else
      let oct := if 0x30 ≤ c.val ∧ c.val ≤ 0x39 then oct * 10 + (c.val - 0x30).toUInt32 else oct
      if c.val = 0x2E ∨ cs = [] then hostLoop cs ((hip <<< 8) ||| oct) 0 (parts + 1)
      else hostLoop cs hip oct parts

/-- The address that is connected to: four parts, or one of the names that are built in. -/
def hostAddr (host : CStr) : Option UInt32 :=
  let (hip, parts) := hostLoop host 0 0 0
  if parts = 4 then some hip
  else if ksc host (cstr "discord.com") = 0 ∨ ksc host (cstr "discord.gg") = 0 then some 0xA29F80E9
  else none

/-! ## What is sent -/

/-- Overwrite the bytes of a message from `off` on. -/
def patch (buf : List UInt8) (off : Nat) (bytes : List UInt8) : List UInt8 :=
  buf.take off ++ bytes ++ buf.drop (off + bytes.length)

/-- `ch[0..ch_len)`. The length that is written last goes over the last two bytes of the name. -/
def clientHello (clientRandom sessionId : List UInt8) (host : CStr) : List UInt8 :=
  let hlen := host.length
  let ch := [0x01] ++ tlsWriteUint24 0 ++ [0x03, 0x03] ++ clientRandom ++ [32] ++ sessionId ++ tlsWriteUint16 2 ++
    tlsWriteUint16 0x003D ++ [1, 0x00]
  let extStart := ch.length
  let ch := ch ++ tlsWriteUint16 0
  let sniStart := ch.length
  let ch := ch ++ tlsWriteUint16 0
  let sniListStart := ch.length
  let ch := ch ++ tlsWriteUint16 0 ++ [0x00] ++ tlsWriteUint16 (hlen + 3) ++ [0x00] ++ tlsWriteUint16 hlen ++
    host.map Subtype.val
  let off := ch.length
  let ch := patch ch sniListStart (tlsWriteUint16 (off - sniListStart - 2))
  let ch := patch ch sniStart (tlsWriteUint16 (off - sniStart - 2))
  let ch := patch ch extStart (tlsWriteUint16 (off - extStart - 2))
  let ch := patch ch 1 (tlsWriteUint24 (off - 4))
  patch ch (off - 2) (tlsWriteUint16 (off - 5))

/-- `(len+7)/8` words from `len` bytes. -/
def bytesToWords (b : List UInt8) (len : Nat) : BN where
  w := fun i => packWord (b.take len) i
  n := (len + 7) / 8

/-- `cke[0..264)`, with the same overwriting of the last two bytes. -/
def clientKeyExchange (nlen : Nat) (enc : BN) : List UInt8 :=
  let cke := [0x10] ++ tlsWriteUint24 0 ++ [0x03, 0x03] ++ tlsWriteUint16 nlen ++ bnToBytes enc enc.n
  let cke := patch cke 1 (tlsWriteUint24 (cke.length - 4))
  patch cke (cke.length - 2) (tlsWriteUint16 (cke.length - 5))

/-- `fin_msg`: its verify data are a MAC of twelve zeros. -/
def finishedMessage (pr : Primitives) (macWriteKey : List UInt8) : List UInt8 :=
  [0x14] ++ tlsWriteUint24 12 ++ (pr.hmacSha256 macWriteKey (List.replicate 12 0)).val.take 12

/-! ## The state of a handshake -/

/-- What a run depends on besides its arguments. -/
structure TlsEnv where
  pr : Primitives
  /-- `tls_prf` of an output length, a secret, a label and a seed -/
  prf : Nat → List UInt8 → List UInt8 → List UInt8 → List UInt8
  /-- `bn_mulmod`, with `none` where it leaves an array -/
  mulmod : BN → BN → BN → Option BN
  /-- the state of `tls_rng` -/
  rng : UInt32
  tcpConnect : UInt32 → UInt16 → Bool
  /-- whether TCP takes the ClientHello, the ClientKeyExchange and what follows -/
  sendOk : Nat → Bool
  /-- what successive calls of `tls_tcp_recv` return -/
  net : List (List UInt8)
  /-- what `resp` and `enc_bn` hold before they are written -/
  resp : Nat → UInt8
  enc : BN

/-- A record that has been received: `rtype`, `rlen` and `resp`. -/
structure Received where
  type : UInt8
  len : Nat
  resp : Nat → UInt8

/-- `rtype==0x16&&resp[0]==k`. -/
def Received.isHandshake (r : Received) (k : UInt8) : Bool := r.type = 0x16 && r.resp 0 = k

/-- `rlen>0&&rtype==0x16&&resp[0]==k`. -/
def Received.begins (r : Received) (k : UInt8) : Bool := 0 < r.len && r.isHandshake k

inductive ConnectOutcome where
  | returned (r : Nat)
  | undefined
  deriving DecidableEq

structure ConnectResult where
  outcome : ConnectOutcome
  log : List Received

structure Handshake where
  t : TlsCtx
  net : List (List UInt8)
  resp : Nat → UInt8
  serverRandom : List UInt8
  cert : X509Cert
  log : List Received

/-- A part of the handshake: it goes on, or the run ends in it. -/
abbrev Stage := Except ConnectResult

def Handshake.stop {α : Type} (h : Handshake) (outcome : ConnectOutcome) : Stage α := .error ⟨outcome, h.log⟩

/-- `tls_recv_record(&_tls,&rtype,resp,TLS_MAX_RECORD)`; `none` when it returns -1. -/
def Handshake.recv (pr : Primitives) (h : Handshake) : Stage (Option Received × Handshake) :=
  match tlsRecvRecord pr h.t tlsMaxRecord h.net with
  | (.failed .undefined, _, _) => h.stop .undefined
  | (.failed .error, t, net) => .ok (none, { h with t := t, net := net })
  | (.record type data, t, net) =>
    let resp := fun i => data.getD i (h.resp i)
    let r : Received := ⟨type, data.length, resp⟩
    .ok (some r, { h with t := t, net := net, resp := resp, log := h.log ++ [r] })

/-- `tls_send_record`, and whether it succeeds. -/
def Handshake.send (pr : Primitives) (ok : Bool) (h : Handshake) (type : UInt8) (data : List UInt8) :
    Bool × Handshake :=
  match tlsSendRecord pr (fun _ => ok) h.t type data with
  | (sent, t) => (sent.isSome, { h with t := t })

/-! ## The server's messages -/

def tlsMaxCert : Nat := 8192

/-- `cert_data_len`, the number of bytes that are copied to `cert_der`. -/
def certDataLen (resp : Nat → UInt8) : Nat :=
  if tlsMaxCert < tlsReadUint24 resp 7 then tlsMaxCert else tlsReadUint24 resp 7

/-- `_tls.cert_der`, which was zero. -/
def certDer (resp : Nat → UInt8) : Nat → UInt8 := fun i => if i < certDataLen resp then resp (10 + i) else 0

/-- `x509_parse_cert` on the certificate of a message: `none` where a read leaves `cert_der`. If
refused, `cert` stays zero. -/
def parseMessage (resp : Nat → UInt8) : Option (Option X509Cert) :=
  match x509ParseCert (certDer resp) (certDataLen resp) with
  | none => none
  | some (cert, reads) => if reads.all (· < tlsMaxCert) then some cert else none

/-- After a Certificate message: the parse, a record, and a third one behind a ServerKeyExchange. -/
def certificateMessage (pr : Primitives) (h : Handshake) (r : Received) : Stage Handshake :=
  match parseMessage r.resp with
  | none => h.stop .undefined
  | some cert => do
      let h := { h with cert := cert.getD X509Cert.zero }
      let (r, h) ← h.recv pr
      if r.any (·.begins 0x0C) then
        let (_, h) ← h.recv pr
        pure h
      else pure h

/-- From the wait for the ServerHello to the key exchange. Only the first record is looked at. -/
def serverMessages (pr : Primitives) (h : Handshake) : Stage Handshake := do
  let (r, h) ← h.recv pr
  match r with
  | none => h.stop (.returned 0)
  | some r =>
    if r.isHandshake 0x02 then pure { h with serverRandom := (List.range 32).map (fun i => r.resp (6 + 32 + i)) }
    else if r.isHandshake 0x0B then certificateMessage pr h r
    else pure h

/-! ## Key exchange and end -/

/-- The premaster secret and the encrypted one. -/
def encryptPremaster (env : TlsEnv) (rng : UInt32) (cert : X509Cert) : List UInt8 × Option BN :=
  let premaster := [0x03, 0x03] ++ (tlsFillRandom rng 46).1
  (premaster, bnPowmod env.mulmod env.enc (bytesToWords premaster 48) (bytesToWords cert.e cert.elen)
    (bytesToWords cert.n cert.nlen))

/-- `tls_compute_keys`, from a key block of 104 bytes. -/
def tlsComputeKeys (env : TlsEnv) (t : TlsCtx) (master seed : List UInt8) : TlsCtx :=
  let keyBlock := env.prf 104 master ((cstr "key expansion").map Subtype.val) seed
  { t with
    macWriteKey := keyBlock.take 32
    macReadKey := (keyBlock.drop 32).take 32
    clientIv := copyBlock t.clientIv (keyBlock.drop 64)
    serverIv := copyBlock t.serverIv (keyBlock.drop 80)
    clientSeq := 0 }

def keyExchange (env : TlsEnv) (rng : UInt32) (clientRandom : List UInt8) (h : Handshake) : Stage Handshake :=
  match encryptPremaster env rng h.cert with
  | (_, none) => h.stop .undefined
  | (premaster, some enc) =>
    match h.send env.pr (env.sendOk 1) 0x16 (clientKeyExchange h.cert.nlen enc) with
    | (false, h) => h.stop (.returned 0)
    | (true, h) =>
      let seed := clientRandom ++ h.serverRandom
      let master := env.prf 48 premaster ((cstr "master secret").map Subtype.val) seed
      .ok { h with t := tlsComputeKeys env h.t master seed }

/-- ChangeCipherSpec and Finished, whether they can be sent or not, and at most two more records. -/
def finish (env : TlsEnv) (h : Handshake) : Stage Handshake := do
  let (_, h) := h.send env.pr (env.sendOk 2) 0x14 [0x01]
  let (_, h) := h.send env.pr (env.sendOk 3) 0x16 (finishedMessage env.pr h.t.macWriteKey)
  let (r, h) ← h.recv env.pr
  if r.any (fun r => 0 < r.len && r.type = 0x14) then
    let (_, h) ← h.recv env.pr
    pure h
  else pure h

/-! ## `tls_connect` -/

/-- The state in which `tls_connect` waits for the server, and whether the ClientHello was sent. -/
def helloSent (env : TlsEnv) (host : CStr) : Bool × Handshake :=
  let (clientRandom, rng) := tlsFillRandom env.rng 32
  let (sessionId, _) := tlsFillRandom rng 32
  let h : Handshake := ⟨freshCtx, env.net, env.resp, List.replicate 32 0, X509Cert.zero, []⟩
  h.send env.pr (env.sendOk 0) 0x16 (clientHello clientRandom sessionId host)

/-- From the ClientHello to the end. -/
def handshake (env : TlsEnv) (host : CStr) : Stage Handshake := do
  let (clientRandom, rng) := tlsFillRandom env.rng 32
  let (_, rng) := tlsFillRandom rng 32
  let (sent, h) := helloSent env host
  if sent then
    let h ← serverMessages env.pr h
    let h ← keyExchange env rng clientRandom h
    finish env h
  else h.stop (.returned 0)

/-- `tls_connect`. A name of more than 127 characters does not fit `_tls.host`. -/
def tlsConnect (env : TlsEnv) (host : CStr) (port : UInt16) : ConnectResult :=
  if 127 < host.length then ⟨.undefined, []⟩
  else
    match hostAddr host with
    | none => ⟨.returned 0, []⟩
    | some hip =>
      if env.tcpConnect hip port then
        match handshake env host with
        | .error r => r
        | .ok h => ⟨.returned 1, h.log⟩
      else ⟨.returned 0, []⟩

/-! ## Key derivation

`tls_prf` works in the arrays `a` and `a_seed`, which it does not clear. What they hold at first is
an argument: `a₀`, and `stale i` for `a_seed` in round `i`. `hmac_sha256` is a parameter. -/

/-- What `hmac_sha256` writes. -/
abbrev Mac := { mac : List UInt8 // mac.length = 32 }

/-- `kmc(a,bytes,len)` -/
def overlay (a : Nat → UInt8) (bytes : List UInt8) : Nat → UInt8 := fun i => bytes.getD i (a i)

/-- `a[0..n)` -/
def front (a : Nat → UInt8) (n : Nat) : List UInt8 := (List.range n).map a

section Prf

variable (hmac : List UInt8 → List UInt8 → Mac) (stale : Nat → Nat → UInt8) (secret label seed : List UInt8)

/-- `seed_total`. -/
def seedTotal : Nat := min (label.length + seed.length) 256

/-- `a_seed[0..as)`: the label is counted, but only the seed is copied. -/
def aSeed (i : Nat) (a : Nat → UInt8) : List UInt8 :=
  front (overlay (stale i) (front a 32 ++ seed.take (256 - 32))) (min (32 + seedTotal label seed) 256)

/-- The loop, from round `i` on, with `left` bytes to go. -/
def prfLoop : Nat → Nat → Nat → (Nat → UInt8) → List UInt8
  | 0, _, _, _ => []
  | rounds + 1, i, left, a =>
    if left = 0 then []
    else
      -- `p_buf` has 64 bytes more than `seed_total`
      let pBuf := front a 32 ++ (label ++ seed).take (32 + seedTotal label seed)
      let hash := hmac secret pBuf
      let cpy := min left 32
      hash.val.take cpy ++
        prfLoop rounds (i + 1) (left - cpy) (overlay a (hmac (front a secret.length) (aSeed stale label seed i a)).val)

/-- `tls_prf`: the bytes that it writes to `out`. -/
def tlsPrf (a₀ : Nat → UInt8) (olen : Nat) : List UInt8 :=
  let seedBuf := (label ++ seed).take 256
  let a := overlay a₀ (secret.take 32)
  let a := overlay a (hmac (front a secret.length) seedBuf).val
  prfLoop hmac stale secret label seed ((olen + 31) / 32) 0 olen a

end Prf

end PigOS.Crypto
