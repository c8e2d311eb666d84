import PigOS.Crypto.TlsConnect
import PigOS.Crypto.Correctness.TlsSegments

/-!
# `Crypto.Correctness.TlsConnect` — when `tls_connect` declares a connection up

`tls_connect` takes a single branch on its first record: after a ServerHello it goes on without a
certificate, and after a Certificate message it reads at most two records before the key exchange,
and at the end a second one only behind a ChangeCipherSpec. So it never sees a complete handshake
(`not_complete`).

The parts of the handshake are read from the back: each lemma says when a part returns 0 in terms of
when the rest does.
-/

namespace PigOS.Crypto

open Kernel List

variable {env : TlsEnv} {r : Received} {k : UInt8} {log : List Received}
  {α β : Type} {t t' : TlsCtx} {h : Handshake} {net : List (List UInt8)} {j : UInt8}

/-! ## The property -/

/-- The certificate of a message is accepted. -/
def Received.accepted (r : Received) : Bool := ((parseMessage r.resp).getD none).isSome

/-- ServerHello, Certificate and Finished have been received in this order, each at the start of a
record. -/
def Complete (log : List Received) : Prop :=
  ∃ hello cert fin, List.Sublist [hello, cert, fin] log ∧ hello.begins 0x02 = true ∧
    (cert.begins 0x0B = true ∧ cert.accepted = true) ∧ fin.begins 0x14 = true

/-- The connection is declared up only after a complete handshake, and otherwise the call returns
0. -/
def UpOnlyWhenComplete (res : ConnectResult) : Prop :=
  (res.outcome = .returned 1 → Complete res.log) ∧ (¬ Complete res.log → res.outcome = .returned 0)

/-! ## What a part of the handshake ends with -/

def outcomeOf : Stage Handshake → ConnectOutcome
  | .error r => r.outcome
  | .ok _ => .returned 1

def logOf : Stage Handshake → List Received
  | .error r => r.log
  | .ok h => h.log

lemma ok_bind (a : α) (k : α → Stage β) : (Except.ok a >>= k) = k a := rfl

lemma error_bind (r : ConnectResult) (k : α → Stage β) : (Except.error r >>= k) = .error r := rfl

lemma tlsConnect_eq {host : CStr} {port : UInt16} {hip : UInt32} (hlen : host.length ≤ 127)
    (haddr : hostAddr host = some hip) (htcp : env.tcpConnect hip port = true) :
    tlsConnect env host port = ⟨outcomeOf (handshake env host), logOf (handshake env host)⟩ := by
  rw [tlsConnect, if_neg (Nat.not_lt.mpr hlen), haddr]
  show (if env.tcpConnect hip port = true then _ else _) = _
  rw [if_pos htcp]
  cases handshake env host <;> rfl

/-! ## Sending -/

lemma sendChunks_isSome (ok : Bool) {n : Nat} {buf : List UInt8} (hn : 0 < n) (hbuf : buf ≠ []) :
    (sendChunks (fun _ => ok) n buf).isSome = ok := by
  cases ok with
  | false =>
    obtain ⟨k, rfl⟩ := Nat.exists_eq_succ_of_ne_zero (Nat.ne_of_gt hn)
    rw [sendChunks, if_neg hbuf]
    rfl
  | true =>
    clear hn hbuf
    induction n generalizing buf with
    | zero => rfl
    | succ n ih =>
      rw [sendChunks]
      split
      · rfl
      · rw [if_pos rfl, Option.isSome_map]
        exact ih

/-- A context that differs from `t` only in what sending uses. -/
def SendsOn (t t' : TlsCtx) : Prop := ∃ iv seq, t' = { t with clientIv := iv, clientSeq := seq }

lemma SendsOn.refl (t : TlsCtx) : SendsOn t t := ⟨t.clientIv, t.clientSeq, rfl⟩

lemma tlsSendRecord_spec {pr : Primitives} {ok : Bool} {type : UInt8} {data : List UInt8}
    {sent : Option (List (List UInt8))} (h : tlsSendRecord pr (fun _ => ok) t type data = (sent, t')) :
    sent.isSome = ok ∧ SendsOn t t' := by
  have hok {buf : List UInt8} {o : Option (List (List UInt8))} (ho : sendChunks (fun _ => ok) buf.length buf = o)
      (hbuf : buf ≠ []) : o.isSome = ok := by
    rw [← ho]
    exact sendChunks_isSome ok (length_pos_of_ne_nil hbuf) hbuf
  unfold tlsSendRecord at h
  simp only at h
  -- The record starts with its header, so there is something to send.
  split at h
  · rename_i hnone
    cases h
    exact ⟨hok hnone (cons_ne_nil _ _), _, t.clientSeq, rfl⟩
  · rename_i chunks hsome
    cases h
    exact ⟨hok hsome (cons_ne_nil _ _), _, t.clientSeq + 1, rfl⟩

/-- A send changes the context only, and succeeds when TCP takes the record. -/
lemma send_spec (pr : Primitives) (ok : Bool) (h : Handshake) (type : UInt8) (data : List UInt8) :
    ∃ t, h.send pr ok type data = (ok, { h with t := t }) ∧ SendsOn h.t t := by
  obtain ⟨sent, t, hsend⟩ : ∃ sent t, tlsSendRecord pr (fun _ => ok) h.t type data = (sent, t) := ⟨_, _, rfl⟩
  obtain ⟨hok, hsends⟩ := tlsSendRecord_spec hsend
  refine ⟨t, ?_, hsends⟩
  rw [Handshake.send, hsend, ← hok]

/-! ## Receiving -/

/-- What is received does not depend on the part of the context that sending uses. -/
lemma tlsRecvRecord_sendsOn (pr : Primitives) (ht : SendsOn t t') (max : Nat) (net : List (List UInt8)) :
    (tlsRecvRecord pr t' max net).1 = (tlsRecvRecord pr t max net).1 ∧
    SendsOn (tlsRecvRecord pr t max net).2.1 (tlsRecvRecord pr t' max net).2.1 ∧
    (tlsRecvRecord pr t' max net).2.2 = (tlsRecvRecord pr t max net).2.2 := by
  obtain ⟨iv, seq, rfl⟩ := ht
  unfold tlsRecvRecord
  rcases tlsRecvRaw t.recvBuf max net with ⟨f | ⟨type, raw⟩, left, net'⟩
  · exact ⟨rfl, ⟨iv, seq, rfl⟩, rfl⟩
  · dsimp only
    split
    · split
      · exact ⟨rfl, ⟨iv, seq, rfl⟩, rfl⟩
      · exact ⟨rfl, ⟨iv, seq, rfl⟩, rfl⟩
    · exact ⟨rfl, ⟨iv, seq, rfl⟩, rfl⟩

/-- The buffer `resp` with a record copied to its start. -/
def bufferAfter (resp : Nat → UInt8) (data : List UInt8) : Nat → UInt8 := fun i => data.getD i (resp i)

def received (resp : Nat → UInt8) (type : UInt8) (data : List UInt8) : Received :=
  ⟨type, data.length, bufferAfter resp data⟩

/-- The handshake is about to read what a receiver in the context `t` reads from `net`. -/
def Ready (h : Handshake) (t : TlsCtx) (net : List (List UInt8)) : Prop := SendsOn t h.t ∧ h.net = net

/-- What a read does to the handshake. -/
structure ReadStep (res : RecvResult) (t : TlsCtx) (net : List (List UInt8)) (h h' : Handshake)
    (r : Option Received) : Prop where
  ready : Ready h' t net
  cert : h'.cert = h.cert
  log : h'.log = h.log ++ r.toList
  result : (res = .failed .error ∧ r = none) ∨
    ∃ type data, res = .record type data ∧ r = some (received h.resp type data)

lemma recv_spec (pr : Primitives) (hh : Ready h t net) :
    ((tlsRecvRecord pr t tlsMaxRecord net).1 = .failed .undefined ∧ h.recv pr = .error ⟨.undefined, h.log⟩) ∨
    ((tlsRecvRecord pr t tlsMaxRecord net).1 ≠ .failed .undefined ∧ ∃ r h', h.recv pr = .ok (r, h') ∧
      ReadStep (tlsRecvRecord pr t tlsMaxRecord net).1 (tlsRecvRecord pr t tlsMaxRecord net).2.1
        (tlsRecvRecord pr t tlsMaxRecord net).2.2 h h' r) := by
  obtain ⟨ht, rfl⟩ := hh
  obtain ⟨hres, hctx, hnet⟩ := tlsRecvRecord_sendsOn pr ht tlsMaxRecord h.net
  rw [← hres, ← hnet]
  revert hctx
  generalize (tlsRecvRecord pr t tlsMaxRecord h.net).2.1 = t₁
  unfold Handshake.recv
  rcases tlsRecvRecord pr h.t tlsMaxRecord h.net with ⟨⟨type, data⟩ | ⟨_ | _⟩, t', net'⟩
  · intro hctx
    exact .inr ⟨by simp, _, _, rfl, ⟨hctx, rfl⟩, rfl, rfl, .inr ⟨type, data, rfl, rfl⟩⟩
  · intro hctx
    exact .inr ⟨by simp, _, _, rfl, ⟨hctx, rfl⟩, rfl, (append_nil _).symm, .inl ⟨rfl, rfl⟩⟩
  · intro _
    exact .inl ⟨rfl, rfl⟩

/-! ## The order of the records -/

/-- No Certificate message after a ServerHello. -/
def NoCertAfterHello (log : List Received) : Prop :=
  ∀ a b, List.Sublist [a, b] log → a.begins 0x02 = true → b.begins 0x0B = true → False

/-- Only the last record can be one of the handshake. -/
def AtMostLast (log : List Received) : Prop := ∀ b c, List.Sublist [b, c] log → b.type ≠ 0x16

lemma Received.type_of_begins (h : r.begins k = true) : r.type = 0x16 := by
  rw [Received.begins, Received.isHandshake, Bool.and_eq_true, Bool.and_eq_true] at h
  exact of_decide_eq_true h.2.1

lemma Received.begins_unique (hj : r.begins j = true) (hk : r.resp 0 = k) : j = k := by
  rw [Received.begins, Received.isHandshake, Bool.and_eq_true, Bool.and_eq_true] at hj
  exact (of_decide_eq_true hj.2.2).symm.trans hk

lemma isHandshake_resp (h : r.isHandshake k = true) : r.resp 0 = k := by
  rw [Received.isHandshake, Bool.and_eq_true] at h
  exact of_decide_eq_true h.2

lemma isHandshake_unique (h : r.isHandshake j = true) (hjk : j ≠ k) : r.isHandshake k = false := by
  rw [Bool.eq_false_iff]
  intro hk
  exact hjk ((isHandshake_resp h).symm.trans (isHandshake_resp hk))

/-- **No complete handshake.** Of the three messages two would have to be in one part of the log. -/
theorem not_complete {tail : List Received} (hlog : NoCertAfterHello log) (htail : AtMostLast tail) :
    ¬ Complete (log ++ tail) := by
  rintro ⟨a, b, c, hsub, ha, ⟨hb, -⟩, -⟩
  obtain ⟨l₁, l₂, hsplit, h₁, h₂⟩ := sublist_append_iff.mp hsub
  match l₁, hsplit with
  | [], hsplit =>
    -- all three at the end
    obtain rfl : [a, b, c] = l₂ := hsplit
    exact htail a c (List.Sublist.trans (.cons_cons a (.cons b (.refl _))) h₂) (Received.type_of_begins ha)
  | [_], hsplit =>
    obtain ⟨rfl, rfl⟩ : a = _ ∧ [b, c] = l₂ := cons.inj hsplit
    exact htail b c h₂ (Received.type_of_begins hb)
  | a' :: b' :: l, hsplit =>
    obtain ⟨rfl, hsplit'⟩ : a = a' ∧ [b, c] = b' :: (l ++ l₂) := cons.inj hsplit
    obtain ⟨rfl, -⟩ : b = b' ∧ [c] = l ++ l₂ := cons.inj hsplit'
    exact hlog a b (List.Sublist.trans (.cons_cons a (.cons_cons b (nil_sublist l))) h₁) ha hb

lemma pair_sublist_short {a b : Received} (h : List.Sublist [a, b] log) :
    2 ≤ log.length := h.length_le

lemma any_spec {p : Received → Bool} {r : Option Received} (h : r.any p = true) : ∃ x, r = some x ∧ p x = true := by
  cases r with
  | none => exact nomatch h
  | some x => exact ⟨x, rfl, h⟩

lemma toList_length_lt_two (r : Option Received) : r.toList.length < 2 := by
  cases r with
  | none => exact Nat.zero_lt_two
  | some _ => exact Nat.one_lt_two

lemma atMostLast_of_short (h : log.length < 2) : AtMostLast log := by
  intro b c hsub
  have := pair_sublist_short hsub
  omega

lemma atMostLast_pair {x y : Received} (hx : x.type ≠ 0x16) : AtMostLast [x, y] := by
  intro b c hsub
  obtain ⟨rfl, -⟩ := cons.inj (hsub.eq_of_length rfl)
  exact hx

/-- Records after a Certificate message: a third one only behind a ServerKeyExchange. -/
lemma noCertAfterHello_of_cert (hr : r.resp 0 = 0x0B) {rs : List Received}
    (hrs : rs.length < 2 ∨ ∃ x y, rs = [x, y] ∧ x.begins 0x0C = true) : NoCertAfterHello (r :: rs) := by
  intro a b hsub ha hb
  have hrest : List.Sublist [a, b] rs := by
    cases hsub with
    | cons _ h => exact h
    | cons_cons _ _ =>
      -- `r` is no ServerHello
      exact absurd (Received.begins_unique ha hr) (by decide)
  obtain hshort | ⟨x, y, rfl, hx⟩ := hrs
  · have := pair_sublist_short hrest
    omega
  · obtain ⟨rfl, -⟩ := cons.inj (hrest.eq_of_length rfl)
    rw [Received.begins, Received.isHandshake, Bool.and_eq_true, Bool.and_eq_true] at hx
    exact absurd (Received.begins_unique ha (of_decide_eq_true hx.2.2)) (by decide)

lemma noCertAfterHello_of_short (h : log.length < 2) : NoCertAfterHello log := by
  intro a b hsub
  have := pair_sublist_short hsub
  omega

/-! ## Key exchange and end -/

/-- The end of a run does not return 0, and reads a second record only behind a ChangeCipherSpec. -/
lemma finish_spec (env : TlsEnv) (h : Handshake) :
    outcomeOf (finish env h) ≠ .returned 0 ∧ ∃ tail, logOf (finish env h) = h.log ++ tail ∧ AtMostLast tail := by
  obtain ⟨t₁, h₁, -⟩ := send_spec env.pr (env.sendOk 2) h 0x14 [0x01]
  obtain ⟨t₂, h₂, -⟩ := send_spec env.pr (env.sendOk 3) { h with t := t₁ } 0x16 (finishedMessage env.pr t₁.macWriteKey)
  have hready : Ready { h with t := t₂ } t₂ h.net := ⟨SendsOn.refl t₂, rfl⟩
  rw [finish, h₁]
  dsimp only
  rw [h₂]
  obtain ⟨-, hrecv⟩ | ⟨-, r, h', hrecv, hstep⟩ := recv_spec env.pr hready
  · rw [hrecv]
    exact ⟨nofun, [], (append_nil _).symm, atMostLast_of_short (by decide)⟩
  · have hone : r.toList.length < 2 := toList_length_lt_two r
    rw [hrecv, ok_bind]
    split
    · rename_i hccs
      obtain ⟨x, rfl, hx⟩ := any_spec hccs
      have htype : x.type ≠ 0x16 := by
        rw [Bool.and_eq_true] at hx
        rw [of_decide_eq_true hx.2]
        decide
      obtain ⟨-, hrecv'⟩ | ⟨-, r', h'', hrecv', hstep'⟩ := recv_spec env.pr hstep.ready
      · rw [hrecv']
        exact ⟨nofun, _, hstep.log, atMostLast_of_short hone⟩
      · rw [hrecv', ok_bind]
        refine ⟨nofun, x :: r'.toList, ?_, ?_⟩
        · show h''.log = _
          rw [hstep'.log, hstep.log, append_assoc]
          rfl
        · cases r' with
          | none => exact atMostLast_of_short (by show 1 < 2; decide)
          | some y => exact atMostLast_pair htype
    · exact ⟨nofun, _, hstep.log, atMostLast_of_short hone⟩

/-- Without a public exponent there is nothing that the premaster can be encrypted with. -/
lemma encryptPremaster_zero (env : TlsEnv) (rng : UInt32) : (encryptPremaster env rng X509Cert.zero).2 = none := by
  have hwords : (bytesToWords X509Cert.zero.e X509Cert.zero.elen).n = 0 := rfl
  rw [encryptPremaster]
  rw [bnPowmod_no_words _ _ _ _ hwords]

/-- The key exchange and the end: 0 is returned only for a ClientKeyExchange that cannot be sent. -/
lemma keyExchange_spec (env : TlsEnv) (rng : UInt32) (clientRandom : List UInt8) (h : Handshake) :
    (outcomeOf (keyExchange env rng clientRandom h >>= finish env) = .returned 0 ↔
      (encryptPremaster env rng h.cert).2 ≠ none ∧ env.sendOk 1 = false) ∧
    ∃ tail, logOf (keyExchange env rng clientRandom h >>= finish env) = h.log ++ tail ∧ AtMostLast tail := by
  have hempty : ∃ tail, h.log = h.log ++ tail ∧ AtMostLast tail :=
    ⟨[], (append_nil _).symm, atMostLast_of_short Nat.zero_lt_two⟩
  unfold keyExchange
  rcases encryptPremaster env rng h.cert with ⟨premaster, _ | enc⟩
  · exact ⟨⟨nofun, fun hne => absurd rfl hne.1⟩, hempty⟩
  · obtain ⟨t, hsend, -⟩ := send_spec env.pr (env.sendOk 1) h 0x16 (clientKeyExchange h.cert.nlen enc)
    dsimp only
    rw [hsend]
    cases env.sendOk 1 with
    | false => exact ⟨⟨fun _ => ⟨nofun, rfl⟩, fun _ => rfl⟩, hempty⟩
    | true =>
      obtain ⟨hout, hlog⟩ := finish_spec env { h with
        t := tlsComputeKeys env t (env.prf 48 premaster ((cstr "master secret").map Subtype.val)
          (clientRandom ++ h.serverRandom)) (clientRandom ++ h.serverRandom) }
      exact ⟨⟨fun h0 => absurd h0 hout, nofun⟩, hlog⟩

/-! ## The server's messages -/

/-- The result of a read is a handshake record that begins with `k`. -/
def RecvResult.begins (k : UInt8) : RecvResult → Bool
  | .record type data => type = 0x16 && data.head? = some k
  | .failed _ => false

lemma received_begins (resp : Nat → UInt8) (type : UInt8) (data : List UInt8) (k : UInt8) :
    (received resp type data).begins k = RecvResult.begins k (.record type data) := by
  cases data with
  | nil =>
    show (false && _) = (decide (type = 0x16) && false)
    rw [Bool.false_and, Bool.and_false]
  | cons b _ =>
    show (true && (decide (type = 0x16) && decide (b = k))) = (decide (type = 0x16) && decide (some b = some k))
    rw [Bool.true_and]
    congr 1
    exact decide_eq_decide.mpr (Option.some_inj).symm

lemma ReadStep.begins {res : RecvResult} {h' : Handshake}
    {r : Option Received} (hs : ReadStep res t net h h' r) (k : UInt8) :
    r.any (fun r => r.begins k) = res.begins k := by
  obtain ⟨rfl, rfl⟩ | ⟨type, data, rfl, rfl⟩ := hs.result
  · rfl
  · exact received_begins h.resp type data k

/-- After a Certificate message nothing undefined happens up to the key exchange: neither in the
parse nor in the reads `res₁` and, behind a ServerKeyExchange, `res₂`. -/
structure CertReads (resp : Nat → UInt8) (res₁ res₂ : RecvResult) (cert : Option X509Cert) : Prop where
  parse : parseMessage resp = some cert
  second : res₁ ≠ .failed .undefined
  third : res₁.begins 0x0C = true → res₂ ≠ .failed .undefined

section Server

variable {pr : Primitives} {h : Handshake} {t : TlsCtx} {net : List (List UInt8)}

/-- The context and the network after a read. -/
def afterRead (pr : Primitives) (t : TlsCtx) (net : List (List UInt8)) : TlsCtx × List (List UInt8) :=
  (tlsRecvRecord pr t tlsMaxRecord net).2

lemma certificateMessage_spec (pr : Primitives) (hh : Ready h t net) (r : Received) :
    let res₁ := (tlsRecvRecord pr t tlsMaxRecord net).1
    let res₂ := (tlsRecvRecord pr (afterRead pr t net).1 tlsMaxRecord (afterRead pr t net).2).1
    ∃ rs, (rs.length < 2 ∨ ∃ x y, rs = [x, y] ∧ x.begins 0x0C = true) ∧
      (((∀ cert, ¬ CertReads r.resp res₁ res₂ cert) ∧
          certificateMessage pr h r = .error ⟨.undefined, h.log ++ rs⟩) ∨
        ∃ cert h', CertReads r.resp res₁ res₂ cert ∧ certificateMessage pr h r = .ok h' ∧
          h'.cert = cert.getD X509Cert.zero ∧ h'.log = h.log ++ rs) := by
  intro res₁ res₂
  unfold certificateMessage
  cases hparse : parseMessage r.resp with
  | none =>
    refine ⟨[], .inl Nat.zero_lt_two, .inl ⟨fun cert hc => ?_, by rw [append_nil]; rfl⟩⟩
    exact nomatch hparse.symm.trans hc.parse
  | some cert =>
    have hready : Ready { h with cert := cert.getD X509Cert.zero } t net := hh
    dsimp only
    obtain ⟨hund, hrecv⟩ | ⟨hdef, r₁, h₁, hrecv, hstep⟩ := recv_spec pr hready
    · refine ⟨[], .inl Nat.zero_lt_two, .inl ⟨fun _ hc => hc.second hund, ?_⟩⟩
      rw [hrecv, append_nil]
      rfl
    · rw [hrecv, ok_bind]
      rw [hstep.begins]
      by_cases hske : res₁.begins 0x0C = true
      · obtain ⟨x, rfl, hx⟩ := any_spec ((hstep.begins 0x0C).trans hske)
        rw [if_pos hske]
        obtain ⟨hund, hrecv'⟩ | ⟨hdef', r₂, h₂, hrecv', hstep'⟩ := recv_spec pr hstep.ready
        · refine ⟨[x], .inl Nat.one_lt_two, .inl ⟨fun _ hc => hc.third hske hund, ?_⟩⟩
          rw [hrecv', hstep.log]
          rfl
        · rw [hrecv', ok_bind]
          refine ⟨x :: r₂.toList, ?_, .inr ⟨cert, h₂, ⟨hparse, hdef, fun _ => hdef'⟩, rfl, ?_, ?_⟩⟩
          · cases r₂ with
            | none => exact .inl Nat.one_lt_two
            | some y => exact .inr ⟨x, y, rfl, hx⟩
          · rw [hstep'.cert, hstep.cert]
          · rw [hstep'.log, hstep.log, append_assoc]
            rfl
      · rw [if_neg hske]
        refine ⟨r₁.toList, .inl (toList_length_lt_two r₁),
          .inr ⟨cert, h₁, ⟨hparse, hdef, ?_⟩, rfl, hstep.cert, hstep.log⟩⟩
        exact fun hb => absurd hb hske

/-- The first record is a Certificate message with `cert`, and the reads that follow are defined. -/
def OffersCert (pr : Primitives) (resp : Nat → UInt8) (t : TlsCtx) (net : List (List UInt8))
    (cert : Option X509Cert) : Prop :=
  ∃ type data, (tlsRecvRecord pr t tlsMaxRecord net).1 = .record type data ∧
    (received resp type data).isHandshake 0x0B = true ∧
    let (t₁, net₁) := afterRead pr t net
    let (t₂, net₂) := afterRead pr t₁ net₁
    CertReads (bufferAfter resp data) (tlsRecvRecord pr t₁ tlsMaxRecord net₁).1
      (tlsRecvRecord pr t₂ tlsMaxRecord net₂).1 cert

lemma OffersCert.unique {resp : Nat → UInt8} {c c' : Option X509Cert} (hc : OffersCert pr resp t net c)
    (hc' : OffersCert pr resp t net c') : c = c' := by
  obtain ⟨type, data, hres, -, hreads⟩ := hc
  obtain ⟨type', data', hres', -, hreads'⟩ := hc'
  obtain ⟨rfl, rfl⟩ := RecvResult.record.inj (hres.symm.trans hres')
  exact Option.some_inj.mp (hreads.parse.symm.trans hreads'.parse)

/-- **The server's messages.** 0 is returned when nothing arrives. Otherwise the key exchange goes
on with the certificate that came first, or with none. -/
theorem serverMessages_spec (pr : Primitives) (hh : Ready h t net) (hcert : h.cert = X509Cert.zero)
    (hlog : h.log = []) :
    NoCertAfterHello (logOf (serverMessages pr h)) ∧
    (((tlsRecvRecord pr t tlsMaxRecord net).1 = .failed .error ∧
        serverMessages pr h = .error ⟨.returned 0, []⟩) ∨ ((tlsRecvRecord pr t tlsMaxRecord net).1 ≠ .failed .error ∧
        ((∃ cert h', OffersCert pr h.resp t net cert ∧ serverMessages pr h = .ok h' ∧
            h'.cert = cert.getD X509Cert.zero) ∨ ((∀ cert, ¬ OffersCert pr h.resp t net cert) ∧
            ((∃ log, serverMessages pr h = .error ⟨.undefined, log⟩) ∨
              ∃ h', serverMessages pr h = .ok h' ∧ h'.cert = X509Cert.zero))))) := by
  unfold serverMessages
  obtain ⟨hund, hrecv⟩ | ⟨hdef, r, h₁, hrecv, hstep⟩ := recv_spec pr hh
  · -- the first read is undefined
    rw [hrecv, error_bind, hund, hlog]
    refine ⟨noCertAfterHello_of_short Nat.zero_lt_two, .inr ⟨nofun, .inr ⟨?_, .inl ⟨_, rfl⟩⟩⟩⟩
    rintro cert ⟨type, data, hres, -⟩
    exact nomatch hund.symm.trans hres
  · rw [hrecv, ok_bind]
    dsimp only
    obtain ⟨hres, rfl⟩ | ⟨type, data, hres, rfl⟩ := hstep.result
    · -- no response
      have hlog₁ : h₁.log = [] := by rw [hstep.log, hlog]; rfl
      rw [Handshake.stop, hlog₁]
      exact ⟨noCertAfterHello_of_short Nat.zero_lt_two, .inl ⟨hres, rfl⟩⟩
    · have hlog₁ : h₁.log = [received h.resp type data] := by rw [hstep.log, hlog]; rfl
      have hne : (tlsRecvRecord pr t tlsMaxRecord net).1 ≠ .failed .error := by rw [hres]; exact nofun
      have hcert₁ : h₁.cert = X509Cert.zero := hstep.cert.trans hcert
      have hshort : NoCertAfterHello h₁.log := by
        rw [hlog₁]
        exact noCertAfterHello_of_short Nat.one_lt_two
      -- without a Certificate message in front the certificate stays zero
      have hother : (received h.resp type data).isHandshake 0x0B = false →
          ∀ cert, ¬ OffersCert pr h.resp t net cert := by
        rintro hb cert ⟨type', data', hres', hb', -⟩
        obtain ⟨rfl, rfl⟩ := RecvResult.record.inj (hres.symm.trans hres')
        exact Bool.false_ne_true (hb.symm.trans hb')
      dsimp only
      split
      · rename_i hsh
        have hb : (received h.resp type data).isHandshake 0x0B = false := isHandshake_unique hsh (by decide)
        exact ⟨hshort, .inr ⟨hne, .inr ⟨hother hb, .inr ⟨_, rfl, hcert₁⟩⟩⟩⟩
      · split
        · rename_i hb
          have hfirst : (received h.resp type data).resp 0 = 0x0B := isHandshake_resp hb
          obtain ⟨rs, hrs, ⟨hno, herr⟩ | ⟨cert, h', hreads, hok, hc, hl⟩⟩ :=
            certificateMessage_spec pr hstep.ready (received h.resp type data)
          · rw [herr, hlog₁]
            refine ⟨noCertAfterHello_of_cert hfirst hrs, .inr ⟨hne, .inr ⟨?_, .inl ⟨_, rfl⟩⟩⟩⟩
            rintro cert ⟨type', data', hres', -, hreads⟩
            obtain ⟨rfl, rfl⟩ := RecvResult.record.inj (hres.symm.trans hres')
            exact hno cert hreads
          · rw [hok]
            refine ⟨?_, .inr ⟨hne, .inl ⟨cert, h', ⟨type, data, hres, hb, hreads⟩, rfl, hc⟩⟩⟩
            show NoCertAfterHello h'.log
            rw [hl, hlog₁]
            exact noCertAfterHello_of_cert hfirst hrs
        · rename_i hb
          exact ⟨hshort, .inr ⟨hne, .inr ⟨hother (Bool.eq_false_iff.mpr hb), .inr ⟨_, rfl, hcert₁⟩⟩⟩⟩

end Server

/-! ## The whole handshake -/

/-- The generator's state when the premaster secret is drawn. -/
def premasterRng (env : TlsEnv) : UInt32 := (tlsFillRandom (tlsFillRandom env.rng 32).2 32).2

/-- The first record is a Certificate message with a key of use, and TCP does not take the
ClientKeyExchange. -/
def KeyRefused (env : TlsEnv) : Prop :=
  ∃ cert, OffersCert env.pr env.resp freshCtx env.net (some cert) ∧
    (encryptPremaster env (premasterRng env) cert).2 ≠ none ∧ env.sendOk 1 = false

/-- There is no address, or TCP does not connect or take the ClientHello, or nothing arrives, or the
key exchange fails. -/
def BreaksOff (env : TlsEnv) (host : CStr) (port : UInt16) : Prop :=
  host.length ≤ 127 ∧
    ∀ hip, hostAddr host = some hip → env.tcpConnect hip port = true → env.sendOk 0 = true →
      (tlsRecvRecord env.pr freshCtx tlsMaxRecord env.net).1 = .failed .error ∨ KeyRefused env

lemma helloSent_spec (env : TlsEnv) (host : CStr) :
    ∃ h, helloSent env host = (env.sendOk 0, h) ∧ Ready h freshCtx env.net ∧ h.cert = X509Cert.zero ∧ h.log = [] ∧
      h.resp = env.resp := by
  obtain ⟨t, hsend, ht⟩ := send_spec env.pr (env.sendOk 0)
    ⟨freshCtx, env.net, env.resp, replicate 32 0, X509Cert.zero, []⟩ 0x16
    (clientHello (tlsFillRandom env.rng 32).1 (tlsFillRandom (tlsFillRandom env.rng 32).2 32).1 host)
  exact ⟨⟨t, env.net, env.resp, replicate 32 0, X509Cert.zero, []⟩, hsend, ⟨ht, rfl⟩, rfl, rfl, rfl⟩

lemma rest_not_complete (horder : NoCertAfterHello (logOf (serverMessages env.pr h)))
    (rng : UInt32) (random : List UInt8) :
    ¬ Complete (logOf (serverMessages env.pr h >>= fun h => keyExchange env rng random h >>= finish env)) := by
  cases hr : serverMessages env.pr h with
  | error r =>
    rw [hr] at horder
    have hnil := not_complete horder (atMostLast_of_short (show ([] : List Received).length < 2 from Nat.zero_lt_two))
    rwa [append_nil] at hnil
  | ok h' =>
    obtain ⟨tail, htail, hlast⟩ := (keyExchange_spec env rng random h').2
    rw [hr] at horder
    rw [ok_bind, htail]
    exact not_complete horder hlast

lemma handshake_spec (hsent : env.sendOk 0 = true) (host : CStr) : ¬ Complete (logOf (handshake env host)) ∧
    (outcomeOf (handshake env host) = .returned 0 ↔
      (tlsRecvRecord env.pr freshCtx tlsMaxRecord env.net).1 = .failed .error ∨ KeyRefused env) := by
  obtain ⟨h, hhello, hready, hcert, hlog, hresp⟩ := helloSent_spec env host
  have hrun : handshake env host = (serverMessages env.pr h >>= fun h =>
      keyExchange env (premasterRng env) (tlsFillRandom env.rng 32).1 h >>= finish env) := by
    rw [handshake, hhello, hsent]
    rfl
  have hkey (h' : Handshake) := (keyExchange_spec env (premasterRng env) (tlsFillRandom env.rng 32).1 h').1
  have hzero := encryptPremaster_zero env (premasterRng env)
  obtain ⟨horder, hcases⟩ := serverMessages_spec env.pr hready hcert hlog
  rw [hrun]
  rw [hresp] at hcases
  refine ⟨rest_not_complete horder _ _, ?_⟩
  obtain ⟨herr, hr⟩ | ⟨hne, ⟨cert, h', hoffer, hr, hc⟩ | ⟨hno, ⟨log, hr⟩ | ⟨h', hr, hc⟩⟩⟩ := hcases
  · -- nothing arrives
    rw [hr, error_bind]
    exact ⟨fun _ => .inl herr, fun _ => rfl⟩
  · -- a Certificate message comes first
    rw [hr, ok_bind, hkey h', hc]
    constructor
    · rintro ⟨hdef, hrefused⟩
      cases cert with
      | none => exact absurd hzero hdef
      | some cert => exact .inr ⟨cert, hoffer, hdef, hrefused⟩
    · rintro (herr | ⟨cert', hoffer', hdef, hrefused⟩)
      · exact absurd herr hne
      · rw [hoffer.unique hoffer']
        exact ⟨hdef, hrefused⟩
  · -- a read is undefined
    rw [hr, error_bind]
    refine ⟨nofun, ?_⟩
    rintro (herr | ⟨cert, hoffer, -⟩)
    · exact absurd herr hne
    · exact absurd hoffer (hno _)
  · -- another message comes first, and there is no key
    rw [hr, ok_bind, hkey h', hc]
    constructor
    · rintro ⟨hdef, -⟩
      exact absurd hzero hdef
    · rintro (herr | ⟨cert, hoffer, -⟩)
      · exact absurd herr hne
      · exact absurd hoffer (hno _)

lemma handshake_unsent (hsent : env.sendOk 0 = false) (host : CStr) :
    handshake env host = .error ⟨.returned 0, []⟩ := by
  obtain ⟨h, hhello, -, -, hlog, -⟩ := helloSent_spec env host
  rw [handshake, hhello, hsent]
  dsimp only
  rw [if_neg Bool.false_ne_true, Handshake.stop, hlog]

lemma not_complete_nil : ¬ Complete [] := by
  rintro ⟨a, b, c, hsub, -⟩
  exact nomatch hsub

/-- A run with an incomplete handshake is as it should be when it returns 0. -/
lemma upOnlyWhenComplete_iff {res : ConnectResult} (h : ¬ Complete res.log) :
    UpOnlyWhenComplete res ↔ res.outcome = .returned 0 := by
  constructor
  · intro hup
    exact hup.2 h
  · intro hzero
    refine ⟨fun hone => ?_, fun _ => hzero⟩
    exact nomatch hzero.symm.trans hone

/-- **A connection is declared up only after a complete handshake exactly when it is not declared up
at all.** -/
theorem tlsConnect_complete_iff (env : TlsEnv) (host : CStr) (port : UInt16) :
    UpOnlyWhenComplete (tlsConnect env host port) ↔ BreaksOff env host port := by
  by_cases hlen : host.length ≤ 127
  · cases haddr : hostAddr host with
    | none =>
      have hres : tlsConnect env host port = ⟨.returned 0, []⟩ := by
        rw [tlsConnect, if_neg (Nat.not_lt.mpr hlen), haddr]
      rw [hres, upOnlyWhenComplete_iff not_complete_nil]
      refine ⟨fun _ => ⟨hlen, fun hip hip' => ?_⟩, fun _ => rfl⟩
      exact nomatch haddr.symm.trans hip'
    | some hip =>
      by_cases htcp : env.tcpConnect hip port = true
      · rw [tlsConnect_eq hlen haddr htcp]
        cases hsent : env.sendOk 0 with
        | false =>
          rw [handshake_unsent hsent, upOnlyWhenComplete_iff not_complete_nil]
          refine ⟨fun _ => ⟨hlen, fun _ _ _ hsent' => ?_⟩, fun _ => rfl⟩
          exact absurd (hsent.symm.trans hsent') Bool.false_ne_true
        | true =>
          obtain ⟨hlog, hout⟩ := handshake_spec hsent host
          rw [upOnlyWhenComplete_iff hlog]
          refine hout.trans ⟨fun h => ⟨hlen, fun _ _ _ _ => h⟩, fun h => ?_⟩
          exact h.2 hip haddr htcp hsent
      · have hres : tlsConnect env host port = ⟨.returned 0, []⟩ := by
          rw [tlsConnect, if_neg (Nat.not_lt.mpr hlen), haddr]
          exact if_neg htcp
        rw [hres, upOnlyWhenComplete_iff not_complete_nil]
        refine ⟨fun _ => ⟨hlen, fun hip' haddr' htcp' => ?_⟩, fun _ => rfl⟩
        obtain rfl := Option.some_inj.mp (haddr.symm.trans haddr')
        exact absurd htcp' htcp
  · have hres : tlsConnect env host port = ⟨.undefined, []⟩ := by
      rw [tlsConnect, if_pos (Nat.not_le.mp hlen)]
    rw [hres, upOnlyWhenComplete_iff not_complete_nil]
    exact ⟨nofun, fun h => absurd h.1 hlen⟩

/-- A Certificate message whose certificate has the modulus 5 and the exponent 0. -/
def exponentZero : List UInt8 :=
  [0x0B, 0, 0, 0x2B, 0, 0, 0x28, 0, 0, 0x25,
   0x30, 0x23, 0x30, 0x21,
   0x02, 0x01, 0x00, 0x02, 0x01, 0x00, 0x02, 0x01, 0x00, 0x02, 0x01, 0x00, 0x02, 0x01, 0x00, 0x02, 0x01, 0x00,
   0x30, 0x0D, 0x05, 0x00, 0x03, 0x09, 0x00, 0x30, 0x06, 0x02, 0x01, 0x05, 0x02, 0x01, 0x00]

/-- A server that sends this message and nothing else. -/
def certOnly : TlsEnv where
  pr := plainPrimitives
  prf := fun _ _ _ _ => []
  mulmod := fun _ _ _ => none
  rng := 0xCAFEBABE
  tcpConnect := fun _ _ => true
  sendOk := fun _ => true
  net := [[0x16, 3, 3, 0, 0x2F] ++ exponentZero]
  resp := fun _ => 0
  enc := ⟨fun _ => 0, 0⟩

/-- The connection is declared up after a single message: no ServerHello, no Finished. -/
theorem tlsConnect_up_after_certificate :
    (tlsConnect certOnly (cstr "10.0.2.2") 443).outcome = .returned 1 ∧
    (tlsConnect certOnly (cstr "10.0.2.2") 443).log.length = 1 ∧
    ¬ UpOnlyWhenComplete (tlsConnect certOnly (cstr "10.0.2.2") 443) := by
  have hrun : (tlsConnect certOnly (cstr "10.0.2.2") 443).outcome = .returned 1 ∧
      (tlsConnect certOnly (cstr "10.0.2.2") 443).log.length = 1 := by decide +kernel
  refine ⟨hrun.1, hrun.2, fun hup => ?_⟩
  obtain ⟨a, b, c, hsub, -⟩ := hup.1 hrun.1
  have hthree : 3 ≤ (tlsConnect certOnly (cstr "10.0.2.2") 443).log.length := hsub.length_le
  omega

end PigOS.Crypto
