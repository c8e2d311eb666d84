import PigOS.Crypto.Correctness.TlsSegments
import PigOS.Crypto.TlsConnect
import PigOS.Lib.Feed

/-!
# `Crypto.Correctness.ClientHello` — the ClientHello of `tls_connect` and its grammar

The grammar of RFC 5246 (7.4.1.2) and of the `server_name` extension of RFC 6066, as the bytes of a
`Hello`. The message is one of its words (`sentHello_message`). But the two bytes that should be the
type of its extension are overwritten with a length, so that it is not a `server_name` extension.
-/

namespace PigOS.Crypto

open Kernel Codes List

/-! ## The grammar -/

def uint8 (n : Nat) : List UInt8 := [UInt8.ofNat n]

/-- An `Extension`: its type and its data. -/
structure Extension where
  type : Fin 65536
  data : { l : List UInt8 // l.length < 65536 }

def Extension.bytes (e : Extension) : List UInt8 := tlsWriteUint16 e.type ++ vector tlsWriteUint16 e.data

/-- A `ClientHello`. Its extensions may be missing altogether. -/
structure Hello where
  version : UInt8 × UInt8
  random : { l : List UInt8 // l.length = 32 }
  session : { l : List UInt8 // l.length ≤ 32 }
  suites : { l : List UInt8 // 2 ≤ l.length ∧ l.length ≤ 65534 ∧ l.length % 2 = 0 }
  compression : { l : List UInt8 // 1 ≤ l.length ∧ l.length ≤ 255 }
  extensions : Option (List Extension)
  fits : ∀ es ∈ extensions, (es.flatMap Extension.bytes).length < 65536

def Hello.extensionBytes (h : Hello) : List UInt8 :=
  match h.extensions with
  | none => []
  | some es => vector tlsWriteUint16 (es.flatMap Extension.bytes)

def Hello.body (h : Hello) : List UInt8 :=
  [h.version.1, h.version.2] ++ h.random.val ++ vector uint8 h.session ++ vector tlsWriteUint16 h.suites ++
    vector uint8 h.compression ++ h.extensionBytes

/-- The handshake message. -/
def Hello.message (h : Hello) : List UInt8 := 0x01 :: vector tlsWriteUint24 h.body

/-- A `ServerNameList` of one host name. -/
def serverNames (host : CStr) : List UInt8 :=
  vector tlsWriteUint16 (0x00 :: vector tlsWriteUint16 (host.map Subtype.val))

/-- The message is a ClientHello, and it has a `server_name` extension for this host. -/
def CarriesHost (message : List UInt8) (host : CStr) : Prop :=
  ∃ h : Hello, h.message = message ∧ ∃ es ∈ h.extensions, ∃ e ∈ es, e.type = 0 ∧ e.data.val = serverNames host

/-! ## Reading a message -/

lemma prefixFree_uint8 : PrefixFree fun n : { n // n < 256 } => uint8 n := by
  apply prefixFree_of_width
  · intro a b h
    have hbyte := congrArg UInt8.toNat (head_eq_of_cons_eq h)
    rw [UInt8.toNat_ofNat_of_lt' a.property, UInt8.toNat_ofNat_of_lt' b.property] at hbyte
    exact Subtype.ext hbyte
  · intro a b
    rfl

lemma prefixFree_uint16 : PrefixFree fun n : { n // n < 65536 } => tlsWriteUint16 n := by
  apply prefixFree_of_width
  · intro a b h
    have hread : ∀ n : { n // n < 65536 },
        tlsReadUint16 ((tlsWriteUint16 n.val).getD 0 0) ((tlsWriteUint16 n.val).getD 1 0) = n.val := fun n =>
      tlsReadUint16_write n.property
    apply Subtype.ext
    rw [← hread a, ← hread b]
    beta_reduce at h
    rw [h]
  · intro a b
    rfl

lemma prefixFree_extension : PrefixFree Extension.bytes := by
  intro e e' r r' h
  simp only [Extension.bytes, append_assoc] at h
  obtain ⟨htype, hrest⟩ := @prefixFree_uint16 ⟨e.type, e.type.isLt⟩ ⟨e'.type, e'.type.isLt⟩ _ _ h
  obtain ⟨hdata, hr⟩ := prefixFree_vector prefixFree_uint16 (fun _ hl => hl) hrest
  refine ⟨?_, hr⟩
  cases e
  cases e'
  rw [Extension.mk.injEq]
  exact ⟨Fin.ext (congrArg Subtype.val htype), hdata⟩

lemma Extension.bytes_ne_nil (e : Extension) : e.bytes ≠ [] := by
  simp [Extension.bytes, tlsWriteUint16]

lemma extensionBytes_inj {h h' : Hello} (heq : h.extensionBytes = h'.extensionBytes) :
    h.extensions = h'.extensions := by
  have hne : ∀ l : List UInt8, vector tlsWriteUint16 l ≠ [] := by
    intro l
    simp [vector, tlsWriteUint16]
  unfold Hello.extensionBytes at heq
  cases hes : h.extensions with
  | none =>
    cases hes' : h'.extensions with
    | none => rfl
    | some es' =>
      rw [hes, hes'] at heq
      exact absurd heq.symm (hne _)
  | some es =>
    cases hes' : h'.extensions with
    | none =>
      rw [hes, hes'] at heq
      exact absurd heq (hne _)
    | some es' =>
      rw [hes, hes'] at heq
      obtain ⟨hflat, -⟩ := @prefixFree_vector _ _ _ prefixFree_uint16 (fun l => l.length < 65536) (fun _ hl => hl)
        ⟨_, h.fits es hes⟩ ⟨_, h'.fits es' hes'⟩ [] [] (by simpa using heq)
      rw [prefixFree_extension.flatMap_inj Extension.bytes_ne_nil (congrArg Subtype.val hflat)]

lemma Hello.extensions_of_message {h h' : Hello} (heq : h.message = h'.message) : h.extensions = h'.extensions := by
  have hbody : h.body = h'.body := by
    have htail := (cons.inj heq).2
    exact (append_inj htail rfl).2
  simp only [Hello.body, append_assoc] at hbody
  obtain ⟨-, hrest⟩ := append_inj hbody rfl
  obtain ⟨-, hrest⟩ := append_inj hrest (h.random.property.trans h'.random.property.symm)
  obtain ⟨-, hrest⟩ := prefixFree_vector prefixFree_uint8 (fun l hl => by omega) hrest
  obtain ⟨-, hrest⟩ := prefixFree_vector prefixFree_uint16 (fun l hl => by omega) hrest
  obtain ⟨-, hrest⟩ := prefixFree_vector prefixFree_uint8 (fun l hl => by omega) hrest
  exact extensionBytes_inj hrest

/-! ## The message that is built -/

lemma patch_front {b c bytes : List UInt8} (hlen : b.length = bytes.length) : patch (b ++ c) 0 bytes = bytes ++ c := by
  rw [patch, take_zero, nil_append, Nat.zero_add, ← hlen, drop_left]

lemma patch_append {a c bytes : List UInt8} {off k : Nat} (hoff : off = a.length + k) :
    patch (a ++ c) off bytes = a ++ patch c k bytes := by
  subst hoff
  unfold patch
  rw [take_length_add_append, Nat.add_assoc, drop_length_add_append, append_assoc, append_assoc,
    append_assoc]

lemma length_patch {buf bytes : List UInt8} {off : Nat} (h : off + bytes.length ≤ buf.length) :
    (patch buf off bytes).length = buf.length := by
  simp only [patch, length_append, length_take, length_drop]
  omega

section Built

variable (random session : List UInt8) (host : CStr)

/-- From the version to the compression methods. -/
def helloStart : List UInt8 :=
  [0x03, 0x03] ++ random ++ [32] ++ session ++ tlsWriteUint16 2 ++ tlsWriteUint16 0x003D ++ [1, 0x00]

/-- What stands behind the three lengths of the extension block. -/
def sniBody : List UInt8 :=
  [0x00] ++ tlsWriteUint16 (host.length + 3) ++ [0x00] ++ tlsWriteUint16 host.length ++ host.map Subtype.val

/-- The same, with the last two bytes overwritten. -/
def sniData : List UInt8 := patch (sniBody host) (host.length + 4) (tlsWriteUint16 (host.length + 84))

lemma length_sniBody : (sniBody host).length = host.length + 6 := by
  simp [sniBody, tlsWriteUint16]

lemma length_sniData : (sniData host).length = host.length + 6 := by
  rw [sniData, length_patch, length_sniBody]
  rw [length_sniBody]
  show host.length + 4 + 2 ≤ host.length + 6
  omega

variable {random session}

lemma length_helloStart (hr : random.length = 32) (hs : session.length = 32) :
    (helloStart random session).length = 73 := by
  simp [helloStart, tlsWriteUint16, hr, hs]

/-- `ch` before the lengths are filled in. -/
def helloDraft (random session : List UInt8) (host : CStr) : List UInt8 :=
  [0x01] ++ (tlsWriteUint24 0 ++ (helloStart random session ++
    (tlsWriteUint16 0 ++ (tlsWriteUint16 0 ++ (tlsWriteUint16 0 ++
    sniBody host)))))

lemma length_helloDraft (hr : random.length = 32) (hs : session.length = 32) :
    (helloDraft random session host).length = host.length + 89 := by
  have h24 : (tlsWriteUint24 0).length = 3 := rfl
  have h16 : (tlsWriteUint16 0).length = 2 := rfl
  simp only [helloDraft, length_append, length_helloStart hr hs, length_sniBody, h24, h16, length_singleton]
  omega

lemma clientHello_patches (hr : random.length = 32) (hs : session.length = 32) : clientHello random session host =
      patch (patch (patch (patch (patch (helloDraft random session host) 81 (tlsWriteUint16 (host.length + 6)))
        79 (tlsWriteUint16 (host.length + 8))) 77 (tlsWriteUint16 (host.length + 10))) 1
        (tlsWriteUint24 (host.length + 85)))
        (host.length + 87) (tlsWriteUint16 (host.length + 84)) := by
  have hdraft : [0x01] ++ tlsWriteUint24 0 ++ [0x03, 0x03] ++ random ++ [32] ++ session ++ tlsWriteUint16 2 ++
      tlsWriteUint16 0x003D ++ [1, 0x00] ++ tlsWriteUint16 0 ++ tlsWriteUint16 0 ++ tlsWriteUint16 0 ++ [0x00] ++
      tlsWriteUint16 (host.length + 3) ++ [0x00] ++ tlsWriteUint16 host.length ++ host.map Subtype.val =
      helloDraft random session host := by
    simp only [helloDraft, helloStart, sniBody, append_assoc]
  have hext : ([0x01] ++ tlsWriteUint24 0 ++ [0x03, 0x03] ++ random ++ [32] ++ session ++ tlsWriteUint16 2 ++
      tlsWriteUint16 0x003D ++ [1, 0x00]).length = 77 := by
    simp [tlsWriteUint16, tlsWriteUint24, hr, hs]
  have h16 : (tlsWriteUint16 0).length = 2 := rfl
  unfold clientHello
  dsimp only
  rw [hdraft, length_helloDraft host hr hs, length_append, length_append, hext, h16]
  congr 2

lemma clientHello_eq (hr : random.length = 32) (hs : session.length = 32) : clientHello random session host =
      [0x01] ++ (tlsWriteUint24 (host.length + 85) ++
        (helloStart random session ++ (tlsWriteUint16 (host.length + 10) ++
        (tlsWriteUint16 (host.length + 8) ++ (tlsWriteUint16 (host.length + 6) ++ sniData host))))) := by
  have hstart := length_helloStart hr hs
  have h77 : ∀ {c bytes : List UInt8} {off k : Nat}, off = 77 + k →
      patch ([0x01] ++ (tlsWriteUint24 0 ++ (helloStart random session ++ c))) off bytes =
        [0x01] ++ (tlsWriteUint24 0 ++ (helloStart random session ++ patch c k bytes)) := by
    intro c bytes off k hoff
    rw [patch_append (k := 76 + k) (by simp; omega), patch_append (k := 73 + k) (by show _ = 3 + _; omega),
      patch_append (k := k) (by omega)]
  have h2 : ∀ {v : Nat} {c bytes : List UInt8} {k : Nat},
      patch (tlsWriteUint16 v ++ c) (2 + k) bytes = tlsWriteUint16 v ++ patch c k bytes := by
    intro v c bytes k
    exact patch_append rfl
  have h0 : ∀ {v w : Nat} {c : List UInt8},
      patch (tlsWriteUint16 v ++ c) 0 (tlsWriteUint16 w) = tlsWriteUint16 w ++ c := by
    intro v w c
    exact patch_front rfl
  have h1 : ∀ {v w : Nat} {c : List UInt8},
      patch ([0x01] ++ (tlsWriteUint24 v ++ c)) 1 (tlsWriteUint24 w) = [0x01] ++ (tlsWriteUint24 w ++ c) := by
    intro v w c
    exact (patch_append (k := 0) rfl).trans (congrArg _ (patch_front rfl))
  rw [clientHello_patches host hr hs, helloDraft, h77 (k := 2 + (2 + 0)) rfl, h2, h2, h0, h77 (k := 2 + 0) rfl, h2, h0,
    h77 (k := 0) rfl, h0, h1]
  -- the last patch is behind everything else
  rw [patch_append (k := host.length + 86) (by simp; omega), patch_append (k := host.length + 83)
    (by show _ = 3 + _; omega),
    patch_append (k := 2 + (2 + (2 + (host.length + 4)))) (by omega), h2, h2, h2]
  rfl

lemma sniType_lt {host : CStr} (h : host.length ≤ 127) : host.length + 8 < 65536 := by omega

lemma length_sniData_lt {host : CStr} (h : host.length ≤ 127) : (sniData host).length < 65536 := by
  rw [length_sniData]
  omega

/-- What is sent in the place of a `server_name` extension: its type is `hlen+8`. -/
def sentExtension (host : CStr) (h : host.length ≤ 127) : Extension :=
  ⟨⟨host.length + 8, sniType_lt h⟩, ⟨sniData host, length_sniData_lt h⟩⟩

lemma sentExtension_fits {host : CStr} (h : host.length ≤ 127) :
    ∀ es ∈ some [sentExtension host h], (es.flatMap Extension.bytes).length < 65536 := by
  rintro es ⟨⟩
  have h16 : ∀ v, (tlsWriteUint16 v).length = 2 := fun _ => rfl
  simp only [flatMap_singleton, sentExtension, Extension.bytes, vector, length_append, h16, length_sniData]
  omega

lemma sentSuites_ok : 2 ≤ [(0x00 : UInt8), 0x3D].length ∧ [(0x00 : UInt8), 0x3D].length ≤ 65534 ∧
    [(0x00 : UInt8), 0x3D].length % 2 = 0 := by decide

lemma sentCompression_ok : 1 ≤ [(0x00 : UInt8)].length ∧ [(0x00 : UInt8)].length ≤ 255 := by decide

/-- The same, read as the grammar has it. -/
def sentHello (random session : { l : List UInt8 // l.length = 32 }) (host : CStr) (h : host.length ≤ 127) : Hello where
  version := (3, 3)
  random := random
  session := ⟨session, Nat.le_of_eq session.property⟩
  suites := ⟨[0x00, 0x3D], sentSuites_ok⟩
  compression := ⟨[0x00], sentCompression_ok⟩
  extensions := some [sentExtension host h]
  fits := sentExtension_fits h

end Built

/-- The message is a ClientHello: every length is that of what it encloses. -/
lemma sentHello_message (random session : { l : List UInt8 // l.length = 32 }) (host : CStr) (h : host.length ≤ 127) :
    (sentHello random session host h).message = clientHello random session host := by
  have h16 : ∀ v, (tlsWriteUint16 v).length = 2 := fun _ => rfl
  have hdata : vector tlsWriteUint16 (sniData host) = tlsWriteUint16 (host.length + 6) ++ sniData host := by
    rw [vector, length_sniData]
  have hext : (sentHello random session host h).extensionBytes =
      tlsWriteUint16 (host.length + 10) ++
        (tlsWriteUint16 (host.length + 8) ++ (tlsWriteUint16 (host.length + 6) ++ sniData host)) := by
    show vector tlsWriteUint16 ((tlsWriteUint16 (host.length + 8) ++ vector tlsWriteUint16 (sniData host)) ++ []) = _
    have hlen : (tlsWriteUint16 (host.length + 8) ++
        (tlsWriteUint16 (host.length + 6) ++ sniData host)).length = host.length + 10 := by
      simp only [length_append, h16, length_sniData]
      omega
    rw [append_nil, hdata, vector, hlen]
  have hbody : (sentHello random session host h).body = helloStart random session ++
      (sentHello random session host h).extensionBytes := by
    have hsession : vector uint8 session.val = [32] ++ session.val := by
      rw [vector, session.property]
      rfl
    show [3, 3] ++ random.val ++ vector uint8 session.val ++ vector tlsWriteUint16 [0x00, 0x3D] ++
      vector uint8 [0x00] ++ _ = _
    rw [hsession]
    simp only [helloStart, append_assoc]
    rfl
  have hlen : (sentHello random session host h).body.length = host.length + 85 := by
    rw [hbody, hext]
    simp only [length_append, h16, length_sniData, length_helloStart random.property session.property]
    omega
  rw [Hello.message, vector, hlen, hbody, hext, clientHello_eq host random.property session.property]
  rfl

/-! ## The host name -/

/-- There is one extension, and its type is not that of a server name. -/
lemma not_carriesHost (random session : { l : List UInt8 // l.length = 32 }) {host name : CStr}
    (h : host.length ≤ 127) :
    ¬ CarriesHost (clientHello random session host) name := by
  rintro ⟨hello, hmessage, es, hes, e, he, htype, -⟩
  rw [← sentHello_message random session host h] at hmessage
  have hone : es = [sentExtension host h] :=
    Option.some.inj (hes.symm.trans (Hello.extensions_of_message hmessage))
  rw [hone, mem_singleton] at he
  rw [he] at htype
  exact absurd (congrArg Fin.val htype) (Nat.succ_ne_zero _)

/-- The ClientHello never carries the host name. -/
theorem clientHello_never (random session : { l : List UInt8 // l.length = 32 }) (host : CStr) (_hpos : 1 ≤ host.length)
    (h : host.length ≤ 127) : ¬ CarriesHost (clientHello random session host) host :=
  not_carriesHost random session h

/-- The randoms of a run that only has zeros. -/
def zeroRandom : { l : List UInt8 // l.length = 32 } := ⟨replicate 32 0, length_replicate⟩

theorem clientHello_never_localhost :
    ¬ CarriesHost (clientHello zeroRandom zeroRandom (cstr "localhost")) (cstr "localhost") :=
  clientHello_never zeroRandom zeroRandom (cstr "localhost") (by decide) (by decide)

/-- The name that the client connects to: the extension has type 19, and its last two bytes, `om`,
are a length. -/
theorem clientHello_discord :
    ¬ CarriesHost (clientHello zeroRandom zeroRandom (cstr "discord.com")) (cstr "discord.com") ∧
    ((clientHello zeroRandom zeroRandom (cstr "discord.com")).drop 77).take 4 = [0, 21, 0, 19] ∧
    (clientHello zeroRandom zeroRandom (cstr "discord.com")).drop 89 = (cstr "discord.c").map Subtype.val ++ [0, 95] :=
  ⟨not_carriesHost zeroRandom zeroRandom (by decide), by decide, by decide⟩

end PigOS.Crypto
