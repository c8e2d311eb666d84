import PigOS.Crypto.Correctness.ByteOrder
import PigOS.Crypto.Correctness.DerTree

/-!
# `Crypto.Correctness.X509Key` — which keys does `x509_parse_cert` read?

DER writes an octet 0 before a number whose first octet is 128 or more. `x509_parse_cert` cuts the
modulus to 256 octets before it drops that octet: of the 257 octets of a modulus of 2048 bits it
keeps 255. From an exponent it does not drop the octet at all.
-/

namespace PigOS.Crypto

open PreOrder List

variable {x : UInt8} {xs bytes : List UInt8} {p : Nat} {bits : Asn1Node} {cert : X509Cert} {bytes' content : List UInt8}

/-! ## Integers -/

/-- The octets of a number, most significant first and without leading zeros. -/
def magnitude (n : Nat) : List UInt8 := (Nat.digits 256 n).reverse.map UInt8.ofNat

/-- The content of an INTEGER that is not negative. -/
def integerOctets (n : Nat) : List UInt8 :=
  match magnitude n with
  | [] => [0]
  | x :: xs => if x < 0x80 then x :: xs else 0 :: x :: xs

lemma bigEndian_magnitude (n : Nat) : bigEndian (magnitude n) = n := by
  have hbytes : (magnitude n).map UInt8.toNat = (Nat.digits 256 n).reverse := by
    rw [magnitude, List.map_map, map_congr_left (g := id), map_id]
    intro d hd
    exact UInt8.toNat_ofNat_of_lt (Nat.digits_lt_base (by decide) (mem_reverse.mp hd))
  rw [bigEndian_eq, hbytes, reverse_reverse, Nat.ofDigits_digits]

variable {n : Nat} {k : Nat}

lemma length_magnitude_le_iff : (magnitude n).length ≤ k ↔ n < 256 ^ k := by
  rw [magnitude, length_map, length_reverse]
  exact Nat.digits_length_le_iff (by decide) n

/-- The first octet is below 128. -/
def TopClear (n : Nat) : Prop := ∃ k, 256 ^ k ≤ n ∧ n < 128 * 256 ^ k

lemma magnitude_cons (hn : n ≠ 0) :
    ∃ x xs, magnitude n = x :: xs ∧ 1 ≤ x.toNat ∧ x.toNat * 256 ^ xs.length ≤ n ∧
      n < (x.toNat + 1) * 256 ^ xs.length := by
  cases hm : magnitude n with
  | nil =>
    have hval := bigEndian_magnitude n
    rw [hm] at hval
    exact absurd hval.symm hn
  | cons x xs =>
    have hval := bigEndian_magnitude n
    rw [hm, bigEndian] at hval
    have hlt := bigEndian_lt xs
    have hsucc : (x.toNat + 1) * 256 ^ xs.length = x.toNat * 256 ^ xs.length + 256 ^ xs.length := by ring
    refine ⟨x, xs, rfl, ?_, by omega, by omega⟩
    -- a first octet 0 would mean that one octet less is enough
    by_contra hzero
    have hle : (magnitude n).length ≤ xs.length := by
      rw [length_magnitude_le_iff, ← hval, Nat.lt_one_iff.mp (Nat.not_le.mp hzero), zero_mul, zero_add]
      exact hlt
    rw [hm, length_cons] at hle
    omega

lemma topClear_iff (hx : 1 ≤ x.toNat) (hlow : x.toNat * 256 ^ xs.length ≤ n)
    (hhigh : n < (x.toNat + 1) * 256 ^ xs.length) : TopClear n ↔ x.toNat < 128 := by
  have hone : 256 ^ xs.length ≤ x.toNat * 256 ^ xs.length := Nat.le_mul_of_pos_left _ hx
  constructor
  · rintro ⟨k, hk, hk'⟩
    have hbyte := x.toNat_lt
    have hnext : n < 256 ^ (xs.length + 1) := by
      calc n < (x.toNat + 1) * 256 ^ xs.length := hhigh
        _ ≤ 256 * 256 ^ xs.length := Nat.mul_le_mul_right _ (by omega)
        _ = 256 ^ (xs.length + 1) := by rw [pow_succ, mul_comm]
    have hnext' : n < 256 ^ (k + 1) := by
      calc n < 128 * 256 ^ k := hk'
        _ ≤ 256 * 256 ^ k := Nat.mul_le_mul_right _ (by decide)
        _ = 256 ^ (k + 1) := by rw [pow_succ, mul_comm]
    have hle := (Nat.pow_lt_pow_iff_right (by decide : 1 < 256)).mp (Nat.lt_of_le_of_lt hk hnext)
    have hge := (Nat.pow_lt_pow_iff_right (by decide : 1 < 256)).mp
      (Nat.lt_of_le_of_lt (Nat.le_trans hone hlow) hnext')
    obtain rfl : k = xs.length := by omega
    exact Nat.lt_of_mul_lt_mul_right (Nat.lt_of_le_of_lt hlow hk')
  · intro hlt
    refine ⟨xs.length, Nat.le_trans hone hlow, Nat.lt_of_lt_of_le hhigh (Nat.mul_le_mul_right _ (by omega))⟩

lemma not_topClear_zero : ¬TopClear 0 := by
  rintro ⟨k, hk, -⟩
  exact absurd hk (Nat.not_le.mpr (Nat.pow_pos (by decide)))

lemma integerOctets_of_topClear (h : TopClear n) : integerOctets n = magnitude n := by
  have hn : n ≠ 0 := by
    rintro rfl
    exact not_topClear_zero h
  obtain ⟨x, xs, hm, hx, hlow, hhigh⟩ := magnitude_cons hn
  have hlt : x < 0x80 := UInt8.lt_iff_toNat_lt.mpr ((topClear_iff hx hlow hhigh).mp h)
  rw [integerOctets, hm]
  exact if_pos hlt

lemma integerOctets_of_not_topClear (h : ¬TopClear n) : integerOctets n = 0 :: magnitude n := by
  by_cases hn : n = 0
  · rw [hn]
    rfl
  · obtain ⟨x, xs, hm, hx, hlow, hhigh⟩ := magnitude_cons hn
    have hlt : ¬x < 0x80 := fun hlt => h ((topClear_iff hx hlow hhigh).mpr (UInt8.lt_iff_toNat_lt.mp hlt))
    rw [integerOctets, hm]
    exact if_neg hlt

lemma length_integerOctets_le (h : n < 256 ^ k) : (integerOctets n).length ≤ k + 1 := by
  have hle := length_magnitude_le_iff.mpr h
  by_cases htop : TopClear n
  · rw [integerOctets_of_topClear htop]
    omega
  · rw [integerOctets_of_not_topClear htop, length_cons]
    omega

lemma two_pow_2048 : (2 : Nat) ^ 2048 = 256 ^ 256 := by
  have hexp : 2048 = 8 * 256 := rfl
  have hbase : 2 ^ 8 = 256 := rfl
  rw [hexp, pow_mul, hbase]

lemma modulus_long_iff (hn : n < 2 ^ 2048) : ¬TopClear n ∧ 255 < (magnitude n).length ↔ ¬n < 2 ^ 2047 := by
  have hbits : (2 : Nat) ^ 2047 = 128 * 256 ^ 255 := by
    have hexp : 2047 = 7 + 8 * 255 := rfl
    have htop : 2 ^ 7 = 128 := rfl
    have hbase : 2 ^ 8 = 256 := rfl
    rw [hexp, pow_add, pow_mul, htop, hbase]
  have hlen : 255 < (magnitude n).length ↔ 256 ^ 255 ≤ n := by
    rw [← Nat.not_le, length_magnitude_le_iff, Nat.not_lt]
  rw [hbits, hlen]
  rw [two_pow_2048] at hn
  constructor
  · rintro ⟨htop, hge⟩ hlt
    exact htop ⟨255, hge, hlt⟩
  · intro hge
    refine ⟨?_, Nat.le_trans (Nat.le_mul_of_pos_left _ (by decide)) (Nat.not_lt.mp hge)⟩
    rintro ⟨k, hk, hk'⟩
    have hk256 := (Nat.pow_lt_pow_iff_right (by decide : 1 < 256)).mp (Nat.lt_of_le_of_lt hk hn)
    have hpow : 256 ^ k ≤ 256 ^ 255 := Nat.pow_le_pow_right (by decide) (by omega)
    exact hge (Nat.lt_of_lt_of_le hk' (Nat.mul_le_mul_left 128 hpow))

/-! ## Copies of the content -/

section
variable {mem : Nat → UInt8} {m : Asn1Node}

lemma bytesAt_of_holds (h : Holds mem p bytes) (hk : k ≤ bytes.length) : bytesAt mem p k = bytes.take k := by
  refine ext_getElem ?_ (fun i hi hi' => ?_)
  · rw [bytesAt, span, length_map, length_map, length_range, length_take, Nat.min_eq_left hk]
  · rw [length_take] at hi'
    have hbyte := h i (by omega)
    rw [asBuffer, getD_eq_getElem _ _ (by omega)] at hbyte
    simp only [bytesAt, span, getElem_map, getElem_range, getElem_take]
    exact hbyte

lemma take_copyTo (h : Holds mem p bytes) (out : List UInt8) (max : Nat) :
    (copyTo out (bytesAt mem p (min max bytes.length))).take (min max bytes.length) = bytes.take max := by
  rw [bytesAt_of_holds h (Nat.min_le_right _ _), ← take_eq_take_min, ← length_take]
  exact take_left ..

lemma Holds.tail (h : Holds mem p (x :: xs)) : mem p = x ∧ Holds mem (p + 1) xs := by
  have hparts := Holds.append (show Holds mem p ([x] ++ xs) from h)
  exact ⟨hparts.1 0 Nat.one_pos, hparts.2⟩

/-- The certificate holds these octets for the modulus. -/
def ModulusIs (cert : X509Cert) (bytes : List UInt8) : Prop :=
  cert.nlen = bytes.length ∧ cert.n.take cert.nlen = bytes

/-- The certificate holds these octets for the exponent. -/
def ExponentIs (cert : X509Cert) (bytes : List UInt8) : Prop :=
  cert.elen = bytes.length ∧ cert.e.take cert.elen = bytes

lemma ModulusIs.iff (h : ModulusIs cert bytes) : ModulusIs cert bytes' ↔ bytes = bytes' :=
  ⟨fun h' => h.2.symm.trans h'.2, fun heq => heq ▸ h⟩

lemma ExponentIs.iff (h : ExponentIs cert bytes) : ExponentIs cert bytes' ↔ bytes = bytes' :=
  ⟨fun h' => h.2.symm.trans h'.2, fun heq => heq ▸ h⟩

/-- An INTEGER with this content. -/
structure IntegerAt (mem : Nat → UInt8) (n : Asn1Node) (content : List UInt8) : Prop where
  tag : n.tag = 0x02
  len : n.len = content.length
  holds : Holds mem n.val content

lemma readModulus_zero (cert : X509Cert) (h : IntegerAt mem m (0 :: xs)) :
    ModulusIs (readModulus mem cert (some m)).1 (xs.take 255) := by
  obtain ⟨hfirst, hrest⟩ := h.holds.tail
  have hlen : m.len = xs.length + 1 := h.len
  have hcount : (if (if m.len < 256 then m.len else 256) - 1 < 256 then (if m.len < 256 then m.len else 256) - 1
      else 256) = min 255 xs.length := by
    rw [hlen]
    split <;> split at * <;> omega
  rw [readModulus, if_neg (not_not.mpr h.tag)]
  rw [if_pos ⟨by omega, hfirst⟩]
  rw [hcount]
  exact ⟨(length_take ..).symm, take_copyTo hrest cert.n 255⟩

lemma readModulus_ne (cert : X509Cert) (hx : x ≠ 0)
    (h : IntegerAt mem m (x :: xs)) : ModulusIs (readModulus mem cert (some m)).1 ((x :: xs).take 256) := by
  obtain ⟨hfirst, -⟩ := h.holds.tail
  have hcount : (if m.len < 256 then m.len else 256) = min 256 (x :: xs).length := by
    rw [h.len]
    split <;> omega
  rw [readModulus, if_neg (not_not.mpr h.tag)]
  rw [if_neg (fun hzero => hx (hfirst.symm.trans hzero.2)), hcount]
  exact ⟨(length_take ..).symm, take_copyTo h.holds cert.n 256⟩

lemma readExponent_is (cert : X509Cert) {x : Asn1Node} (h : IntegerAt mem x content) :
    ExponentIs (readExponent mem cert (some x)).1 (content.take 8) := by
  have hcount : (if x.len < 8 then x.len else 8) = min 8 content.length := by
    rw [h.len]
    split <;> omega
  rw [readExponent, if_neg (not_not.mpr h.tag), hcount]
  exact ⟨(length_take ..).symm, take_copyTo h.holds cert.e 8⟩

/-- **The modulus.** -/
theorem readModulus_right_iff (cert : X509Cert) {n : Nat} (hpos : 0 < n) (hn : n < 2 ^ 2048)
    (h : IntegerAt mem m (integerOctets n)) :
    ModulusIs (readModulus mem cert (some m)).1 (magnitude n) ↔ n < 2 ^ 2047 := by
  have hlen : (magnitude n).length ≤ 256 := length_magnitude_le_iff.mpr (Nat.lt_of_lt_of_eq hn two_pow_2048)
  have hlong := modulus_long_iff hn
  by_cases htop : TopClear n
  · obtain ⟨x, xs, hm, hx, -⟩ := magnitude_cons (Nat.ne_of_gt hpos)
    rw [integerOctets_of_topClear htop, hm] at h
    have hne : x ≠ 0 := by
      rintro rfl
      exact absurd hx (by decide)
    rw [(readModulus_ne cert hne h).iff, ← hm, take_eq_self_iff]
    exact iff_of_true hlen (not_not.mp (fun hge => (hlong.mpr hge).1 htop))
  · rw [integerOctets_of_not_topClear htop] at h
    rw [(readModulus_zero cert h).iff, take_eq_self_iff, ← Nat.not_lt]
    exact ⟨fun hle => not_not.mp (fun hge => hle (hlong.mpr hge).2), fun hlt hlong' => hlong.mp ⟨htop, hlong'⟩ hlt⟩

/-- **The exponent.** -/
theorem readExponent_right_iff (cert : X509Cert) {x : Asn1Node} {e : Nat} (he : e < 2 ^ 64)
    (h : IntegerAt mem x (integerOctets e)) :
    ExponentIs (readExponent mem cert (some x)).1 (magnitude e) ↔ TopClear e := by
  have hlen : (magnitude e).length ≤ 8 := length_magnitude_le_iff.mpr he
  rw [(readExponent_is cert h).iff]
  by_cases htop : TopClear e
  · rw [integerOctets_of_topClear htop, take_eq_self_iff]
    exact iff_of_true hlen htop
  · rw [integerOctets_of_not_topClear htop, take_succ_cons]
    refine iff_of_false (fun heq => ?_) htop
    -- no magnitude starts with a zero
    have hne : e ≠ 0 := by
      rintro rfl
      exact nomatch heq
    obtain ⟨y, ys, hm, hy, -⟩ := magnitude_cons hne
    rw [hm] at heq
    obtain ⟨rfl, -⟩ := cons.inj heq
    exact absurd hy (by decide)

end

/-! ## The key -/

/-- An RSA key as it stands in a certificate. -/
def rsaPublicKey (n e : Nat) : Der := .constr ⟨0, 16⟩ [.prim ⟨0, 2⟩ (integerOctets n), .prim ⟨0, 2⟩ (integerOctets e)]

lemma length_lengthOctets_le (h : n < 256 ^ 2) : (lengthOctets n).length ≤ 3 := by
  unfold lengthOctets
  split
  · exact Nat.succ_le_succ (Nat.zero_le 2)
  · have hle := (Nat.digits_length_le_iff (by decide : 1 < 256) n).mpr h
    rw [length_cons, length_map, length_reverse]
    omega

/-- The header of a value with a low tag number and a content of less than 64 KiB. -/
lemma Der.length_encode_le {d : Der} (hlow : d.ident.number < 31) (hlen : d.content.length < 256 ^ 2) :
    d.encode.length ≤ d.content.length + 4 := by
  have hrest : d.headerRest = lengthOctets d.content.length := by
    rw [headerRest, Ident.octets, if_pos hlow]
    rfl
  have hle := length_lengthOctets_le hlen
  rw [length_encode, headerLen, hrest]
  omega

lemma table_pair {a b : Der} (ha : a.items = []) (hb : b.items = []) (id : Ident) (pos room : Nat) :
    ((Der.constr id [a, b]).tree pos room).table asn1Entry 0 =
      let p := pos + (Der.constr id [a, b]).headerLen
      let rem := (encodeItems [a, b]).length
      [asn1Entry (0, (Der.constr id [a, b]).tree pos room), asn1Entry (1, a.tree p rem),
        asn1Entry (2, b.tree (p + a.encode.length) (rem - a.encode.length))] := by
  have hleaf : ∀ d : Der, d.items = [] → ∀ pos room x,
      (d.tree pos room).table asn1Entry x = [asn1Entry (x, d.tree pos room)] ∧
      (d.tree pos room).size = 1 := by
    intro d hd pos room x
    have hchildren := (d.children_tree pos room).mpr hd
    rw [RoseTree.table_eq, hchildren, RoseTree.tables_nil]
    exact ⟨rfl, (RoseTree.size_eq_one_iff _).mpr hchildren⟩
  have hchildren : ((Der.constr id [a, b]).tree pos room).children =
      itemTrees [a, b] (pos + (Der.constr id [a, b]).headerLen) (encodeItems [a, b]).length := by
    rw [Der.tree_eq]
    rfl
  rw [RoseTree.table_eq, hchildren, itemTrees, itemTrees, itemTrees, RoseTree.tables_cons, RoseTree.tables_cons,
    RoseTree.tables_nil, (hleaf a ha _ _ _).1, (hleaf a ha _ _ 0).2, (hleaf b hb _ _ _).1]
  rfl

variable {mem : Nat → UInt8}

lemma integerAt_entry {pos : Nat} (h : Holds mem pos (Der.prim ⟨0, 2⟩ content).encode) (i room : Nat) :
    IntegerAt mem (asn1Entry (i, (Der.prim ⟨0, 2⟩ content).tree pos room)) content := by
  have hval : (asn1Entry (i, (Der.prim ⟨0, 2⟩ content).tree pos room)).val =
      pos + (Der.prim ⟨0, 2⟩ content).headerLen := by
    show ((Der.prim ⟨0, 2⟩ content).tree pos room).label.val = _
    rw [Der.label_tree, Der.val_tlv]
  refine ⟨?_, ?_, hval ▸ h.content⟩
  · show ((Der.prim ⟨0, 2⟩ content).tree pos room).label.tag = 0x02
    rw [Der.label_tree]
    rfl
  · show ((Der.prim ⟨0, 2⟩ content).tree pos room).label.len = content.length
    rw [Der.label_tree]
    rfl

section
variable {n e : Nat} (hn : n < 2 ^ 2048) (he : e < 2 ^ 64)
include hn he

lemma length_integers_le : (integerOctets n).length ≤ 257 ∧ (integerOctets e).length ≤ 9 :=
  ⟨length_integerOctets_le (Nat.lt_of_lt_of_eq hn two_pow_2048), length_integerOctets_le (k := 8) he⟩

lemma length_content_le : (rsaPublicKey n e).content.length ≤ 274 := by
  obtain ⟨hln, hle⟩ := length_integers_le hn he
  have hmod := Der.length_encode_le (d := .prim ⟨0, 2⟩ (integerOctets n)) (show 2 < 31 by decide)
    (Nat.lt_of_le_of_lt hln (by decide))
  have hexp := Der.length_encode_le (d := .prim ⟨0, 2⟩ (integerOctets e)) (show 2 < 31 by decide)
    (Nat.lt_of_le_of_lt hle (by decide))
  have hmod' : (Der.prim ⟨0, 2⟩ (integerOctets n)).content.length = (integerOctets n).length := rfl
  have hexp' : (Der.prim ⟨0, 2⟩ (integerOctets e)).content.length = (integerOctets e).length := rfl
  show (encodeItems [_, _]).length ≤ 274
  rw [encodeItems, encodeItems, encodeItems, length_append, length_append, length_nil]
  omega

lemma length_key_lt : (rsaPublicKey n e).encode.length < 2 ^ 32 := by
  have hcontent := length_content_le hn he
  have hlen := Der.length_encode_le (d := rsaPublicKey n e) (show 16 < 31 by decide)
    (Nat.lt_of_le_of_lt hcontent (by decide))
  omega

lemma headersRead_key : (rsaPublicKey n e).HeadersRead := by
  obtain ⟨hln, hle⟩ := length_integers_le hn he
  have hcontent := length_content_le hn he
  rw [Der.headersRead_iff]
  refine ⟨Der.headerReads_of_low (show 16 < 31 by decide) (by omega), ?_⟩
  have hprim : ∀ bytes : List UInt8, bytes.length < 2 ^ 32 → (Der.prim ⟨0, 2⟩ bytes).HeadersRead := by
    intro bytes hbytes
    rw [Der.headersRead_iff]
    exact ⟨Der.headerReads_of_low (show 2 < 31 by decide) hbytes, fun _ h => absurd h not_mem_nil⟩
  intro c hc
  rcases mem_cons.mp hc with rfl | hc
  · exact hprim _ (by omega)
  · obtain rfl := mem_singleton.mp hc
    exact hprim _ (by omega)

/-- **The two INTEGERs of the key.** -/
theorem asn1Parse_key {mem : Nat → UInt8} {data : Nat} (hholds : Holds mem data (rsaPublicKey n e).encode) :
    ∃ t, asn1Parse mem data (rsaPublicKey n e).encode.length = some (some 0, t) ∧
      (t.node 0).tag = 0x30 ∧ (t.node 0).children = 2 ∧
      t.child (t.node 0) 0 = some (t.node 1) ∧ t.child (t.node 0) 1 = some (t.node 2) ∧
      IntegerAt mem (t.node 1) (integerOctets n) ∧ IntegerAt mem (t.node 2) (integerOctets e) := by
  have hdepth : (rsaPublicKey n e).depth = 1 := by
    rw [rsaPublicKey, Der.depth, depthOf, depthOf, depthOf, Der.depth, Der.depth]
    rfl
  have hsize : (rsaPublicKey n e).elements.length = 3 := by
    rw [rsaPublicKey, Der.elements, elementsOf, elementsOf, elementsOf, Der.elements, Der.elements]
    rfl
  have hat : At mem (rsaPublicKey n e) asn1MaxDepth data (rsaPublicKey n e).encode.length :=
    ⟨hholds, Nat.le_refl _, length_key_lt hn he, hdepth ▸ (by decide)⟩
  obtain ⟨reads, hparse⟩ := asn1Parse_der hat (hsize ▸ (by decide)) (headersRead_key hn he)
  obtain ⟨hmod, hitems⟩ := hat.items.cons
  obtain ⟨hexp, -⟩ := hitems.cons
  have htable : ((rsaPublicKey n e).tree data (rsaPublicKey n e).encode.length).table asn1Entry 0 =
      [asn1Entry (0, (rsaPublicKey n e).tree data (rsaPublicKey n e).encode.length),
        asn1Entry (1, _), asn1Entry (2, _)] :=
    table_pair (a := .prim ⟨0, 2⟩ (integerOctets n)) (b := .prim ⟨0, 2⟩ (integerOctets e)) rfl rfl ⟨0, 16⟩ data _
  have hopens : ((rsaPublicKey n e).tree data (rsaPublicKey n e).encode.length).label.opens = true := by
    rw [Der.label_tree]
    exact (Der.opens_tlv data hat.small hat.fits).2.mpr (cons_ne_nil _ _)
  have hcount : (asn1Entry (0, (rsaPublicKey n e).tree data (rsaPublicKey n e).encode.length)).children = 2 := by
    have hsizes := (rsaPublicKey n e).size_tree data (rsaPublicKey n e).encode.length
    rw [hsize, Der.tree_eq, RoseTree.size_node] at hsizes
    show acceptedFrom 1 ((rsaPublicKey n e).tree data (rsaPublicKey n e).encode.length).children = 2
    rw [Der.tree_eq, RoseTree.children_node, acceptedFrom_eq_length, length_itemTrees]
    · rfl
    · exact fits_itemTrees (Nat.le_refl _) hat.items.small
    · exact hsizes ▸ (by decide)
  have hchild : ∀ i : Nat, i < 2 →
      asn1Child (asn1Entry (0, (rsaPublicKey n e).tree data (rsaPublicKey n e).encode.length)) i = some (0 + 1 + i) :=
    fun i hi => asn1Child_entry hopens (Nat.lt_of_lt_of_eq hi hcount.symm)
  have hroot : ((rsaPublicKey n e).tree data (rsaPublicKey n e).encode.length).label.tag = 0x30 := by
    rw [Der.label_tree]
    rfl
  rw [htable] at hparse
  refine ⟨_, hparse, hroot, hcount, ?_, ?_, integerAt_entry hmod.holds 1 _, integerAt_entry hexp.holds 2 _⟩
  · exact congrArg (Option.map _) (hchild 0 (by decide))
  · exact congrArg (Option.map _) (hchild 1 (by decide))

lemma readKey_der (cert : X509Cert) (hlen : bits.len = (rsaPublicKey n e).encode.length + 1)
    (hholds : Holds mem bits.val (0 :: (rsaPublicKey n e).encode)) :
    ∃ m x reads, IntegerAt mem m (integerOctets n) ∧ IntegerAt mem x (integerOctets e) ∧
      readKey mem cert bits = some ((readExponent mem (readModulus mem cert (some m)).1 (some x)).1, reads) := by
  obtain ⟨t, hparse, htag, hcount, hm, hx, hmod, hexp⟩ := asn1Parse_key hn he hholds.tail.2
  have hpos := (rsaPublicKey n e).two_le_length_encode
  have hpred : pred32 bits.len = (rsaPublicKey n e).encode.length := by
    rw [pred32, if_neg (by omega), hlen, Nat.add_sub_cancel]
  rw [readKey, if_pos (by omega), hpred, hparse]
  dsimp only
  rw [if_pos ⟨htag, hcount ▸ Nat.le_refl 2⟩, hm, hx]
  exact ⟨t.node 1, t.node 2, _, hmod, hexp, rfl⟩

end

/-! ## The certificate -/

/-- The BIT STRING that the lookups of `x509_parse_cert` lead to. -/
def keyNode (mem : Nat → UInt8) (dlen : Nat) : Option Asn1Node :=
  match asn1Parse mem 0 dlen with
  | some (some _, t) =>
    if (t.node 0).tag ≠ 0x30 then none
    else
      (t.child (t.node 0) 0).bind (fun tbs =>
        if tbs.tag ≠ 0x30 then none
        else
          let off : Int := if (t.child tbs 0).any (fun ver => ver.tag = 0xA0) then 1 else 0
          (t.child tbs (6 + off)).bind (fun pubkey =>
            (t.child pubkey 1).bind (fun bits => if bits.tag = 0x03 then some bits else none)))
  | _ => none

/-- The key is the content of the BIT STRING, behind an octet 0 for the number of unused bits. -/
structure KeyAt (mem : Nat → UInt8) (bits : Asn1Node) (n e : Nat) : Prop where
  len : bits.len = (rsaPublicKey n e).encode.length + 1
  holds : Holds mem bits.val (0 :: (rsaPublicKey n e).encode)

lemma readPubkey_bits (mem : Nat → UInt8) {t : Asn1Tree} (cert : X509Cert) {pubkey : Asn1Node}
    (h : t.child pubkey 1 = some bits) (htag : bits.tag = 0x03) :
    readPubkey mem t cert (some pubkey) = readKey mem cert bits := by
  rw [readPubkey, h]
  exact if_pos htag

lemma map_reads (o : Option (X509Cert × List Nat)) (is js : List Nat) :
    (o.map (fun r => (r.1, is ++ r.2))).map (fun r => (some r.1, js ++ r.2)) =
      o.map (fun r => (some r.1, js ++ is ++ r.2)) := by
  cases o with
  | none => rfl
  | some r => exact congrArg some (Prod.ext rfl (append_assoc ..).symm)

/-- Where the lookups lead to a BIT STRING, its key is what is read last. -/
lemma x509ParseCert_of_keyNode {dlen : Nat} (h : keyNode mem dlen = some bits) :
    ∃ cert reads, x509ParseCert mem dlen = (readKey mem cert bits).map (fun r => (some r.1, reads ++ r.2)) := by
  rw [keyNode] at h
  split at h
  · next r t hparse =>
    by_cases hroot : (t.node 0).tag ≠ 0x30
    · rw [if_pos hroot] at h
      exact nomatch h
    · rw [if_neg hroot] at h
      obtain ⟨tbs, htbs, h⟩ := Option.bind_eq_some_iff.mp h
      by_cases htag : tbs.tag ≠ 0x30
      · rw [if_pos htag] at h
        exact nomatch h
      · rw [if_neg htag] at h
        obtain ⟨pubkey, hpubkey, h⟩ := Option.bind_eq_some_iff.mp h
        obtain ⟨node, hnode, h⟩ := Option.bind_eq_some_iff.mp h
        by_cases hbits : node.tag = 0x03
        · rw [if_pos hbits] at h
          obtain rfl := Option.some.inj h
          rw [x509ParseCert, hparse]
          dsimp only
          rw [if_neg hroot, htbs]
          dsimp only
          rw [if_neg htag]
          unfold readCert
          dsimp only at hpubkey ⊢
          generalize (if (t.child tbs 0).any (fun ver => ver.tag = 0xA0) then 1 else 0 : Int) = off at hpubkey ⊢
          rw [hpubkey, readPubkey_bits mem _ hnode hbits, map_reads]
          exact ⟨_, _, rfl⟩
        · rw [if_neg hbits] at h
          exact nomatch h
  · exact nomatch h

/-- **Which keys are read.** The certificate may be anything whose lookups lead to the key. -/
theorem x509ParseCert_key {mem : Nat → UInt8} {dlen : Nat} {bits : Asn1Node} {n e : Nat}
    (hreach : keyNode mem dlen = some bits) (hkey : KeyAt mem bits n e) (hpos : 0 < n) (hn : n < 2 ^ 2048)
    (he : e < 2 ^ 64) : ∃ cert reads, x509ParseCert mem dlen = some (some cert, reads) ∧
      (ModulusIs cert (magnitude n) ↔ n < 2 ^ 2047) ∧
      (ExponentIs cert (magnitude e) ↔ ∃ k, 256 ^ k ≤ e ∧ e < 128 * 256 ^ k) := by
  obtain ⟨cert, reads, hparse⟩ := x509ParseCert_of_keyNode hreach
  obtain ⟨m, x, reads', hm, hx, hread⟩ := readKey_der hn he cert hkey.len hkey.holds
  rw [hread] at hparse
  refine ⟨_, _, hparse, ?_, readExponent_right_iff _ he hx⟩
  -- the exponent is written elsewhere
  have hframe : ∀ bytes, ModulusIs (readExponent mem (readModulus mem cert (some m)).1 (some x)).1 bytes ↔
      ModulusIs (readModulus mem cert (some m)).1 bytes := by
    intro bytes
    rw [readExponent, if_neg (not_not.mpr hx.tag)]
    rfl
  rw [hframe]
  exact readModulus_right_iff cert hpos hn hm

/-- A certificate with elements that have no components in the place of all but the key. -/
def bareCert (n e : Nat) : Der :=
  .constr ⟨0, 16⟩ [.constr ⟨0, 16⟩ (replicate 6 (.prim ⟨0, 5⟩ []) ++
    [.constr ⟨0, 16⟩ [.prim ⟨0, 5⟩ [], .prim ⟨0, 3⟩ (0 :: (rsaPublicKey n e).encode)]])]

lemma holds_of_take {l : List UInt8} (h : (l.drop p).take bytes.length = bytes) : Holds (asBuffer l) p bytes := by
  intro i hi
  rw [asBuffer, asBuffer, getD_eq_getElem?_getD, getD_eq_getElem?_getD, ← getElem?_drop,
    ← getElem?_take_of_lt hi, h]

/-- The modulus 3233 and the exponent 17. -/
theorem x509ParseCert_key_small :
    ∃ cert reads, x509ParseCert (asBuffer (bareCert 3233 17).encode) (bareCert 3233 17).encode.length =
        some (some cert, reads) ∧ ModulusIs cert (magnitude 3233) ∧ ExponentIs cert (magnitude 17) := by
  have hreach : keyNode (asBuffer (bareCert 3233 17).encode) (bareCert 3233 17).encode.length =
      some ⟨0x03, 10, 22, 0, 0, true⟩ := by decide +kernel
  have hkey : KeyAt (asBuffer (bareCert 3233 17).encode) ⟨0x03, 10, 22, 0, 0, true⟩ 3233 17 :=
    ⟨by decide +kernel, holds_of_take (by decide +kernel)⟩
  have hsmall : ∀ k, 12 ≤ k → 3233 < 2 ^ k :=
    fun k hk => Nat.lt_of_lt_of_le (by decide : 3233 < 2 ^ 12) (Nat.pow_le_pow_right (by decide) hk)
  obtain ⟨cert, reads, hparse, hmod, hexp⟩ :=
    x509ParseCert_key hreach hkey (by decide) (hsmall 2048 (by decide)) (by decide)
  exact ⟨cert, reads, hparse, hmod.mpr (hsmall 2047 (by decide)), hexp.mpr ⟨0, by decide, by decide⟩⟩

/-- The modulus `2^2047` and the exponent 128: 255 octets of 256, and an octet too many. -/
theorem x509ParseCert_key_long :
    let der := (bareCert (2 ^ 2047) 128).encode
    keyNode (asBuffer der) der.length = some ⟨0x03, 270, 30, 0, 0, true⟩ ∧
    KeyAt (asBuffer der) ⟨0x03, 270, 30, 0, 0, true⟩ (2 ^ 2047) 128 ∧
    (x509ParseCert (asBuffer der) der.length).map (fun r => r.1.map (fun cert => (cert.nlen, cert.e.take cert.elen))) =
      some (some (255, [0x00, 0x80])) ∧
    (magnitude (2 ^ 2047)).length = 256 ∧ magnitude 128 = [0x80] := by
  intro der
  exact ⟨by decide +kernel, ⟨by decide +kernel, holds_of_take (by decide +kernel)⟩, by decide +kernel, by decide +kernel,
    by decide +kernel⟩

end PigOS.Crypto
