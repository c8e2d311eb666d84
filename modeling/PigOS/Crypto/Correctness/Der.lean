import Mathlib.Data.List.GetD
import Mathlib.Data.Nat.Digits.Lemmas
import PigOS.Crypto.Correctness.Asn1Walk

/-!
# `Crypto.Correctness.Der` — DER encodings

`Der.encode` is the encoding with definite, minimal lengths. The parser takes every identifier to be
a single octet; `Der.HeaderReads` says that it finds the header of an element, as it does for tag
numbers below 31 (`headerReads_of_low`).
-/

namespace PigOS.Crypto

open PreOrder List

variable {d : Der} {mem : Nat → UInt8} {pos room : Nat}

/-- A buffer that starts with some bytes. -/
def asBuffer (bytes : List UInt8) (i : Nat) : UInt8 := bytes.getD i 0

/-! ## Values and encodings -/

/-- The class and the number of a tag. -/
structure Ident where
  cls : Fin 4
  number : Nat

/-- A number in groups of seven bits; all but the last have the high bit set. -/
def base128 (n : Nat) : List UInt8 :=
  (Nat.digits 128 (n / 128)).reverse.map (fun d => UInt8.ofNat (128 + d)) ++ [UInt8.ofNat (n % 128)]

/-- The first identifier octet: class, form, and five bits. -/
def leadOctet (cls : Fin 4) (constructed : Bool) (low : Nat) : UInt8 :=
  UInt8.ofNat (64 * cls.val + (if constructed then 32 else 0) + low)

/-- The identifier octets: a number from 31 on stands in octets of its own. -/
def Ident.octets (id : Ident) (constructed : Bool) : List UInt8 :=
  if id.number < 31 then [leadOctet id.cls constructed id.number]
  else leadOctet id.cls constructed 31 :: base128 id.number

/-- The length octets, as few as possible. -/
def lengthOctets (n : Nat) : List UInt8 :=
  if n < 128 then [UInt8.ofNat n]
  else UInt8.ofNat (128 + (Nat.digits 256 n).length) :: (Nat.digits 256 n).reverse.map UInt8.ofNat

/-- A primitive value with its content, or a constructed one with its components. -/
inductive Der where
  | prim (id : Ident) (content : List UInt8)
  | constr (id : Ident) (items : List Der)

mutual

def Der.encode : Der → List UInt8
  | .prim id content => id.octets false ++ (lengthOctets content.length ++ content)
  | .constr id items => id.octets true ++ (lengthOctets (encodeItems items).length ++ encodeItems items)

def encodeItems : List Der → List UInt8
  | [] => []
  | d :: ds => d.encode ++ encodeItems ds

end

namespace Der

def ident : Der → Ident
  | prim id _ => id
  | constr id _ => id

def constructed : Der → Bool
  | prim _ _ => false
  | constr _ _ => true

/-- The immediate components. -/
def items : Der → List Der
  | prim _ _ => []
  | constr _ items => items

def content : Der → List UInt8
  | prim _ content => content
  | constr _ items => encodeItems items

def lead (d : Der) : UInt8 := leadOctet d.ident.cls d.constructed (min d.ident.number 31)

/-- The octets of the header behind the first one. -/
def headerRest (d : Der) : List UInt8 :=
  (d.ident.octets d.constructed).tail ++ lengthOctets d.content.length

/-- The number of octets of the header. -/
def headerLen (d : Der) : Nat := 1 + d.headerRest.length

/-- `asn1_parse_len`, behind the first octet, finds the length of the content and its start. -/
def HeaderReads (d : Der) : Prop :=
  let l := asn1ParseLen (asBuffer d.headerRest) 0 d.headerRest.length
  l.consumed = d.headerRest.length ∧ l.len = d.content.length

lemma encode_eq (d : Der) : d.encode = d.lead :: (d.headerRest ++ d.content) := by
  have hoctets : ∀ (id : Ident) (c : Bool),
      id.octets c = leadOctet id.cls c (min id.number 31) :: (id.octets c).tail := by
    intro id c
    unfold Ident.octets
    by_cases hlow : id.number < 31
    · rw [if_pos hlow, Nat.min_eq_left (by omega)]
      rfl
    · rw [if_neg hlow, Nat.min_eq_right (by omega)]
      rfl
  cases d with
  | prim id content =>
    rw [encode, hoctets id false, cons_append, ← append_assoc]
    rfl
  | constr id items =>
    rw [encode, hoctets id true, cons_append, ← append_assoc]
    rfl

lemma length_encode (d : Der) : d.encode.length = d.headerLen + d.content.length := by
  rw [encode_eq, length_cons, length_append]
  unfold headerLen
  omega

lemma headerRest_pos (d : Der) : 1 ≤ d.headerRest.length := by
  have hlen : 1 ≤ (lengthOctets d.content.length).length := by
    unfold lengthOctets
    split
    · exact Nat.le_refl 1
    · rw [length_cons]
      omega
  unfold headerRest
  rw [length_append]
  omega

lemma two_le_length_encode (d : Der) : 2 ≤ d.encode.length := by
  have := d.headerRest_pos
  rw [length_encode]
  unfold headerLen
  omega

lemma lead_constructed (d : Der) : d.lead &&& 0x20 ≠ 0 ↔ d.constructed = true := by
  have hbits : ∀ (c : Fin 4) (b : Bool) (low : Fin 32), (leadOctet c b low.val &&& 0x20 ≠ 0) ↔ b = true := by
    decide
  exact hbits d.ident.cls d.constructed ⟨min d.ident.number 31, by omega⟩

end Der

/-! ## Reading length octets -/

lemma le_foldl_octets (ds : List Nat) (v : Nat) : v ≤ ds.foldl (fun v d => v * 256 + d) v := by
  induction ds generalizing v with
  | nil => exact Nat.le_refl v
  | cons d ds ih =>
    have hstep : v ≤ v * 256 + d := by omega
    exact Nat.le_trans hstep (ih _)

/-- The loop of `asn1_parse_len` on octets whose value fits in 32 bits. -/
lemma foldl_octets (mem : Nat → UInt8) (ds : List Nat) {q v : Nat}
    (hmem : ∀ i < ds.length, (mem (q + i)).toNat = ds.getD i 0) (hfit : ds.foldl (fun v d => v * 256 + d) v < 2 ^ 32) :
    (range ds.length).foldl (fun len i => (len * 256 + (mem (q + i)).toNat) % 2 ^ 32) v =
      ds.foldl (fun v d => v * 256 + d) v := by
  induction ds generalizing q v with
  | nil => rfl
  | cons d ds ih =>
    rw [foldl_cons] at hfit ⊢
    have hle := le_foldl_octets ds (v * 256 + d)
    have hfirst : (mem (q + 0)).toNat = d := hmem 0 (Nat.succ_pos _)
    have hstep : (v * 256 + (mem (q + 0)).toNat) % 2 ^ 32 = v * 256 + d := by
      rw [hfirst, Nat.mod_eq_of_lt (by omega)]
    rw [length_cons, range_succ_eq_map, foldl_cons, foldl_map, hstep, ← ih (q := q + 1) _ hfit]
    · simp only [Nat.succ_eq_add_one, Nat.add_assoc, Nat.add_comm 1]
    · intro i hi
      have := hmem (i + 1) (by rw [length_cons]; omega)
      rw [Nat.add_assoc, Nat.add_comm 1 i]
      exact this

lemma foldl_digits (n : Nat) : (Nat.digits 256 n).reverse.foldl (fun v d => v * 256 + d) 0 = n := by
  rw [foldl_reverse]
  have h := Nat.ofDigits_digits 256 n
  rw [Nat.ofDigits_eq_foldr] at h
  simp only [Nat.cast_id, Nat.mul_comm 256, Nat.add_comm] at h ⊢
  exact h

/-- **Length octets are read back.** -/
theorem asn1ParseLen_lengthOctets {n : Nat} (hn : n < 2 ^ 32) :
    let l := asn1ParseLen (asBuffer (lengthOctets n)) 0 (lengthOctets n).length
    l.consumed = (lengthOctets n).length ∧ l.len = n := by
  by_cases hshort : n < 128
  · have hocts : lengthOctets n = [UInt8.ofNat n] := if_pos hshort
    have hval : (UInt8.ofNat n).toNat = n := by
      rw [UInt8.toNat_ofNat']
      omega
    have hlt : UInt8.ofNat n < 0x80 := by
      rw [UInt8.lt_iff_toNat_lt, hval]
      exact hshort
    rw [hocts]
    unfold asn1ParseLen asBuffer
    simp only [length_singleton, getD_cons_zero]
    rw [if_neg (by omega), if_pos hlt]
    exact ⟨rfl, hval⟩
  · have hocts : lengthOctets n =
        UInt8.ofNat (128 + (Nat.digits 256 n).length) :: (Nat.digits 256 n).reverse.map UInt8.ofNat := if_neg hshort
    have hle : (Nat.digits 256 n).length ≤ 4 := (Nat.digits_length_le_iff (by decide) n).mpr hn
    have hlead : ∀ k : Fin 5, ¬ UInt8.ofNat (128 + k.val) < 0x80 ∧
        (UInt8.ofNat (128 + k.val) &&& 0x7F).toNat = k.val := by
      decide
    have hlong := (hlead ⟨(Nat.digits 256 n).length, by omega⟩).1
    have hnb : (UInt8.ofNat (128 + (Nat.digits 256 n).length) &&& 0x7F).toNat = (Nat.digits 256 n).length :=
      (hlead ⟨(Nat.digits 256 n).length, by omega⟩).2
    have hdigit : ∀ i < (Nat.digits 256 n).reverse.length,
        (((Nat.digits 256 n).reverse.map UInt8.ofNat).getD i 0).toNat = (Nat.digits 256 n).reverse.getD i 0 := by
      intro i hi
      have hlt : (Nat.digits 256 n).reverse[i] < 256 :=
        Nat.digits_lt_base (by decide) (mem_reverse.mp (getElem_mem hi))
      rw [getD_eq_getElem?_getD, getD_eq_getElem?_getD, getElem?_map, getElem?_eq_getElem hi,
        Option.map_some, Option.getD_some, Option.getD_some, UInt8.toNat_ofNat', Nat.mod_eq_of_lt hlt]
    have hmem : ∀ i < (Nat.digits 256 n).reverse.length,
        (asBuffer (lengthOctets n) (1 + i)).toNat = (Nat.digits 256 n).reverse.getD i 0 := by
      intro i hi
      unfold asBuffer
      rw [hocts, Nat.add_comm 1 i, getD_cons_succ]
      exact hdigit i hi
    have hfold := foldl_octets (asBuffer (lengthOctets n)) (Nat.digits 256 n).reverse hmem
      (by rw [foldl_digits]; exact hn)
    unfold asBuffer at hfold
    rw [foldl_digits, length_reverse, hocts] at hfold
    rw [hocts]
    unfold asn1ParseLen asBuffer
    simp only [length_cons, length_map, length_reverse, getD_cons_zero]
    rw [if_neg (by omega), if_neg hlong, hnb, if_neg (by omega)]
    refine ⟨Nat.add_comm _ _, ?_⟩
    simp only [Nat.zero_add]
    exact hfold

/-- Tag numbers below 31 have a single identifier octet, and the header is found. -/
lemma Der.headerReads_of_low (hlow : d.ident.number < 31) (hlen : d.content.length < 2 ^ 32) : d.HeaderReads := by
  have hrest : d.headerRest = lengthOctets d.content.length := by
    unfold Der.headerRest Ident.octets
    rw [if_pos hlow]
    rfl
  unfold Der.HeaderReads
  rw [hrest]
  exact asn1ParseLen_lengthOctets hlen

/-! ## Headers in a buffer -/

/-- The bytes from `p` on. -/
def Holds (mem : Nat → UInt8) (p : Nat) (bytes : List UInt8) : Prop :=
  ∀ i < bytes.length, mem (p + i) = asBuffer bytes i

lemma Holds.append {p : Nat} {as bs : List UInt8} (h : Holds mem p (as ++ bs)) :
    Holds mem p as ∧ Holds mem (p + as.length) bs := by
  unfold Holds asBuffer at *
  constructor
  · intro i hi
    rw [h i (by rw [length_append]; omega), getD_append _ _ _ _ hi]
  · intro i hi
    rw [Nat.add_assoc, h (as.length + i) (by rw [length_append]; omega),
      getD_append_right _ _ _ _ (Nat.le_add_right _ _), Nat.add_sub_cancel_left]

/-- Length octets are read in the same way wherever they are, if they are all there. -/
lemma asn1ParseLen_local {mem' : Nat → UInt8} {p p' max max' k : Nat} (hk : 1 ≤ k)
    (hmem : ∀ i < k, mem (p + i) = mem' (p' + i)) (hmax : k ≤ max') (h : (asn1ParseLen mem p max).consumed = k) :
    (asn1ParseLen mem' p' max').consumed = k ∧
      (asn1ParseLen mem' p' max').len = (asn1ParseLen mem p max).len := by
  have hfirst : mem p = mem' p' := hmem 0 (by omega)
  unfold asn1ParseLen at h ⊢
  by_cases hone : max < 1
  · rw [if_pos hone] at h
    exact absurd h (by simp only; omega)
  · rw [if_neg hone] at h ⊢
    rw [if_neg (show ¬ max' < 1 by omega)]
    simp only [hfirst] at h ⊢
    by_cases hshort : mem' p' < 0x80
    · simp only [if_pos hshort] at h ⊢
      exact ⟨h, trivial⟩
    · simp only [if_neg hshort] at h ⊢
      by_cases hbad : 4 < (mem' p' &&& 0x7F).toNat ∨ max < 1 + (mem' p' &&& 0x7F).toNat
      · simp only [if_pos hbad] at h
        exact absurd h (by omega)
      · simp only [if_neg hbad] at h ⊢
        rw [if_neg (show ¬ (4 < (mem' p' &&& 0x7F).toNat ∨ max' < 1 + (mem' p' &&& 0x7F).toNat) by omega)]
        refine ⟨h, ?_⟩
        refine foldl_ext _ _ _ ?_
        intro len i hi
        rw [mem_range] at hi
        rw [Nat.add_assoc, Nat.add_assoc, hmem (1 + i) (by omega)]

namespace Der

/-- The header of an element. -/
def tlv (d : Der) (pos room : Nat) : Tlv := ⟨pos, room, d.lead, d.content.length, d.headerRest.length⟩

lemma size_tlv (d : Der) (pos room : Nat) : (d.tlv pos room).size = d.encode.length := by
  rw [length_encode]
  rfl

/-- **When the parser finds a header.** -/
theorem tlvAt_eq_iff (hmem : Holds mem pos d.encode) (hroom : d.encode.length ≤ room) :
    ((tlvAt mem pos room).len = d.content.length ∧ (tlvAt mem pos room).lc = d.headerRest.length) ↔
      d.HeaderReads := by
  have hpos := d.headerRest_pos
  have hlen := d.length_encode
  unfold headerLen at hlen
  have hoctets : ∀ i < d.headerRest.length, mem (pos + 1 + i) = asBuffer d.headerRest (0 + i) := by
    intro i hi
    unfold Holds asBuffer at *
    rw [Nat.add_assoc, hmem (1 + i) (by omega), encode_eq, Nat.add_comm 1 i, getD_cons_succ,
      getD_append _ _ _ _ hi, Nat.zero_add]
  unfold tlvAt HeaderReads
  simp only
  constructor
  · rintro ⟨hl, hlc⟩
    have hlocal := asn1ParseLen_local hpos hoctets (Nat.le_refl _) hlc
    exact ⟨hlocal.1, hlocal.2.trans hl⟩
  · rintro ⟨hlc, hl⟩
    have hlocal := asn1ParseLen_local hpos (fun i hi => (hoctets i hi).symm) (show _ ≤ room - 1 by omega) hlc
    exact ⟨hlocal.2.trans hl, hlocal.1⟩

lemma tlvAt_of_headerReads (hmem : Holds mem pos d.encode)
    (hroom : d.encode.length ≤ room) (h : d.HeaderReads) : tlvAt mem pos room = d.tlv pos room := by
  obtain ⟨hlen, hlc⟩ := (tlvAt_eq_iff hmem hroom).mpr h
  have hlead : mem pos = d.lead := by
    have hfirst := hmem 0 (Nat.lt_of_lt_of_le (by decide) d.two_le_length_encode)
    unfold asBuffer at hfirst
    rw [encode_eq, getD_cons_zero] at hfirst
    exact hfirst
  unfold tlv
  rw [← hlen, ← hlc, ← hlead]
  rfl

end Der

end PigOS.Crypto
