import PigOS.Crypto.Correctness.Asn1Walk

/-!
# `Crypto.Correctness.Asn1Bounds` — what the DER parser reads

A header is accepted when `1 + lc + len` is not above the room for it, and this sum is taken in 32
bits: a length of `2^32 - 6` or more makes it wrap around. `NoOverflow` says that this does not
happen; `CertReadable` is the condition for `x509_parse_cert`, which also reads nodes that have been
rejected.
-/

namespace PigOS.Crypto

open PreOrder List
open RoseTree (forest_nil forest_cons subtrees_eq children_node)

variable {q : Nat × RoseTree Tlv} {data len : Nat}
variable {f : Nat → Nat → Option (RoseTree Tlv)} {k p rem levels dlen : Nat} {T : RoseTree Tlv}

/-! ## The conditions -/

/-- The headers that `asn1_parse` meets in `len` bytes from `data` on. -/
def met (mem : Nat → UInt8) (data len : Nat) : List (Nat × RoseTree Tlv) :=
  match walk mem asn1MaxDepth data len with
  | none => []
  | some T => (T.subtrees 0).take asn1MaxNodes

/-- No element that is met is as large as `2^32`. -/
def NoOverflow (mem : Nat → UInt8) (data len : Nat) : Prop :=
  ∀ q ∈ met mem data len, q.2.label.size < 2 ^ 32

/-- The headers that are met end before `B`. -/
def HeadersEnd (B : Nat) (qs : List (Nat × RoseTree Tlv)) : Prop := ∀ q ∈ qs, q.2.label.headerEnd ≤ B

/-- `k` bytes from `p` on end before `B`. -/
def EndsBefore (B p k : Nat) : Prop := k = 0 ∨ p + k ≤ B

/-- The table that `asn1_parse` leaves. -/
def metTable (mem : Nat → UInt8) (data len : Nat) : Asn1Tree := ⟨(met mem data len).map asn1Entry, []⟩

/-- The octets of the attribute type of a common name. -/
def commonName : List UInt8 := [0x55, 0x04, 0x03]

/-- A relative name of the subject: its type is compared, and the value of a common name is
taken. -/
def NameReadable (mem : Nat → UInt8) (B : Nat) (t : Asn1Tree) (subject : Asn1Node) (i : Nat) : Prop :=
  ∀ rset ∈ t.child subject i, ∀ rseq ∈ t.child rset 0, ∀ oid ∈ t.child rseq 0, ∀ val ∈ t.child rseq 1,
    oid.tag = 0x06 ∧ 3 ≤ oid.len →
      (∀ k < 3, bytesAt mem oid.val k = commonName.take k → oid.val + k < B) ∧
      (bytesAt mem oid.val 3 = commonName → EndsBefore B val.val (min val.len 127))

/-- The BIT STRING of the key: the headers within it, and the two INTEGERs if they are reached. -/
def KeyReadable (mem : Nat → UInt8) (B : Nat) (bits : Asn1Node) : Prop :=
  let bp := if 1 < bits.len then bits.val + 1 else bits.val
  let t := metTable mem bp (pred32 bits.len)
  HeadersEnd B (met mem bp (pred32 bits.len)) ∧
  ((t.node 0).accepted = true ∧ (t.node 0).tag = 0x30 ∧ 2 ≤ (t.node 0).children →
    (∀ m ∈ t.child (t.node 0) 0, m.tag = 0x02 → EndsBefore B m.val (min m.len 256)) ∧
    ∀ x ∈ t.child (t.node 0) 1, x.tag = 0x02 → EndsBefore B x.val (min x.len 8))

/-- The fields of a certificate that are looked at. -/
def FieldsReadable (mem : Nat → UInt8) (B : Nat) (t : Asn1Tree) (tbs : Asn1Node) : Prop :=
  let off : Int := if (t.child tbs 0).any (fun ver => ver.tag = 0xA0) then 1 else 0
  (∀ subject ∈ t.child tbs (5 + off), ∀ i < subject.children, NameReadable mem B t subject i) ∧
  (∀ validity ∈ t.child tbs (4 + off),
    (∀ n ∈ t.child validity 0, EndsBefore B n.val (min n.len 31)) ∧
    ∀ n ∈ t.child validity 1, EndsBefore B n.val (min n.len 31)) ∧
  ∀ pubkey ∈ t.child tbs (6 + off), ∀ bits ∈ t.child pubkey 1, bits.tag = 0x03 → KeyReadable mem B bits

/-- All headers that are met end inside the buffer, and so do the fields that the reader looks
at. -/
def CertReadable (mem : Nat → UInt8) (dlen : Nat) : Prop :=
  let t := metTable mem 0 dlen
  HeadersEnd dlen (met mem 0 dlen) ∧
  ((t.node 0).accepted = true ∧ (t.node 0).tag = 0x30 →
    ∀ tbs ∈ t.child (t.node 0) 0, tbs.tag = 0x30 → FieldsReadable mem dlen t tbs)

/-! ## The properties -/

/-- `asn1_parse` reads below `dlen` only, and the nodes that it accepts end there. -/
def ParseSafe (mem : Nat → UInt8) (dlen : Nat) : Prop :=
  ∃ r t, asn1Parse mem 0 dlen = some (r, t) ∧ (∀ i ∈ t.reads, i < dlen) ∧
    ∀ n ∈ t.nodes, n.accepted = true → n.val + n.len ≤ dlen

/-- `x509_parse_cert` reads below `dlen` only. -/
def CertSafe (mem : Nat → UInt8) (dlen : Nat) : Prop :=
  ∃ r reads, x509ParseCert mem dlen = some (r, reads) ∧ ∀ i ∈ reads, i < dlen

/-! ## The parser in terms of what it meets -/

variable {mem : Nat → UInt8} {pos room : Nat}

/-- The parser ends, leaves the table of the headers that are met, and reads nothing else. -/
lemma asn1Parse_met (mem : Nat → UInt8) (data len : Nat) :
    ∃ reads, asn1Parse mem data len =
        some (if ((metTable mem data len).node 0).accepted then some 0 else none,
          ⟨(metTable mem data len).nodes, reads⟩) ∧
      ∀ i, i ∈ reads ↔ ReadBy (met mem data len) i := by
  obtain ⟨hshort, hlong⟩ := asn1Parse_walk mem data len
  unfold metTable met
  by_cases hlen : 2 ≤ len
  · obtain ⟨T, reads, hT, hparse, hreads⟩ := hlong hlen
    rw [hT]
    have hroot : (Asn1Tree.node ⟨((T.subtrees 0).take asn1MaxNodes).map asn1Entry, []⟩ 0).accepted = T.label.fits := by
      rw [subtrees_eq]
      rfl
    refine ⟨reads, ?_, hreads⟩
    rw [hparse, hroot, map_take]
    rfl
  · rw [walk_eq_none (Or.inr (by omega))]
    exact ⟨[], hshort (by omega), fun i => iff_of_false not_mem_nil readBy_nil⟩

lemma mem_walkItems {x : Nat} (h : q ∈ RoseTree.forest x (walkItems f k p rem)) :
    ∃ p' rem' c x', f p' rem' = some c ∧ q ∈ c.subtrees x' := by
  induction k generalizing p rem x with
  | zero =>
    rw [walkItems, forest_nil] at h
    exact absurd h (by simp)
  | succ k ih =>
    cases hc : f p rem with
    | none =>
      rw [walkItems_none _ _ _ _ hc, forest_nil] at h
      exact absurd h (by simp)
    | some c =>
      rw [walkItems_succ _ _ _ _ hc, forest_cons, mem_append] at h
      rcases h with h | h
      · exact ⟨p, rem, c, x, hc, h⟩
      · by_cases hgo : c.label.fits = true ∧ c.label.total ≠ 0
        · rw [if_pos hgo] at h
          exact ih h
        · rw [if_neg hgo, forest_nil] at h
          exact absurd h (by simp)

lemma walk_subtree {x : Nat} (h : walk mem levels pos room = some T) (hq : q ∈ T.subtrees x) :
    ∃ levels' pos' room', walk mem levels' pos' room' = some q.2 := by
  induction levels generalizing pos room x T with
  | zero => exact absurd h (by rw [walk]; simp)
  | succ levels ih =>
    have hroom := (walk_label h).2
    have hT := h
    rw [walk_succ mem levels pos hroom, Option.some.injEq] at hT
    rw [subtrees_eq, mem_cons] at hq
    rcases hq with hq | hq
    · rw [hq]
      exact ⟨_, _, _, h⟩
    · rw [← hT, children_node] at hq
      by_cases hopen : (tlvAt mem pos room).opens = true
      · rw [if_pos hopen] at hq
        obtain ⟨p', rem', c, x', hc, hqc⟩ := mem_walkItems hq
        exact ih hc hqc
      · rw [if_neg hopen, forest_nil] at hq
        exact absurd hq (by simp)

lemma met_label (h : q ∈ met mem data len) :
    q.2.label = tlvAt mem q.2.label.pos q.2.label.room ∧ 2 ≤ q.2.label.room := by
  unfold met at h
  cases hT : walk mem asn1MaxDepth data len with
  | none =>
    rw [hT] at h
    exact absurd h (by simp)
  | some T =>
    rw [hT] at h
    obtain ⟨levels, pos, room, hs⟩ := walk_subtree hT (mem_of_mem_take h)
    obtain ⟨hlabel, hroom⟩ := walk_label hs
    rw [hlabel]
    exact ⟨rfl, hroom⟩

lemma met_bounds (h : q ∈ met mem data len) : q.2.label.lc + 1 ≤ q.2.label.room ∧ q.2.label.len < 2 ^ 32 := by
  obtain ⟨hlabel, hroom⟩ := met_label h
  have hroom' : 1 ≤ q.2.label.room - 1 := by omega
  have hspec := asn1ParseLen_spec mem (q.2.label.pos + 1) hroom'
  have hlc : q.2.label.lc = (asn1ParseLen mem (q.2.label.pos + 1) (q.2.label.room - 1)).consumed :=
    congrArg Tlv.lc hlabel
  have hlen : q.2.label.len = (asn1ParseLen mem (q.2.label.pos + 1) (q.2.label.room - 1)).len :=
    congrArg Tlv.len hlabel
  rw [hlc, hlen]
  exact ⟨by omega, hspec.1⟩

lemma fits_of_overflow (h : q ∈ met mem data len) (hover : 2 ^ 32 ≤ q.2.label.size) : q.2.label.fits = true := by
  obtain ⟨hlc, hlen⟩ := met_bounds h
  unfold Tlv.fits
  rw [decide_eq_true_eq]
  unfold Tlv.total Tlv.size at *
  omega

lemma val_add_len (h : Tlv) : h.val + h.len = h.pos + h.size := by
  unfold Tlv.val Tlv.size
  omega

/-! ## In bounds without overflow -/

/-- The headers that are met lie before `B`, up to the first one that overflows. -/
def Inside (B : Nat) (qs : List (Nat × RoseTree Tlv)) : Prop :=
  ∀ m, (∀ q ∈ qs.take m, q.2.label.size < 2 ^ 32) → ∀ q ∈ qs.take m, q.2.label.pos + q.2.label.room ≤ B

variable {B : Nat} {qs : List (Nat × RoseTree Tlv)}

lemma Inside.cons {q : Nat × RoseTree Tlv}
    (hq : q.2.label.pos + q.2.label.room ≤ B) (hqs : q.2.label.size < 2 ^ 32 → Inside B qs) : Inside B (q :: qs) := by
  intro m hsize
  cases m with
  | zero =>
    intro r hr
    exact absurd hr (by simp)
  | succ m =>
    rw [take_succ_cons, forall_mem_cons] at hsize
    rw [take_succ_cons, forall_mem_cons]
    exact ⟨hq, hqs hsize.1 m hsize.2⟩

lemma Inside.append {rs : List (Nat × RoseTree Tlv)} (hqs : Inside B qs) (hrs : Inside B rs) :
    Inside B (qs ++ rs) := by
  intro m hsize
  rw [take_append, forall_mem_append] at hsize
  rw [take_append, forall_mem_append]
  exact ⟨hqs m hsize.1, hrs _ hsize.2⟩

lemma inside_nil (B : Nat) : Inside B [] := by
  intro m _ q hq
  exact absurd hq (by simp)

lemma walkItems_inside
    (hf : ∀ p rem c, f p rem = some c → c.label.room = rem ∧ (p + rem ≤ B → ∀ x, Inside B (c.subtrees x)))
    (h : p + rem ≤ B) (x : Nat) : Inside B (RoseTree.forest x (walkItems f k p rem)) := by
  induction k generalizing p rem x with
  | zero =>
    rw [walkItems, forest_nil]
    exact inside_nil B
  | succ k ih =>
    cases hc : f p rem with
    | none =>
      rw [walkItems_none _ _ _ _ hc, forest_nil]
      exact inside_nil B
    | some c =>
      obtain ⟨hroom, hinside⟩ := hf p rem c hc
      rw [walkItems_succ _ _ _ _ hc, forest_cons]
      refine (hinside h x).append ?_
      by_cases hgo : c.label.fits = true ∧ c.label.total ≠ 0
      · rw [if_pos hgo]
        have hfits := hgo.1
        unfold Tlv.fits at hfits
        rw [decide_eq_true_eq, hroom] at hfits
        exact ih (by omega) _
      · rw [if_neg hgo, forest_nil]
        exact inside_nil B

lemma walk_inside (h : walk mem levels pos room = some T)
    (hB : pos + room ≤ B) (x : Nat) : Inside B (T.subtrees x) := by
  induction levels generalizing pos room x T with
  | zero => exact absurd h (by rw [walk]; simp)
  | succ levels ih =>
    obtain ⟨hlabel, hroom⟩ := walk_label h
    rw [walk_succ mem levels pos hroom, Option.some.injEq] at h
    rw [subtrees_eq]
    refine Inside.cons (by rw [hlabel]; exact hB) ?_
    intro hsize
    rw [← h, children_node]
    by_cases hopen : (tlvAt mem pos room).opens = true
    · rw [if_pos hopen]
      -- the content ends where the element does
      have hfits := Tlv.fits_of_opens hopen
      rw [hlabel] at hsize
      have hend := val_add_len (tlvAt mem pos room)
      have hpos : (tlvAt mem pos room).pos = pos := rfl
      unfold Tlv.fits Tlv.total at hfits
      rw [decide_eq_true_eq, Nat.mod_eq_of_lt hsize] at hfits
      have hle : (tlvAt mem pos room).size ≤ room := hfits
      refine walkItems_inside ?_ (by omega) _
      intro p rem c hc
      have hclabel := (walk_label hc).1
      exact ⟨by rw [hclabel]; rfl, fun hle x => ih hc hle x⟩
    · rw [if_neg hopen, forest_nil]
      exact inside_nil B

lemma met_inside (hB : data + len ≤ B) (hno : NoOverflow mem data len) :
    ∀ q ∈ met mem data len, q.2.label.pos + q.2.label.room ≤ B := by
  unfold NoOverflow met at *
  cases hT : walk mem asn1MaxDepth data len with
  | none =>
    intro q hq
    exact absurd hq (by simp)
  | some T =>
    rw [hT] at hno
    exact walk_inside hT hB 0 asn1MaxNodes hno

lemma met_end (hB : data + len ≤ B) (hno : NoOverflow mem data len)
    (hq : q ∈ met mem data len) (hfits : q.2.label.fits = true) : q.2.label.val + q.2.label.len ≤ B := by
  have hinside := met_inside hB hno q hq
  have hsize := hno q hq
  unfold Tlv.fits Tlv.total at hfits
  rw [decide_eq_true_eq, Nat.mod_eq_of_lt hsize] at hfits
  rw [val_add_len]
  omega

/-- **Parsing stays inside the buffer exactly when no length overflows.** -/
theorem parseSafe_iff (hdlen : dlen < 2 ^ 32) : ParseSafe mem dlen ↔ NoOverflow mem 0 dlen := by
  obtain ⟨reads, hparse, hreads⟩ := asn1Parse_met mem 0 dlen
  constructor
  · rintro ⟨r', t, hparse', -, hnodes⟩ q hq
    rw [hparse, Option.some.injEq, Prod.mk.injEq] at hparse'
    rw [← hparse'.2] at hnodes
    -- a header that overflows is accepted, and its node ends behind the buffer
    by_contra hover
    have hend := hnodes (asn1Entry q) (mem_map_of_mem hq) (fits_of_overflow hq (by omega))
    have hval : q.2.label.val + q.2.label.len ≤ dlen := hend
    rw [val_add_len] at hval
    omega
  · intro hno
    refine ⟨_, _, hparse, ?_, ?_⟩
    · intro i hi
      obtain ⟨q, hq, -, hlt⟩ := (hreads i).mp hi
      have hinside := met_inside (Nat.le_of_eq (Nat.zero_add dlen)) hno q hq
      have hroom := (met_label hq).2
      have hlc := (met_bounds hq).1
      unfold Tlv.headerEnd at hlt
      omega
    · intro n hn hacc
      obtain ⟨q, hq, rfl⟩ := mem_map.mp hn
      exact met_end (Nat.le_of_eq (Nat.zero_add dlen)) hno hq hacc

/-! ## The certificate reader -/

/-- All of some offsets are below `B`. -/
def Within (B : Nat) (is : List Nat) : Prop := ∀ i ∈ is, i < B

variable {t : Asn1Tree} {n : Asn1Node} {is js : List Nat}

lemma within_nil (B : Nat) : Within B [] := forall_mem_nil _

lemma within_append : Within B (is ++ js) ↔ Within B is ∧ Within B js := forall_mem_append

lemma within_span : Within B (span p k) ↔ EndsBefore B p k := by
  unfold Within EndsBefore
  simp only [mem_span]
  constructor
  · intro h
    by_cases hk : k = 0
    · exact Or.inl hk
    · have := h (p + k - 1) (by omega)
      omega
  · intro h i hi
    omega

/-- What is read of some headers: each of them is read up to its end. -/
lemma within_headers (h : ∀ i, i ∈ is ↔ ReadBy qs i) : Within B is ↔ HeadersEnd B qs := by
  constructor
  · intro hw q hq
    have hlast := hw (q.2.label.headerEnd - 1) ((h _).mpr ⟨q, hq, by unfold Tlv.headerEnd; omega⟩)
    unfold Tlv.headerEnd at *
    omega
  · intro he i hi
    obtain ⟨q, hq, -, hlt⟩ := (h i).mp hi
    exact Nat.lt_of_lt_of_le hlt (he q hq)

lemma asn1ExtractStr_within (out : List UInt8) (maxout : Nat) :
    Within B (asn1ExtractStr mem out maxout n).2 ↔ EndsBefore B n.val (min n.len (maxout - 1)) := by
  unfold asn1ExtractStr
  by_cases hzero : n.len = 0
  · rw [if_pos hzero, hzero, Nat.zero_min]
    exact iff_of_true (within_nil B) (Or.inl rfl)
  · rw [if_neg hzero]
    simp only
    rw [within_span, Nat.min_def]
    congr! 1
    split <;> split <;> omega

lemma bytesAt_succ (mem : Nat → UInt8) (p k : Nat) : bytesAt mem p (k + 1) = mem p :: bytesAt mem (p + 1) k := by
  have hspan : span p (k + 1) = p :: span (p + 1) k := by
    unfold span
    rw [range_succ_eq_map, map_cons, map_map, Nat.add_zero]
    exact congrArg _ (map_congr_left fun i _ => (Nat.add_right_comm p 1 i).symm)
  rw [bytesAt, hspan, map_cons, bytesAt]

lemma matchBytes_found (p : Nat) (bs : List UInt8) : (matchBytes mem p bs).1 = true ↔ bytesAt mem p bs.length = bs := by
  induction bs generalizing p with
  | nil => exact iff_of_true rfl rfl
  | cons b bs ih =>
    rw [length_cons, bytesAt_succ, matchBytes, cons.injEq]
    by_cases hb : mem p = b
    · rw [if_pos hb, and_iff_right hb]
      exact ih (p + 1)
    · rw [if_neg hb]
      exact iff_of_false (by simp) (fun h => hb h.1)

/-- A comparison reads each byte whose predecessors agree. -/
lemma matchBytes_within (p : Nat) (bs : List UInt8) :
    Within B (matchBytes mem p bs).2 ↔ ∀ k < bs.length, bytesAt mem p k = bs.take k → p + k < B := by
  induction bs generalizing p with
  | nil => exact iff_of_true (within_nil B) (fun k hk => absurd hk (Nat.not_lt_zero k))
  | cons b bs ih =>
    rw [length_cons, Nat.forall_lt_succ_left, matchBytes]
    simp only [bytesAt_succ, take_succ_cons, cons.injEq]
    by_cases hb : mem p = b
    · simp only [hb, true_and]
      refine forall_mem_cons.trans (and_congr ⟨fun h _ => h, fun h => h rfl⟩ ?_)
      simp only [← Nat.add_assoc, Nat.add_right_comm p _ 1]
      exact ih (p + 1)
    · simp only [hb, false_and, false_implies, implies_true, and_true]
      exact forall_mem_singleton.trans ⟨fun h _ => h, fun h => h rfl⟩

/-- One round over the subject. -/
lemma subjectRound_within (subject : Asn1Node) (s : List UInt8 × List Nat) (i : Nat) :
    Within B (subjectRound mem t subject s i).2 ↔ Within B s.2 ∧ NameReadable mem B t subject i := by
  unfold subjectRound NameReadable
  cases t.child subject i with
  | none => simp
  | some rset =>
    simp only [Option.mem_some_iff, forall_eq']
    cases t.child rset 0 with
    | none => simp
    | some rseq =>
      simp only [Option.mem_some_iff, forall_eq']
      cases t.child rseq 0 with
      | none => simp
      | some oid =>
        cases t.child rseq 1 with
        | none => simp
        | some val =>
          simp only [Option.mem_some_iff, forall_eq']
          by_cases hcn : oid.tag = 0x06 ∧ 3 ≤ oid.len
          · have hname : ([0x55, 0x04, 0x03] : List UInt8) = commonName := rfl
            have hfound : (matchBytes mem oid.val commonName).1 = true ↔ bytesAt mem oid.val 3 = commonName :=
              matchBytes_found oid.val commonName
            rw [if_pos hcn, forall_prop_of_true hcn, hname]
            by_cases hf : (matchBytes mem oid.val commonName).1 = true
            · rw [if_pos hf, forall_prop_of_true (hfound.mp hf), within_append, within_append, matchBytes_within,
                asn1ExtractStr_within, and_assoc]
              rfl
            · rw [if_neg hf, within_append, matchBytes_within]
              exact and_congr_right fun _ => (and_iff_left fun h => absurd (hfound.mpr h) hf).symm
          · rw [if_neg hcn]
            exact (and_iff_left (fun h => absurd h hcn)).symm

lemma readSubject_within (cn : List UInt8) (subject : Option Asn1Node) :
    Within B (readSubject mem t cn subject).2 ↔
      ∀ subject' ∈ subject, ∀ i < subject'.children, NameReadable mem B t subject' i := by
  cases subject with
  | none => simp [readSubject, within_nil]
  | some subject =>
    have hfold : ∀ (is : List Nat) (s : List UInt8 × List Nat), Within B (is.foldl (subjectRound mem t subject) s).2 ↔
        Within B s.2 ∧ ∀ i ∈ is, NameReadable mem B t subject i := by
      intro is
      induction is with
      | nil => exact fun s => (and_iff_left (forall_mem_nil _)).symm
      | cons i is ih =>
        intro s
        rw [foldl_cons, ih, subjectRound_within, forall_mem_cons, and_assoc]
    rw [readSubject, hfold, and_iff_right (within_nil B)]
    simp only [mem_range, Option.mem_some_iff, forall_eq']

lemma readValidity_within (cert : X509Cert) (validity : Option Asn1Node) :
    Within B (readValidity mem t cert validity).2 ↔ ∀ v ∈ validity,
      (∀ n ∈ t.child v 0, EndsBefore B n.val (min n.len 31)) ∧
      ∀ n ∈ t.child v 1, EndsBefore B n.val (min n.len 31) := by
  cases validity with
  | none => simp [readValidity, within_nil]
  | some v =>
    simp only [Option.mem_some_iff, forall_eq']
    refine within_append.trans (and_congr ?_ ?_)
    · cases t.child v 0 with
      | none => simp [within_nil]
      | some nb =>
        simp only [Option.mem_some_iff, forall_eq']
        exact asn1ExtractStr_within _ 32
    · cases t.child v 1 with
      | none => simp [within_nil]
      | some na =>
        simp only [Option.mem_some_iff, forall_eq']
        exact asn1ExtractStr_within _ 32

lemma readModulus_within (cert : X509Cert) (m : Option Asn1Node) :
    Within B (readModulus mem cert m).2 ↔ ∀ n ∈ m, n.tag = 0x02 → EndsBefore B n.val (min n.len 256) := by
  cases m with
  | none => simp [readModulus, within_nil]
  | some m =>
    simp only [readModulus, Option.mem_some_iff, forall_eq']
    by_cases htag : m.tag = 0x02
    · rw [if_neg (not_not.mpr htag), forall_prop_of_true htag]
      have hfirst : Within B (if 0 < m.len then [m.val] else []) ↔ (0 < m.len → m.val < B) := by
        split
        · next hpos => exact forall_mem_singleton.trans ⟨fun h _ => h, fun h => h hpos⟩
        · next hpos => exact iff_of_true (within_nil B) (fun h => absurd h hpos)
      split
      · next hzero =>
        rw [within_append, hfirst, within_span]
        unfold EndsBefore
        split <;> split <;> omega
      · rw [within_append, hfirst, within_span]
        unfold EndsBefore
        split <;> omega
    · rw [if_pos htag]
      exact iff_of_true (within_nil B) (fun h => absurd h htag)

lemma readExponent_within (cert : X509Cert) (x : Option Asn1Node) :
    Within B (readExponent mem cert x).2 ↔ ∀ n ∈ x, n.tag = 0x02 → EndsBefore B n.val (min n.len 8) := by
  cases x with
  | none => simp [readExponent, within_nil]
  | some x =>
    simp only [readExponent, Option.mem_some_iff, forall_eq']
    by_cases htag : x.tag = 0x02
    · rw [if_neg (not_not.mpr htag), forall_prop_of_true htag, within_span]
      unfold EndsBefore
      split <;> omega
    · rw [if_pos htag]
      exact iff_of_true (within_nil B) (fun h => absurd h htag)

lemma readKey_within (B : Nat) (cert : X509Cert) (bits : Asn1Node) :
    ∃ c reads, readKey mem cert bits = some (c, reads) ∧ (Within B reads ↔ KeyReadable mem B bits) := by
  obtain ⟨bp, hbp⟩ : ∃ bp, bp = if 1 < bits.len then bits.val + 1 else bits.val := ⟨_, rfl⟩
  obtain ⟨reads, hparse, hreads⟩ := asn1Parse_met mem bp (pred32 bits.len)
  unfold readKey KeyReadable
  simp only [← hbp, hparse, ← within_headers (B := B) hreads]
  by_cases hroot : ((metTable mem bp (pred32 bits.len)).node 0).accepted = true
  · rw [if_pos hroot]
    simp only [hroot, true_and]
    by_cases hseq : ((metTable mem bp (pred32 bits.len)).node 0).tag = 0x30 ∧
        2 ≤ ((metTable mem bp (pred32 bits.len)).node 0).children
    · refine ⟨_, _, if_pos hseq, ?_⟩
      rw [within_append, within_append, readModulus_within, readExponent_within, and_assoc, forall_prop_of_true hseq]
      rfl
    · exact ⟨_, _, if_neg hseq, (and_iff_left (fun h => absurd h hseq)).symm⟩
  · rw [if_neg hroot]
    exact ⟨_, _, rfl, (and_iff_left (fun h => absurd h.1 hroot)).symm⟩

lemma readPubkey_within (B : Nat) (t : Asn1Tree) (cert : X509Cert) (pubkey : Option Asn1Node) :
    ∃ c reads, readPubkey mem t cert pubkey = some (c, reads) ∧
      (Within B reads ↔ ∀ p ∈ pubkey, ∀ bits ∈ t.child p 1, bits.tag = 0x03 → KeyReadable mem B bits) := by
  cases pubkey with
  | none => exact ⟨_, _, rfl, by simp [within_nil]⟩
  | some pubkey =>
    simp only [readPubkey, Option.mem_some_iff, forall_eq']
    cases t.child pubkey 1 with
    | none => exact ⟨_, _, rfl, by simp [within_nil]⟩
    | some bits =>
      simp only [Option.mem_some_iff, forall_eq']
      by_cases htag : bits.tag = 0x03
      · rw [if_pos htag, forall_prop_of_true htag]
        exact readKey_within B cert bits
      · rw [if_neg htag]
        exact ⟨_, _, rfl, iff_of_true (within_nil B) (fun h => absurd h htag)⟩

lemma readCert_within (B : Nat) (t : Asn1Tree) (tbs : Asn1Node) :
    ∃ c reads, readCert mem t tbs = some (c, reads) ∧ (Within B reads ↔ FieldsReadable mem B t tbs) := by
  unfold readCert FieldsReadable
  simp only
  obtain ⟨c, reads, hkey, hreads⟩ := @readPubkey_within mem B t _ _
  rw [hkey]
  refine ⟨_, _, rfl, ?_⟩
  rw [within_append, within_append, readSubject_within, readValidity_within, hreads, and_assoc]

/-- **Reading a certificate stays inside the buffer exactly when what is looked at does.** -/
theorem certSafe_iff : CertSafe mem dlen ↔ CertReadable mem dlen := by
  have hsafe : (∃ r reads, x509ParseCert mem dlen = some (r, reads) ∧ (Within dlen reads ↔ CertReadable mem dlen)) →
      (CertSafe mem dlen ↔ CertReadable mem dlen) := by
    rintro ⟨r, reads, hrun, hiff⟩
    refine ⟨?_, fun h => ⟨r, reads, hrun, hiff.mpr h⟩⟩
    rintro ⟨r', reads', hrun', hw⟩
    obtain ⟨-, rfl⟩ := Prod.mk.inj (Option.some.inj (hrun.symm.trans hrun'))
    exact hiff.mp hw
  refine hsafe ?_
  obtain ⟨reads, hparse, hreads⟩ := asn1Parse_met mem 0 dlen
  unfold x509ParseCert CertReadable
  simp only [hparse, ← within_headers (B := dlen) hreads]
  by_cases hroot : ((metTable mem 0 dlen).node 0).accepted = true
  · rw [if_pos hroot]
    simp only [hroot, true_and]
    by_cases htag : ((metTable mem 0 dlen).node 0).tag = 0x30
    · have htag' : (Asn1Tree.node ⟨(metTable mem 0 dlen).nodes, reads⟩ 0).tag = 0x30 := htag
      rw [if_neg (not_not.mpr htag'), forall_prop_of_true htag]
      cases hc : Asn1Tree.child ⟨(metTable mem 0 dlen).nodes, reads⟩
        (Asn1Tree.node ⟨(metTable mem 0 dlen).nodes, reads⟩ 0) 0 with
      | none =>
        have hc' : (metTable mem 0 dlen).child ((metTable mem 0 dlen).node 0) 0 = none := hc
        exact ⟨_, _, rfl, by simp [hc']⟩
      | some tbs =>
        have hc' : (metTable mem 0 dlen).child ((metTable mem 0 dlen).node 0) 0 = some tbs := hc
        simp only [hc', Option.mem_some_iff, forall_eq']
        by_cases htbs : tbs.tag = 0x30
        · obtain ⟨c, reads', hcert, hfields⟩ := @readCert_within mem dlen ⟨(metTable mem 0 dlen).nodes, reads⟩ tbs
          rw [if_neg (not_not.mpr htbs), forall_prop_of_true htbs, hcert]
          exact ⟨_, _, rfl, within_append.trans (and_congr_right fun _ => hfields)⟩
        · rw [if_pos htbs]
          exact ⟨_, _, rfl, (and_iff_left (fun h => absurd h htbs)).symm⟩
    · exact ⟨_, _, if_pos htag, (and_iff_left (fun h => absurd h htag)).symm⟩
  · rw [if_neg hroot]
    exact ⟨_, _, rfl, (and_iff_left (fun h => absurd h.1 hroot)).symm⟩

/-- A certificate of 60 bytes: two texts for the validity, the common name `pig`, modulus 3233,
exponent 17. -/
def smallCert (i : Nat) : UInt8 :=
  [0x30, 0x3A, 0x30, 0x38, 0x02, 0x01, 0x01, 0x02, 0x01, 0x01, 0x02, 0x01, 0x01, 0x02, 0x01, 0x01,
    0x30, 0x26, 0x30, 0x22, 0x30, 0x0E, 0x05, 0x00, 0x03, 0x0A, 0x00,
    0x30, 0x07, 0x02, 0x02, 0x0C, 0xA1, 0x02, 0x01, 0x11,
    0x31, 0x0C, 0x30, 0x0A, 0x06, 0x03, 0x55, 0x04, 0x03, 0x0C, 0x03, 0x70, 0x69, 0x67,
    0x05, 0x00, 0x05, 0x00, 0x05, 0x00, 0x05, 0x00, 0x05, 0x00].getD i 0

end PigOS.Crypto
