import Mathlib.Algebra.Group.Nat.Defs

/-!
# `Crypto.Asn1` — the DER parser and the certificate reader, `crypto/asn1.h`

`asn1_parse` fills a table of at most 256 nodes, one for each header that it meets in a depth-first
walk of the buffer; `x509_parse_cert` picks fields of a certificate from the table by position.

- The buffer is `mem : Nat → UInt8`; a pointer into it is an offset, and those from `dlen` on are
  outside.
- Each function logs the offsets that it reads.
- The `uint32_t` numbers are natural numbers, with the sums that can overflow taken modulo `2^32`.
- The table is the list of the nodes in use; a pointer to a node is its index, and the index `-1` is
  `none`.
- The recursion is bounded by a number that no input reaches; running out of it is the outer `none`.
-/

namespace PigOS.Crypto

def asn1MaxDepth : Nat := 16
def asn1MaxNodes : Nat := 256

structure Asn1Node where
  tag : UInt8
  len : Nat
  val : Nat
  children : Nat
  childStart : Nat
  /-- Not in the source: the call that made the node has returned its index. -/
  accepted : Bool
  deriving DecidableEq

def Asn1Node.zero : Asn1Node := ⟨0, 0, 0, 0, 0, false⟩

structure Asn1Tree where
  /-- The nodes in use; their number is `nnodes`. -/
  nodes : List Asn1Node
  /-- Not in the source: the offsets that have been read. -/
  reads : List Nat
  deriving DecidableEq

namespace Asn1Tree

def empty : Asn1Tree := ⟨[], []⟩

/-- Take the next node. -/
def add (t : Asn1Tree) (n : Asn1Node) : Asn1Tree := { t with nodes := t.nodes ++ [n] }

/-- Write to the node in slot `idx`. -/
def set (t : Asn1Tree) (idx : Nat) (f : Asn1Node → Asn1Node) : Asn1Tree :=
  { t with nodes := t.nodes.modify idx f }

def log (t : Asn1Tree) (is : List Nat) : Asn1Tree := { t with reads := t.reads ++ is }

/-- The node in a slot; a slot that is not in use counts as zero. -/
def node (t : Asn1Tree) (i : Nat) : Asn1Node := t.nodes.getD i Asn1Node.zero

end Asn1Tree

namespace Asn1Node

def addChild (n : Asn1Node) : Asn1Node := { n with children := n.children + 1 }

def setChildStart (s : Nat) (n : Asn1Node) : Asn1Node := { n with childStart := s }

def accept (n : Asn1Node) : Asn1Node := { n with accepted := true }

end Asn1Node

/-! ## Parsing -/

/-- What `asn1_parse_len` returns, how many octets it takes, and what it reads. -/
structure LenOctets where
  len : Nat
  consumed : Nat
  reads : List Nat

/-- The offsets of `k` bytes from `p` on. -/
def span (p k : Nat) : List Nat := (List.range k).map (p + ·)

/-- `asn1_parse_len`: a length in at most four octets after the first; anything else is no
length. -/
def asn1ParseLen (mem : Nat → UInt8) (p max : Nat) : LenOctets :=
  if max < 1 then ⟨0, 0, []⟩
  else
    let b := mem p
    if b < 0x80 then ⟨b.toNat, 1, [p]⟩
    else
      let nb := (b &&& 0x7F).toNat
      if 4 < nb ∨ max < 1 + nb then ⟨0, 0, [p]⟩
      else
        -- len=(len<<8)|p[1+i]
        let len := (List.range nb).foldl (fun len i => (len * 256 + (mem (p + 1 + i)).toNat) % 2 ^ 32) 0
        ⟨len, 1 + nb, p :: span (p + 1) nb⟩

mutual

/-- `asn1_parse_node`: the index of the new node, if it is accepted, and the table. -/
def asn1ParseNode (mem : Nat → UInt8) : Nat → Asn1Tree → Nat → Nat → Nat → Option (Option Nat × Asn1Tree)
  | 0, _, _, _, _ => none
  | fuel + 1, t, p, max, depth =>
    if asn1MaxNodes ≤ t.nodes.length ∨ asn1MaxDepth ≤ depth ∨ max < 2 then some (none, t)
    else
      let idx := t.nodes.length
      let tag := mem p
      let l := asn1ParseLen mem (p + 1) (max - 1)
      let t := (t.add ⟨tag, l.len, p + 1 + l.consumed, 0, 0, false⟩).log (p :: l.reads)
      let total := (1 + l.consumed + l.len) % 2 ^ 32
      if max < total then some (none, t)
      else if tag &&& 0x20 ≠ 0 ∧ 0 < l.len then
        let t := t.set idx (Asn1Node.setChildStart t.nodes.length)
        match childLoop mem fuel t idx (p + 1 + l.consumed) l.len depth with
        | none => none
        | some t => some (some idx, t.set idx Asn1Node.accept)
      else some (some idx, t.set idx Asn1Node.accept)

/-- The loop over the `rem` bytes of content from `cp` on, for the node in slot `idx`. -/
def childLoop (mem : Nat → UInt8) : Nat → Asn1Tree → Nat → Nat → Nat → Nat → Option Asn1Tree
  | 0, _, _, _, _, _ => none
  | fuel + 1, t, idx, cp, rem, depth =>
    if rem = 0 then some t
    else
      match asn1ParseNode mem fuel t cp rem (depth + 1) with
      | none => none
      | some (none, t) => some t
      | some (some ci, t) =>
        let t := t.set idx Asn1Node.addChild
        let clen := (t.node ci).len
        let l := if 2 ≤ rem then asn1ParseLen mem (cp + 1) (rem - 1) else ⟨0, 0, []⟩
        let t := t.log l.reads
        let ctot := (1 + l.consumed + clen) % 2 ^ 32
        if ctot = 0 then some t
        else childLoop mem fuel t idx (cp + ctot) (rem - ctot) depth

end

/-- `asn1_parse` on `len` bytes from `data` on. Each level and each round of a loop takes a node. -/
def asn1Parse (mem : Nat → UInt8) (data len : Nat) : Option (Option Nat × Asn1Tree) :=
  asn1ParseNode mem (2 * asn1MaxNodes + 1) Asn1Tree.empty data len 0

/-- `asn1_child`. -/
def asn1Child (parent : Asn1Node) (idx : Int) : Option Nat :=
  if idx < 0 ∨ (parent.children : Int) ≤ idx then none else some (parent.childStart + idx.toNat)

/-! ## Searching -/

/-- The loop over the children of `parent` from number `i` on: the node that is found, and the nodes
that are looked at. -/
def childSearch (t : Asn1Tree) (tag : UInt8) (below : Asn1Node → Option (Option Nat × List Nat)) (parent : Asn1Node) :
    Nat → Nat → Option (Option Nat × List Nat)
  | 0, _ => some (none, [])
  | k + 1, i =>
    match asn1Child parent i with
    | none => childSearch t tag below parent k (i + 1)
    | some c =>
      if (t.node c).tag = tag then some (some c, [c])
      else
        match below (t.node c) with
        | none => none
        | some (some r, is) => some (some r, c :: is)
        | some (none, is) =>
          (childSearch t tag below parent k (i + 1)).map (fun p => (p.1, c :: is ++ p.2))

/-- `asn1_find_tag`. -/
def asn1FindTag (t : Asn1Tree) (parent : Asn1Node) (tag : UInt8) : Option (Option Nat × List Nat) :=
  childSearch t tag (fun _ => some (none, [])) parent parent.children 0

/-- `asn1_find_tag_deep`, with at most so many calls inside each other. -/
def asn1FindTagDeep (t : Asn1Tree) (tag : UInt8) : Nat → Asn1Node → Option (Option Nat × List Nat)
  | 0, _ => none
  | fuel + 1, parent => childSearch t tag (asn1FindTagDeep t tag fuel) parent parent.children 0

/-! ## Certificates -/

structure X509Cert where
  n : List UInt8
  nlen : Nat
  e : List UInt8
  elen : Nat
  cn : List UInt8
  notBefore : List UInt8
  notAfter : List UInt8

def X509Cert.zero : X509Cert where
  n := List.replicate 256 0
  nlen := 0
  e := List.replicate 8 0
  elen := 0
  cn := List.replicate 128 0
  notBefore := List.replicate 32 0
  notAfter := List.replicate 32 0

/-- The node that `asn1_child` points to. -/
def Asn1Tree.child (t : Asn1Tree) (parent : Asn1Node) (idx : Int) : Option Asn1Node :=
  (asn1Child parent idx).map t.node

/-- `k` bytes from `p` on. -/
def bytesAt (mem : Nat → UInt8) (p k : Nat) : List UInt8 := (span p k).map mem

/-- `kmc` to the start of an array. -/
def copyTo (out bytes : List UInt8) : List UInt8 := bytes ++ out.drop bytes.length

/-- `asn1_extract_str`: the array after it, and what it reads. -/
def asn1ExtractStr (mem : Nat → UInt8) (out : List UInt8) (maxout : Nat) (n : Asn1Node) : List UInt8 × List Nat :=
  if n.len = 0 then (copyTo out [0], [])
  else
    let l := if n.len < maxout - 1 then n.len else maxout - 1
    (copyTo out (bytesAt mem n.val l ++ [0]), span n.val l)

/-- Compare bytes from `p` on up to the first difference. -/
def matchBytes (mem : Nat → UInt8) (p : Nat) : List UInt8 → Bool × List Nat
  | [] => (true, [])
  | b :: bs =>
    if mem p = b then
      let (r, is) := matchBytes mem (p + 1) bs
      (r, p :: is)
    else (false, [p])

/-- One round of the loop over the relative names of the subject: the common name, if it is
there. -/
def subjectRound (mem : Nat → UInt8) (t : Asn1Tree) (subject : Asn1Node) (s : List UInt8 × List Nat) (i : Nat) :
    List UInt8 × List Nat :=
  match t.child subject i with
  | none => s
  | some rset =>
    match t.child rset 0 with
    | none => s
    | some rseq =>
      match t.child rseq 0, t.child rseq 1 with
      | some oid, some val =>
        if oid.tag = 0x06 ∧ 3 ≤ oid.len then
          let (found, is) := matchBytes mem oid.val [0x55, 0x04, 0x03]
          if found then
            let (cn, js) := asn1ExtractStr mem s.1 128 val
            (cn, s.2 ++ is ++ js)
          else (s.1, s.2 ++ is)
        else s
      | _, _ => s

def readSubject (mem : Nat → UInt8) (t : Asn1Tree) (cn : List UInt8) : Option Asn1Node → List UInt8 × List Nat
  | none => (cn, [])
  | some subject => (List.range subject.children).foldl (subjectRound mem t subject) (cn, [])

def readValidity (mem : Nat → UInt8) (t : Asn1Tree) (cert : X509Cert) : Option Asn1Node → X509Cert × List Nat
  | none => (cert, [])
  | some validity =>
    let (notBefore, is) :=
      match t.child validity 0 with
      | none => (cert.notBefore, [])
      | some nb => asn1ExtractStr mem cert.notBefore 32 nb
    let (notAfter, js) :=
      match t.child validity 1 with
      | none => (cert.notAfter, [])
      | some na => asn1ExtractStr mem cert.notAfter 32 na
    ({ cert with notBefore := notBefore, notAfter := notAfter }, is ++ js)

/-- The modulus; a leading zero octet is left out. -/
def readModulus (mem : Nat → UInt8) (cert : X509Cert) : Option Asn1Node → X509Cert × List Nat
  | none => (cert, [])
  | some m =>
    if m.tag ≠ 0x02 then (cert, [])
    else
      let nlen := if m.len < 256 then m.len else 256
      let is := if 0 < m.len then [m.val] else []
      if 0 < m.len ∧ mem m.val = 0 then
        let nlen := if nlen - 1 < 256 then nlen - 1 else 256
        ({ cert with nlen := nlen, n := copyTo cert.n (bytesAt mem (m.val + 1) nlen) },
          is ++ span (m.val + 1) nlen)
      else
        ({ cert with nlen := nlen, n := copyTo cert.n (bytesAt mem m.val nlen) }, is ++ span m.val nlen)

def readExponent (mem : Nat → UInt8) (cert : X509Cert) : Option Asn1Node → X509Cert × List Nat
  | none => (cert, [])
  | some x =>
    if x.tag ≠ 0x02 then (cert, [])
    else
      let elen := if x.len < 8 then x.len else 8
      ({ cert with elen := elen, e := copyTo cert.e (bytesAt mem x.val elen) }, span x.val elen)

/-- `n-1` in 32 bits. -/
def pred32 (n : Nat) : Nat := if n = 0 then 2 ^ 32 - 1 else n - 1

/-- The key in the BIT STRING of the public key: its content behind the first octet is parsed
again. -/
def readKey (mem : Nat → UInt8) (cert : X509Cert) (bits : Asn1Node) : Option (X509Cert × List Nat) :=
  let bp := if 1 < bits.len then bits.val + 1 else bits.val
  match asn1Parse mem bp (pred32 bits.len) with
  | none => none
  | some (none, t2) => some (cert, t2.reads)
  | some (some _, t2) =>
    let seq := t2.node 0
    if seq.tag = 0x30 ∧ 2 ≤ seq.children then
      let (cert, is) := readModulus mem cert (t2.child seq 0)
      let (cert, js) := readExponent mem cert (t2.child seq 1)
      some (cert, t2.reads ++ is ++ js)
    else some (cert, t2.reads)

def readPubkey (mem : Nat → UInt8) (t : Asn1Tree) (cert : X509Cert) :
    Option Asn1Node → Option (X509Cert × List Nat)
  | none => some (cert, [])
  | some pubkey =>
    match t.child pubkey 1 with
    | none => some (cert, [])
    | some bits => if bits.tag = 0x03 then readKey mem cert bits else some (cert, [])

/-- What `x509_parse_cert` takes from the table: the fields follow the version, if there is one. -/
def readCert (mem : Nat → UInt8) (t : Asn1Tree) (tbs : Asn1Node) : Option (X509Cert × List Nat) :=
  let off : Int := if (t.child tbs 0).any (fun ver => ver.tag = 0xA0) then 1 else 0
  let (cn, is) := readSubject mem t X509Cert.zero.cn (t.child tbs (5 + off))
  let (cert, js) := readValidity mem t { X509Cert.zero with cn := cn } (t.child tbs (4 + off))
  (readPubkey mem t cert (t.child tbs (6 + off))).map (fun r => (r.1, is ++ js ++ r.2))

/-- `x509_parse_cert` on `dlen` bytes: the certificate, or `none` for `-1`, and what has been
read. -/
def x509ParseCert (mem : Nat → UInt8) (dlen : Nat) : Option (Option X509Cert × List Nat) :=
  match asn1Parse mem 0 dlen with
  | none => none
  | some (none, t) => some (none, t.reads)
  | some (some _, t) =>
    let root := t.node 0
    if root.tag ≠ 0x30 then some (none, t.reads)
    else
      match t.child root 0 with
      | none => some (none, t.reads)
      | some tbs =>
        if tbs.tag ≠ 0x30 then some (none, t.reads)
        else (readCert mem t tbs).map (fun r => (some r.1, t.reads ++ r.2))

end PigOS.Crypto
