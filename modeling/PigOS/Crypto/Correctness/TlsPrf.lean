import PigOS.Crypto.TlsConnect

/-!
# `Crypto.Correctness.TlsPrf` — `tls_prf` and the PRF of TLS 1.2

`pHash` is P_hash of RFC 5246 section 5. `tls_prf` takes its key for the `A(i)` from `a` instead of
the secret, and feeds the seed into every `A(i)` after the first. The first block is right as long
as the secret fits the 32 bytes that are copied; a second one is right only where nothing is fed.
-/

namespace PigOS.Crypto

open Kernel List

variable {a a₀ : Nat → UInt8} {rounds i left : Nat}

/-! ## The PRF -/

section Spec

variable (hmac : List UInt8 → List UInt8 → Mac) (secret text : List UInt8)

/-- `rounds` blocks `HMAC(secret, A(i) ++ text)`, where `A(i+1) = HMAC(secret, A(i))`. -/
def blocks : Nat → List UInt8 → List UInt8
  | 0, _ => []
  | rounds + 1, a => (hmac secret (a ++ text)).val ++ blocks rounds (hmac secret a).val

/-- The first `olen` bytes of P_hash. -/
def pHash (olen : Nat) : List UInt8 :=
  (blocks hmac secret text ((olen + 31) / 32) (hmac secret text).val).take olen

end Spec

/-! ## The arrays -/

@[simp] lemma mac_length (mac : Mac) : mac.val.length = 32 := mac.property

@[simp] lemma front_length (a : Nat → UInt8) (n : Nat) : (front a n).length = n := by
  simp [front]

lemma front_overlay {bytes : List UInt8} {n : Nat} (h : n ≤ bytes.length) :
    front (overlay a bytes) n = bytes.take n := by
  apply ext_getElem?
  intro i
  by_cases hi : i < n
  · have hi' : i < bytes.length := by omega
    simp [front, overlay, hi, hi']
  · simp [front, hi]

lemma front_mac (a : Nat → UInt8) (mac : Mac) : front (overlay a mac.val) 32 = mac.val := by
  rw [front_overlay (by rw [mac_length]), take_of_length_le (by rw [mac_length])]

lemma aSeed_length (stale : Nat → Nat → UInt8) (label seed : List UInt8) (i : Nat) (a : Nat → UInt8) :
    (aSeed stale label seed i a).length = min (32 + seedTotal label seed) 256 := by
  simp [aSeed]

/-! ## The rounds -/

variable {text : List UInt8}

section Rounds

variable {hmac : List UInt8 → List UInt8 → Mac} {stale : Nat → Nat → UInt8} {secret label seed : List UInt8}

/-- The next `a`. -/
def nextA (hmac : List UInt8 → List UInt8 → Mac) (stale : Nat → Nat → UInt8) (secret label seed : List UInt8) (i : Nat)
    (a : Nat → UInt8) : Mac :=
  hmac (front a secret.length) (aSeed stale label seed i a)

variable {olen : Nat}

lemma rounds_succ (h : 0 < olen) : ∃ n, (olen + 31) / 32 = n + 1 :=
  ⟨(olen - 1) / 32, by omega⟩

/-- The key that `a` has for the first HMAC. -/
def firstKey (a₀ : Nat → UInt8) (secret : List UInt8) : List UInt8 :=
  front (overlay a₀ (secret.take 32)) secret.length

/-- `a` before the loop. -/
def firstA (hmac : List UInt8 → List UInt8 → Mac) (a₀ : Nat → UInt8) (secret text : List UInt8) : Nat → UInt8 :=
  overlay (overlay a₀ (secret.take 32)) (hmac (firstKey a₀ secret) text).val

lemma firstKey_of_le (h : secret.length ≤ 32) : firstKey a₀ secret = secret := by
  rw [firstKey, take_of_length_le h, front_overlay le_rfl, List.take_length]

lemma front_firstA :
    front (firstA hmac a₀ secret text) 32 = (hmac (firstKey a₀ secret) text).val := front_mac _ _

lemma pHash_first (holen : 0 < olen) :
    (pHash hmac secret text olen)[0]? = (hmac secret ((hmac secret text).val ++ text)).val[0]? := by
  obtain ⟨n, hn⟩ := rounds_succ holen
  rw [pHash, hn, blocks, getElem?_take_of_lt holen, getElem?_append_left (by rw [mac_length]; omega)]

lemma pHash_second (holen : 32 < olen) : (pHash hmac secret text olen)[32]? =
      (hmac secret ((hmac secret (hmac secret text).val).val ++ text)).val[0]? := by
  obtain ⟨n, hn⟩ : ∃ n, (olen + 31) / 32 = n + 1 + 1 := ⟨(olen - 33) / 32, by omega⟩
  rw [pHash, hn, blocks, blocks, getElem?_take_of_lt holen,
    getElem?_append_right (by rw [mac_length]), getElem?_append_left, mac_length]
  rw [mac_length, mac_length]
  omega

variable (h : (label ++ seed).length ≤ 200)

include h

lemma pBuf_text : (label ++ seed).take (32 + seedTotal label seed) = label ++ seed := by
  apply take_of_length_le
  simp only [length_append, seedTotal] at h ⊢
  omega

lemma seedBuf_text : (label ++ seed).take 256 = label ++ seed :=
  take_of_length_le (by omega)

lemma prfLoop_round (hleft : 0 < left) :
    prfLoop hmac stale secret label seed (rounds + 1) i left a =
      (hmac secret (front a 32 ++ (label ++ seed))).val.take (min left 32) ++
        prfLoop hmac stale secret label seed rounds (i + 1) (left - min left 32)
          (overlay a (nextA hmac stale secret label seed i a).val) := by
  rw [prfLoop, if_neg (by omega), pBuf_text h]
  rfl

lemma tlsPrf_eq : tlsPrf hmac stale secret label seed a₀ olen =
      prfLoop hmac stale secret label seed ((olen + 31) / 32) 0 olen (firstA hmac a₀ secret (label ++ seed)) := by
  rw [tlsPrf, seedBuf_text h]
  rfl

lemma tlsPrf_first (holen : 0 < olen) :
    (tlsPrf hmac stale secret label seed a₀ olen)[0]? =
      (hmac secret ((hmac (firstKey a₀ secret) (label ++ seed)).val ++ (label ++ seed))).val[0]? := by
  obtain ⟨n, hn⟩ := rounds_succ holen
  rw [tlsPrf_eq h, hn, prfLoop_round h holen, front_firstA, getElem?_append_left, getElem?_take_of_lt (by omega)]
  rw [length_take, mac_length]
  omega

lemma tlsPrf_second (holen : 32 < olen) :
    (tlsPrf hmac stale secret label seed a₀ olen)[32]? =
      (hmac secret ((nextA hmac stale secret label seed 0 (firstA hmac a₀ secret (label ++
        seed))).val ++ (label ++ seed))).val[0]? := by
  obtain ⟨n, hn⟩ : ∃ n, (olen + 31) / 32 = n + 1 + 1 := ⟨(olen - 33) / 32, by omega⟩
  rw [tlsPrf_eq h, hn, prfLoop_round h (by omega), prfLoop_round h (by omega), front_mac, Nat.min_eq_right (by omega),
    getElem?_append_right (by simp), getElem?_append_left]
  · rw [length_take, mac_length, getElem?_take_of_lt (by omega)]
    rfl
  · rw [length_take, length_take, mac_length, mac_length]
    omega

/-! ## Where it is right -/

lemma tlsPrf_one_block (hs : secret.length ≤ 32) (holen : olen ≤ 32) :
    tlsPrf hmac stale secret label seed a₀ olen = pHash hmac secret (label ++ seed) olen := by
  rcases Nat.eq_zero_or_pos olen with rfl | hpos
  · simp [tlsPrf, prfLoop, pHash]
  · have hone : (olen + 31) / 32 = 0 + 1 := by omega
    rw [tlsPrf_eq h, pHash, hone, prfLoop_round h hpos, front_firstA, firstKey_of_le hs]
    simp [prfLoop, blocks, Nat.min_eq_left holen]

omit h in
lemma prfLoop_nil (hrounds : left ≤ 32 * rounds) :
    prfLoop hmac stale [] [] [] rounds i left a = (blocks hmac [] [] rounds (front a 32)).take left := by
  induction rounds generalizing i left a with
  | zero =>
    have : left = 0 := by omega
    simp [prfLoop, blocks]
  | succ rounds ih =>
    rcases Nat.eq_zero_or_pos left with rfl | hpos
    · simp [prfLoop]
    · have hnext : nextA hmac stale [] [] [] i a = hmac [] (front a 32) := by
        have hseed : aSeed stale [] [] i a = front a 32 := by
          show front (overlay (stale i) (front a 32 ++ [])) 32 = front a 32
          rw [append_nil, front_overlay (by simp), take_of_length_le (by simp)]
        rw [nextA, hseed]
        rfl
      rw [prfLoop_round (by simp) hpos, ih (by omega), hnext, front_mac, blocks, take_append,
        mac_length]
      simp only [append_nil]
      congr 1
      · rcases Nat.le_total left 32 with hle | hle
        · rw [Nat.min_eq_left hle]
        · rw [Nat.min_eq_right hle, take_of_length_le (by rw [mac_length]),
            take_of_length_le (by rw [mac_length]; exact hle)]
      · congr 1
        omega

omit h in
lemma tlsPrf_nil : tlsPrf hmac stale [] [] [] a₀ olen = pHash hmac [] [] olen := by
  have hkey : firstKey a₀ [] = [] := rfl
  rw [tlsPrf_eq (by simp), prfLoop_nil (by omega), front_firstA, hkey]
  rfl

end Rounds

/-! ## Where it is not -/

/-- A MAC all of one byte. -/
def monoMac (b : UInt8) : Mac := ⟨replicate 32 b, length_replicate⟩

/-- What the MACs below say of a message: whether it starts with a zero. It is never zero itself. -/
def mark (msg : List UInt8) : UInt8 := if msg.head? = some 0 then 2 else 1

lemma mark_ne_zero (msg : List UInt8) : mark msg ≠ 0 := by
  unfold mark
  split <;> decide

lemma mark_zero (rest : List UInt8) : mark ((monoMac 0).val ++ rest) = 2 := rfl

lemma mark_of_ne {b : UInt8} (h : b ≠ 0) (rest : List UInt8) : mark ((monoMac b).val ++ rest) = 1 :=
  if_neg fun heq => h (Option.some.inj heq)

section Differs

variable {secret label seed : List UInt8} {olen : Nat}

/-- A MAC that tells the keys apart: the first block depends on the key of `A(1)`. -/
def keyMac (secret key msg : List UInt8) : Mac :=
  monoMac (if key = secret then mark msg else 0)

/-- A secret of more than 32 bytes: the key ends with what was in `a`. -/
lemma tlsPrf_long_secret (h : (label ++ seed).length ≤ 200) (hs : 32 < secret.length) (holen : 0 < olen) :
    ∃ hmac a₀ stale, tlsPrf hmac stale secret label seed a₀ olen ≠ pHash hmac secret (label ++ seed) olen := by
  let a₀ : Nat → UInt8 := fun i => secret.getD i 0 + 1
  have hkey : firstKey a₀ secret ≠ secret := by
    intro heq
    have h32 := congrArg (fun l => l[32]?) heq
    simp [firstKey, front, overlay, a₀, hs] at h32
  refine ⟨keyMac secret, a₀, fun _ _ => 0, fun heq => ?_⟩
  have h0 := congrArg (fun l => l[0]?) heq
  simp only [tlsPrf_first h holen, pHash_first holen, keyMac, if_neg hkey, ↓reduceIte] at h0
  rw [mark_zero, mark_of_ne (mark_ne_zero _)] at h0
  exact absurd h0 (by decide)

/-- A MAC that tells the lengths of the messages apart. -/
def lengthMac (_key msg : List UInt8) : Mac :=
  monoMac (if msg.length = 32 then 0 else mark msg)

/-- A second block, with something to feed: the seed goes into `A(2)`. -/
lemma tlsPrf_fed (secret : List UInt8) (h : (label ++ seed).length ≤ 200)
    (hfed : 0 < (label ++ seed).length) (holen : 32 < olen) :
    ∃ hmac a₀ stale, tlsPrf hmac stale secret label seed a₀ olen ≠ pHash hmac secret (label ++ seed) olen := by
  refine ⟨lengthMac, fun _ => 0, fun _ _ => 0, fun heq => ?_⟩
  have h32 := congrArg (fun l => l[32]?) heq
  beta_reduce at h32
  have hlong : ∀ mac : Mac, (mac.val ++ (label ++ seed)).length ≠ 32 := by
    intro mac
    rw [length_append, mac_length]
    omega
  have hmac32 : ∀ mac : Mac, lengthMac secret mac.val = monoMac 0 := by
    intro mac
    rw [lengthMac, mac_length, if_pos rfl]
  have haSeed : ∀ a, (aSeed (fun _ _ => 0) label seed 0 a).length ≠ 32 := by
    intro a
    rw [aSeed_length, seedTotal]
    rw [length_append] at h hfed
    omega
  rw [tlsPrf_second h holen, pHash_second holen, hmac32] at h32
  simp only [nextA, lengthMac, if_neg (hlong _), if_neg (haSeed _)] at h32
  rw [mark_zero, mark_of_ne (mark_ne_zero _)] at h32
  exact absurd h32 (by decide)

/-- A MAC of the empty text that does not begin as the secret does, and tells the keys apart. -/
def startMac (secret key msg : List UInt8) : Mac :=
  monoMac (if key = secret then (if msg = [] then secret.headD 0 + 1 else mark msg) else 0)

lemma startMac_keyed {msg : List UInt8} (h : msg ≠ []) : startMac secret secret msg = monoMac (mark msg) := by
  rw [startMac, if_pos rfl, if_neg h]

lemma monoMac_ne_nil (b : UInt8) (rest : List UInt8) : (monoMac b).val ++ rest ≠ [] := by
  simp [monoMac]

/-- A second block, with nothing to feed but a secret: the key of `A(2)` is the start of `A(1)`. -/
lemma tlsPrf_keyed (hs : secret ≠ []) (hs32 : secret.length ≤ 32) (holen : 32 < olen) :
    ∃ hmac a₀ stale, tlsPrf hmac stale secret [] [] a₀ olen ≠ pHash hmac secret ([] ++ []) olen := by
  refine ⟨startMac secret, fun _ => 0, fun _ _ => 0, fun heq => ?_⟩
  have hA1 : startMac secret secret [] = monoMac (secret.headD 0 + 1) := by
    rw [startMac, if_pos rfl, if_pos rfl]
  have hkey : ∀ a, front (overlay a (monoMac (secret.headD 0 + 1)).val) secret.length ≠ secret := by
    intro a hfront
    obtain ⟨c, rest, rfl⟩ := exists_cons_of_ne_nil hs
    have hhead := congrArg List.head? hfront
    simp [front, overlay, monoMac, range_succ_eq_map] at hhead
  have hA2 : nextA (startMac secret) (fun _ _ => 0) secret [] [] 0 (firstA (startMac secret) (fun _ => 0) secret []) =
      monoMac 0 := by
    rw [nextA, firstA, firstKey_of_le hs32, hA1, startMac, if_neg (hkey _)]
  have h32 := congrArg (fun l => l[32]?) heq
  beta_reduce at h32
  rw [tlsPrf_second (by simp) holen, pHash_second holen, append_nil, hA2, hA1, ← append_nil (monoMac (_ + 1)).val,
    startMac_keyed (monoMac_ne_nil _ _), startMac_keyed (monoMac_ne_nil _ _),
    startMac_keyed (monoMac_ne_nil _ _), mark_zero,
    mark_of_ne (mark_ne_zero _)] at h32
  exact absurd h32 (by decide)

end Differs

/-! ## When `tls_prf` is the PRF -/

/-- **`tls_prf` writes the PRF**, for every MAC and whatever its arrays held, exactly when it writes
nothing, when one block is asked for and the secret fits, or when secret, label and seed are
empty. -/
theorem tlsPrf_pHash_iff (secret label seed : List UInt8) (olen : Nat) (_hsecret : secret.length ≤ 64)
    (htext : (label ++ seed).length ≤ 200) :
    (∀ hmac a₀ stale, tlsPrf hmac stale secret label seed a₀ olen = pHash hmac secret (label ++ seed) olen) ↔
      olen = 0 ∨ (secret.length ≤ 32 ∧ olen ≤ 32) ∨ (secret = [] ∧ label = [] ∧ seed = []) := by
  constructor
  · intro hall
    by_contra hbad
    obtain ⟨hpos, hblock, hnil⟩ : 0 < olen ∧ ¬(secret.length ≤ 32 ∧ olen ≤ 32) ∧
        ¬(secret = [] ∧ label = [] ∧ seed = []) := by
      refine ⟨Nat.pos_of_ne_zero fun h => hbad (Or.inl h), fun h => hbad (Or.inr (Or.inl h)),
        fun h => hbad (Or.inr (Or.inr h))⟩
    rcases Nat.lt_or_ge 32 secret.length with hlong | hs
    · obtain ⟨hmac, a₀, stale, hne⟩ := tlsPrf_long_secret htext hlong hpos
      exact hne (hall hmac a₀ stale)
    · have holen : 32 < olen := by omega
      rcases Nat.eq_zero_or_pos (label ++ seed).length with hzero | hfed
      · obtain ⟨rfl, rfl⟩ := append_eq_nil_iff.mp (length_eq_zero_iff.mp hzero)
        have hsecret : secret ≠ [] := fun h => hnil ⟨h, rfl, rfl⟩
        obtain ⟨hmac, a₀, stale, hne⟩ := tlsPrf_keyed hsecret hs holen
        exact hne (hall hmac a₀ stale)
      · obtain ⟨hmac, a₀, stale, hne⟩ := tlsPrf_fed secret htext hfed holen
        exact hne (hall hmac a₀ stale)
  · rintro (rfl | ⟨hs, holen⟩ | ⟨rfl, rfl, rfl⟩) hmac a₀ stale
    · simp [tlsPrf, prfLoop, pHash]
    · exact tlsPrf_one_block htext hs holen
    · exact tlsPrf_nil

/-- One block from a secret of 32 bytes is right. -/
theorem tlsPrf_pHash_block :
    (replicate 32 (7 : UInt8)).length ≤ 64 ∧ ∀ hmac a₀ stale,
    tlsPrf hmac stale (replicate 32 7) [65] [66] a₀ 32 =
      pHash hmac (replicate 32 7) ([65] ++ [66]) 32 :=
  ⟨by decide, (tlsPrf_pHash_iff (replicate 32 7) [65] [66] 32 (by decide) (by decide)).mpr
    (Or.inr (Or.inl ⟨by decide, by decide⟩))⟩

/-- The key block of a master secret of 48 bytes: the last 16 bytes of the first key are those of
the stack. -/
theorem tlsPrf_key_block : ∃ hmac a₀ stale,
    tlsPrf hmac stale (replicate 48 7) ((cstr "key expansion").map Subtype.val) (replicate 64 1) a₀ 104 ≠
      pHash hmac (replicate 48 7) (((cstr "key expansion").map Subtype.val) ++ replicate 64 1) 104 :=
  tlsPrf_long_secret (by decide) (by decide) (by decide)

end PigOS.Crypto
