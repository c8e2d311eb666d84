import PigOS.Crypto.HttpClient

/-!
# `Crypto.Correctness.Requests` — what is sent of a request

`disc_http_send` takes the length of the piece it has just copied for the offset of the next one, so
that only as many bytes are sent as the last piece has (`length_discRequest`). `ws_connect` appends
only 9 of its 14 pieces (`wsRequest_eq`): the request ends behind `Sec-WebSocket-Key: `.
-/

namespace PigOS.Crypto

open Kernel List

@[simp] lemma length_strBytes (s : CStr) : (strBytes s).length = s.length := length_map _

lemma cText_append {l : List UInt8} (h : ∀ b ∈ l, b ≠ 0) (rest : List UInt8) : cText (l ++ rest) = l ++ cText rest :=
  takeWhile_append_of_pos (fun b hb => decide_eq_true (h b hb))

@[simp] lemma cText_zero (rest : List UInt8) : cText (0 :: rest) = [] := rfl

lemma strBytes_ne_zero (s : CStr) : ∀ b ∈ strBytes s, b ≠ 0 := by
  intro b hb
  obtain ⟨a, -, rfl⟩ := mem_map.mp hb
  exact a.property

/-! ## Arrays -/

section Patch

variable {buf : List UInt8} {off : Nat} (hoff : off ≤ buf.length) (bytes : List UInt8)
include hoff

lemma drop_patch : (patch buf off bytes).drop off = bytes ++ buf.drop (off + bytes.length) := by
  have hlen : (buf.take off).length = off := length_take_of_le hoff
  have hdrop : (buf.take off ++ (bytes ++ buf.drop (off + bytes.length))).drop (buf.take off).length = _ :=
    drop_left
  rw [hlen] at hdrop
  rw [patch, append_assoc]
  exact hdrop

lemma take_patch : (patch buf off bytes).take (off + bytes.length) = buf.take off ++ bytes := by
  have hlen : (buf.take off ++ bytes).length = off + bytes.length := by
    rw [length_append, length_take_of_le hoff]
  rw [patch, ← hlen, take_left]

lemma le_length_patch : off + bytes.length ≤ (patch buf off bytes).length := by
  rw [patch, length_append, length_append, length_take_of_le hoff]
  omega

end Patch

/-! ## `disc_http_send` -/

variable {r : List UInt8 × Nat}

/-- The step lemma: the new offset is the length of the piece, wherever it was copied to. -/
lemma discAppend_offset (hoff : r.2 ≤ r.1.length) (piece : CStr) :
    (discAppend r piece).2 = piece.length ∧ (discAppend r piece).2 ≤ (discAppend r piece).1.length := by
  have hstr : (discAppend r piece).2 = piece.length := by
    unfold discAppend
    simp only
    rw [drop_patch hoff, append_assoc, singleton_append, cText_append (strBytes_ne_zero piece),
      cText_zero, append_nil, length_strBytes]
  have hlen := le_length_patch hoff (strBytes piece ++ [0])
  rw [length_append, length_strBytes] at hlen
  refine ⟨hstr, ?_⟩
  rw [hstr]
  exact Nat.le_trans (by omega) hlen

lemma foldl_discAppend (hoff : r.2 ≤ r.1.length) (pieces : List CStr) (last : CStr) :
    ((pieces ++ [last]).foldl discAppend r).2 = last.length ∧
      ((pieces ++ [last]).foldl discAppend r).2 ≤ ((pieces ++ [last]).foldl discAppend r).1.length := by
  induction pieces generalizing r with
  | nil => exact discAppend_offset hoff last
  | cons piece pieces ih => exact ih (discAppend_offset hoff piece).2

/-- The last piece of the request. -/
def discLast (body : CStr) : CStr := if body ≠ [] then body else cstr "\r\n"

lemma discPieces_eq (method path token body : CStr) :
    ∃ pieces, discPieces method path token body = (method :: cstr " " :: pieces) ++ [discLast body] := by
  unfold discPieces discLast
  by_cases hbody : body ≠ []
  · have hsplit : [cstr "Content-Length: ", kiaNat body.length, cstr "\r\n\r\n", body] =
        [cstr "Content-Length: ", kiaNat body.length, cstr "\r\n\r\n"] ++ [body] := rfl
    rw [if_pos hbody, if_pos hbody, hsplit, ← append_assoc]
    exact ⟨_, rfl⟩
  · rw [if_neg hbody, if_neg hbody]
    exact ⟨_, rfl⟩

lemma length_discRequest (req : List UInt8) (method path token body : CStr) :
    (discRequest req method path token body).length = (discLast body).length := by
  obtain ⟨pieces, hpieces⟩ := discPieces_eq method path token body
  obtain ⟨hoff, hle⟩ := foldl_discAppend (r := (req, 0)) (Nat.zero_le _) (method :: cstr " " :: pieces) (discLast body)
  unfold discRequest
  rw [hpieces]
  simp only
  rw [length_take_of_le hle]
  exact hoff

/-! ## `ws_connect` -/

lemma foldl_wsAppend (hoff : r.2 ≤ r.1.length) (pieces : List CStr) :
    (pieces.foldl wsAppend r).1.take (pieces.foldl wsAppend r).2 = r.1.take r.2 ++ pieces.flatMap strBytes := by
  induction pieces generalizing r with
  | nil => exact (append_nil _).symm
  | cons piece pieces ih =>
    have htake := take_patch hoff (strBytes piece)
    have hle := le_length_patch hoff (strBytes piece)
    rw [length_strBytes] at htake hle
    rw [foldl_cons, ih hle, flatMap_cons, ← append_assoc]
    exact congrArg (· ++ _) htake

lemma wsRequest_eq (req : List UInt8) (s : UInt32) (host path : CStr) :
    wsRequest req s host path = ((wsPieces s host path).take 9).flatMap strBytes := by
  have h := foldl_wsAppend (r := (req, 0)) (Nat.zero_le _) ((wsPieces s host path).take 9)
  rw [take_zero, nil_append] at h
  exact h

/-! ## The result -/

/-- The request as the pieces in order. -/
def wholeRequest (pieces : List CStr) : List UInt8 := pieces.flatMap strBytes

lemma length_wholeRequest_concat (pieces : List CStr) (last : CStr) :
    (wholeRequest (pieces ++ [last])).length = (wholeRequest pieces).length + last.length := by
  unfold wholeRequest
  rw [flatMap_append, length_append, flatMap_singleton, length_strBytes]

/-- **No request is sent as it was put together**: what `tls_send` gets is not the pieces in
order. -/
theorem requests_incomplete (method path token body host : CStr) (s : UInt32) :
    (∀ req, req.length = 2048 → (wholeRequest (discPieces method path token body)).length < 2048 →
      discRequest req method path token body ≠ wholeRequest (discPieces method path token body)) ∧
    (∀ req, req.length = 512 → (wholeRequest (wsPieces s host path)).length ≤ 512 →
      wsRequest req s host path ≠ wholeRequest (wsPieces s host path)) := by
  constructor
  · intro req _ _ heq
    have hlen := congrArg length heq
    obtain ⟨pieces, hpieces⟩ := discPieces_eq method path token body
    rw [length_discRequest, hpieces, length_wholeRequest_concat] at hlen
    -- the space alone is missing already
    have hpos : 0 < (wholeRequest (method :: cstr " " :: pieces)).length := by
      unfold wholeRequest
      rw [flatMap_cons, flatMap_cons, length_append, length_append, length_strBytes,
        length_strBytes]
      have hspace : (cstr " ").length = 1 := rfl
      omega
    omega
  · intro req _ _ heq
    rw [wsRequest_eq] at heq
    have hsplit : wholeRequest (wsPieces s host path) =
        ((wsPieces s host path).take 9).flatMap strBytes ++ ((wsPieces s host path).drop 9).flatMap strBytes := by
      rw [← flatMap_append, take_append_drop]
      rfl
    rw [hsplit] at heq
    have hrest := self_eq_append_right.mp heq
    -- the request does not end in an empty line
    have hlast := flatMap_eq_nil_iff.mp hrest (cstr "\r\n") (by simp [wsPieces])
    exact absurd hlast (by decide)

/-- An array that holds nothing but zeros. -/
def blank (n : Nat) : List UInt8 := replicate n 0

theorem requests_incomplete_guilds :
    discRequest (blank 2048) (cstr "GET") (cstr "/api/v9/users/@me/guilds") [] [] ≠
      wholeRequest (discPieces (cstr "GET") (cstr "/api/v9/users/@me/guilds") [] []) :=
  (requests_incomplete _ _ _ _ [] 0).1 _ length_replicate (by decide +kernel)

/-- `GET /`: as many bytes are sent as the empty line has. The handshake of a WebSocket lacks its
key. -/
theorem requests_incomplete_root :
    discRequest (blank 2048) (cstr "GET") (cstr "/") [] [] ≠ wholeRequest (discPieces (cstr "GET") (cstr "/") [] []) ∧
    wsRequest (blank 512) 0xABCDEF01 (cstr "gateway.discord.gg") (cstr "/") =
      strBytes (cstr ("GET / HTTP/1.1\r\nHost: gateway.discord.gg\r\nUpgrade: websocket\r\n" ++
        "Connection: Upgrade\r\nSec-WebSocket-Key: ")) := by
  constructor
  · intro h
    have hlen := congrArg length h
    rw [length_discRequest] at hlen
    exact absurd hlen (by decide +kernel)
  · rw [wsRequest_eq]
    decide +kernel

end PigOS.Crypto
