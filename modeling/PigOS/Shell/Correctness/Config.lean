import Mathlib.Data.List.TakeWhile
import PigOS.Shell.Config

/-!
# `Shell.Correctness.Config` — what the configuration readers make of a line

Neither reader looks further than the end of the line it handles. `rtVerdict` says what a line tells
`rt_cfg` about a key, `mcfgVerdict` which key a line sets for `mcfg_load` and to what.
`rtLine_handles` and `mcfgLine_handles` are the step lemmas, which `LineScan.scan_eq` carries to the
whole text.
-/

namespace PigOS.Shell

open List

variable {k : Nat} {s key : CStr}
namespace Conf

open Kernel LineScan
open Option (bind_some)

/-! ## Bytes of a line -/

section Line

variable {w t : CStr}

lemma peek_of_lt (t : CStr) (hk : k < w.length) : peek (w ++ t) k = some (w.get ⟨k, hk⟩).val := by
  have hne : k ≠ (w ++ t).length := by
    rw [length_append]
    omega
  rw [peek, if_neg hne, getElem?_append_left hk, getElem?_eq_getElem hk]
  rfl

lemma peek_length (w : CStr) (ht : ∀ a ∈ t.head?, isEnd a = true) :
    ∃ b, peek (w ++ t) w.length = some b ∧ ∀ c : CChar, isEnd c = false → b ≠ c := by
  cases t with
  | nil =>
    rw [append_nil, peek, if_pos rfl]
    exact ⟨0, rfl, fun c _ h => c.property h.symm⟩
  | cons a t =>
    have ha : isEnd a = true := ht a rfl
    have hne : w.length ≠ (w ++ a :: t).length := by simp
    rw [peek, if_neg hne, getElem?_append_right (Nat.le_refl _), Nat.sub_self]
    refine ⟨a, rfl, ?_⟩
    intro c hc h
    rw [← Subtype.ext h, ha] at hc
    exact absurd hc (by simp)

lemma drop_eq_get_cons (hk : k < w.length) : w.drop k = w.get ⟨k, hk⟩ :: w.drop (k + 1) :=
  drop_eq_getElem_cons hk

lemma compare_cons (c d : CChar) (s u : CStr) :
    (if d.val ≠ c.val then some false else some (decide (s <+: u))) = some (decide (c :: s <+: d :: u)) := by
  by_cases hc : c = d
  · rw [if_neg (fun h => h (congrArg Subtype.val hc.symm))]
    simp [cons_prefix_cons, hc]
  · rw [if_pos (fun h => hc (Subtype.ext h.symm))]
    simp [cons_prefix_cons, hc]

lemma matchAt_inside (t : CStr) (s : CStr) (hk : k + s.length ≤ w.length) :
    matchAt (w ++ t) k s = some (decide (s <+: w.drop k)) := by
  induction s generalizing k with
  | nil => simp [matchAt]
  | cons c s ih =>
    rw [length_cons] at hk
    have hlt : k < w.length := by omega
    rw [matchAt, peek_of_lt t hlt, bind_some, ih (by omega), compare_cons, drop_eq_get_cons hlt]

/-- A comparison with a text that has no end of a line fails at the end at the latest. -/
lemma matchAt_line (ht : ∀ a ∈ t.head?, isEnd a = true) (hs : ∀ c ∈ s, isEnd c = false)
    (hk : k ≤ w.length) : matchAt (w ++ t) k s = some (decide (s <+: w.drop k)) := by
  induction s generalizing k with
  | nil => simp [matchAt]
  | cons c s ih =>
    rw [forall_mem_cons] at hs
    rcases Nat.lt_or_ge k w.length with hlt | hge
    · rw [matchAt, peek_of_lt t hlt, bind_some, ih hs.2 hlt, compare_cons, drop_eq_get_cons hlt]
    · obtain rfl : k = w.length := Nat.le_antisymm hk hge
      obtain ⟨b, hb, hend⟩ := peek_length w ht
      rw [matchAt, hb, bind_some, if_pos (hend c hs.1), drop_length]
      simp

lemma matchKey_eq (t : CStr) (s : CStr) (hk : k ≤ w.length) :
    matchKey (w ++ t) w.length k s = some (decide (s <+: w.drop k)) := by
  induction s generalizing k with
  | nil => simp [matchKey]
  | cons c s ih =>
    rw [matchKey]
    by_cases hlt : k < w.length
    · rw [if_neg (by omega), peek_of_lt t hlt, bind_some, ih hlt, compare_cons, drop_eq_get_cons hlt]
    · obtain rfl : k = w.length := by omega
      rw [if_pos (Nat.le_refl _), drop_length]
      simp

end Line

lemma append_isPrefix_iff {a b w : CStr} : a ++ b <+: w ↔ a <+: w ∧ b <+: w.drop a.length := by
  constructor
  · rintro ⟨r, rfl⟩
    rw [append_assoc, drop_left]
    exact ⟨prefix_append _ _, prefix_append _ _⟩
  · rintro ⟨⟨r, rfl⟩, hb⟩
    rw [drop_left] at hb
    exact (prefix_append_right_inj a).mpr hb

/-! ## `rt_cfg` -/

/-- What a line tells `rt_cfg` about a key. -/
def rtVerdict (key w : CStr) : Option Bool :=
  if config ++ key <+: w then
    if cstr "=y" <+: w.drop (7 + key.length) then some true
    else if cstr " i" <+: w.drop (7 + key.length) ∧ 7 + key.length + 10 ≤ w.length then some false
    else none
  else none

lemma noEnd_of_all (h : s.all (fun c => !isEnd c) = true) : ∀ c ∈ s, isEnd c = false := by
  intro c hc
  simpa using all_eq_true.mp h c hc

lemma config_noEnd : ∀ c ∈ config, isEnd c = false := noEnd_of_all (by decide)

lemma yes_noEnd : ∀ c ∈ cstr "=y", isEnd c = false := noEnd_of_all (by decide)

lemma is_noEnd : ∀ c ∈ cstr " i", isEnd c = false := noEnd_of_all (by decide)

lemma config_length : config.length = 7 := by decide

lemma get_ne_hash {w : CStr} (hw : 0 < w.length) (h : config <+: w) : w.get ⟨0, hw⟩ ≠ hash := by
  obtain ⟨r, rfl⟩ := h
  show chr 'C' ≠ hash
  decide

lemma rtVerdict_of_not_isPrefix {w : CStr} (h : ¬ config <+: w) : rtVerdict key w = none := by
  rw [rtVerdict, if_neg]
  rw [append_isPrefix_iff]
  exact fun hw => h hw.1

lemma rtLine_handles (key : CStr) : Handles isEnd (rtLine key) (fun _ w => (rtVerdict key w).elim (.inl ()) .inr) := by
  intro _ w t _ ht
  show rtLine key () (w ++ t) w.length = some ((rtVerdict key w).elim (.inl ()) .inr)
  rw [rtLine]
  by_cases hlen : w.length < 8
  · -- too short for a key with anything behind it
    have hnone : rtVerdict key w = none := by
      rw [rtVerdict]
      split
      · rw [drop_eq_nil_of_le (by omega), if_neg (by decide), if_neg (fun h => absurd h.2 (by omega))]
      · rfl
    rw [if_pos hlen, hnone]
    rfl
  · have hpos : 0 < w.length := by omega
    rw [if_neg hlen, peek_of_lt t hpos, bind_some]
    by_cases hhash : w.get ⟨0, hpos⟩ = hash
    · rw [if_pos (congrArg Subtype.val hhash), rtVerdict_of_not_isPrefix (fun h => get_ne_hash hpos h hhash)]
      rfl
    · rw [if_neg (fun h => hhash (Subtype.ext h)), matchAt_line ht config_noEnd (Nat.zero_le _), drop_zero,
        bind_some]
      by_cases hconfig : config <+: w
      · rw [decide_eq_true hconfig, if_neg (by decide), matchKey_eq t key (by omega), bind_some]
        by_cases hkey : key <+: w.drop 7
        · have hpre : config ++ key <+: w := append_isPrefix_iff.mpr ⟨hconfig, hkey⟩
          have hle := hpre.length_le
          rw [length_append, config_length] at hle
          have hyes : (if 7 + key.length < w.length then matchAt (w ++ t) (7 + key.length)
              (cstr "=y") else some false) =
              some (decide (cstr "=y" <+: w.drop (7 + key.length))) := by
            split
            · exact matchAt_line ht yes_noEnd hle
            · rw [drop_eq_nil_of_le (by omega)]
              rfl
          have his : (if 7 + key.length + 10 ≤ w.length then matchAt (w ++ t) (7 + key.length) (cstr " i")
                else some false) =
              some (decide (cstr " i" <+: w.drop (7 + key.length) ∧ 7 + key.length + 10 ≤ w.length)) := by
            split
            · rename_i h10
              rw [matchAt_line ht is_noEnd hle]
              simp [h10]
            · rename_i h10
              simp [h10]
          rw [decide_eq_true hkey, if_neg (by decide), rtVerdict, if_pos hpre]
          dsimp only
          rw [hyes, bind_some, his, bind_some]
          by_cases h₁ : cstr "=y" <+: w.drop (7 + key.length)
          · simp [h₁]
          · by_cases h₂ : cstr " i" <+: w.drop (7 + key.length) ∧ 7 + key.length + 10 ≤ w.length
            · simp [h₁, h₂]
            · simp [h₁, h₂]
        · have hnone : rtVerdict key w = none := by
            rw [rtVerdict, if_neg]
            rw [append_isPrefix_iff]
            exact fun h => hkey h.2
          rw [decide_eq_false hkey, if_pos rfl, hnone]
          rfl
      · rw [decide_eq_false hconfig, if_pos rfl, rtVerdict_of_not_isPrefix hconfig]
        rfl

/-- The lines of a text. -/
def lines (text : CStr) : List CStr := text.splitOnP isEnd

/-- **`rt_cfg` on the lines**: the first with a verdict decides; without one, the loop runs off the
text. -/
theorem rtCfg_eq (fs : Pigfs) (key : CStr) : rtCfg fs key = if confText fs = [] then .returned true
      else ((lines (confText fs)).findSome? (rtVerdict key)).elim (.outside ()) .returned := by
  unfold rtCfg
  simp only
  split
  · rfl
  · rw [scan_eq (rtLine_handles key), runLines_verdict]
    rfl

/-! ## `mcfg_load` -/

/-- The bytes of a key: everything but what ends one. -/
def keyByte (b : CChar) : Bool := b ≠ equalSign && b ≠ space

/-- A line without the mark of a comment and the byte behind it. -/
def uncomment (w : CStr) : CStr := if w.head? = some hash then w.drop 2 else w

/-- The key that a line sets for `mcfg_load`, and its value. A comment sets it as well, to 0. -/
def mcfgVerdict (w : CStr) : Option (CStr × Bool) :=
  if 8 ≤ w.length ∧ config <+: uncomment w then
    let r := (uncomment w).drop 7
    let key := r.takeWhile keyByte
    some (key, w.head? ≠ some hash && decide (cstr "=y" <+: r.drop key.length))
  else none

/-- The first item with a key gets a value. -/
def assign (key : CStr) (v : Bool) : List MCfgItem → List MCfgItem
  | [] => []
  | it :: items => if it.key = key then { it with val := v } :: items else it :: assign key v items

/-- What a line does to the items. -/
def mcfgStep (items : List MCfgItem) (w : CStr) : List MCfgItem :=
  (mcfgVerdict w).elim items (fun kv => assign kv.1 kv.2 items)

section Load

variable {w t : CStr}

lemma keyEnd_eq (t : CStr) {n : Nat} (hk : k ≤ w.length) (hn : w.length ≤ n + k) :
    keyEnd (w ++ t) w.length n k = some (k + ((w.drop k).takeWhile keyByte).length) := by
  induction n generalizing k with
  | zero =>
    obtain rfl : k = w.length := by omega
    rw [keyEnd, drop_length]
    rfl
  | succ n ih =>
    rw [keyEnd]
    rcases Nat.lt_or_ge k w.length with hlt | hge
    · rw [if_neg (by omega), peek_of_lt t hlt, bind_some, drop_eq_get_cons hlt]
      by_cases hb : w.get ⟨k, hlt⟩ = equalSign ∨ w.get ⟨k, hlt⟩ = space
      · have hval : (w.get ⟨k, hlt⟩).val = equalSign ∨ (w.get ⟨k, hlt⟩).val = space :=
          hb.imp (congrArg Subtype.val) (congrArg Subtype.val)
        rw [if_pos hval, takeWhile_cons_of_neg]
        · rfl
        · rcases hb with hb | hb <;> rw [hb] <;> decide
      · have hval : ¬ ((w.get ⟨k, hlt⟩).val = equalSign ∨ (w.get ⟨k, hlt⟩).val = space) :=
          fun h => hb (h.imp Subtype.ext Subtype.ext)
        have hkey : keyByte (w.get ⟨k, hlt⟩) = true := by
          rw [not_or] at hb
          simp only [keyByte, decide_eq_true hb.1, decide_eq_true hb.2, Bool.and_self, ne_eq]
        rw [if_neg hval, ih (k := k + 1) hlt (by omega), takeWhile_cons_of_pos hkey, length_cons]
        congr 1
        omega
    · obtain rfl : k = w.length := Nat.le_antisymm hk hge
      rw [if_pos (Nat.le_refl _), drop_length]
      rfl

/-- The loop over the items, for a key that stands in the line at `k`. -/
lemma mcfgAssign_eq (ht : ∀ a ∈ t.head?, isEnd a = true) (c : CChar) (hkey : key <+: w.drop k)
    (hk : k + key.length ≤ w.length) (items : List MCfgItem) :
    mcfgAssign (w ++ t) c k (k + key.length) items =
      some (assign key (c ≠ hash && decide (cstr "=y" <+: w.drop (k + key.length))) items) := by
  induction items with
  | nil => rfl
  | cons it items ih =>
    have hmatch : (if k + key.length - k = it.key.length then matchAt (w ++ t) k it.key else some false) =
        some (decide (it.key = key)) := by
      split
      · rename_i hlen
        rw [Nat.add_sub_cancel_left] at hlen
        rw [matchAt_inside t it.key (by omega)]
        congr 1
        rw [decide_eq_decide]
        constructor
        · intro hpre
          exact List.IsPrefix.eq_of_length (prefix_of_prefix_length_le hpre hkey (by omega)) hlen.symm
        · rintro rfl
          exact hkey
      · rename_i hlen
        rw [Nat.add_sub_cancel_left] at hlen
        rw [decide_eq_false (fun h => hlen (congrArg length h.symm))]
    have hval : (if c.val = hash then some false else matchAt (w ++ t) (k + key.length) (cstr "=y")) =
        some (c ≠ hash && decide (cstr "=y" <+: w.drop (k + key.length))) := by
      by_cases hc : c = hash
      · rw [if_pos (congrArg Subtype.val hc), hc]
        rfl
      · rw [if_neg (fun h => hc (Subtype.ext h)), matchAt_line ht yes_noEnd hk, decide_eq_true hc, Bool.true_and]
    rw [mcfgAssign, hmatch, bind_some, hval, ih, assign]
    by_cases hit : it.key = key
    · rw [if_pos hit, decide_eq_true hit, if_pos rfl]
      rfl
    · rw [if_neg hit, decide_eq_false hit, if_neg (by decide)]
      rfl

end Load

lemma mcfgLine_handles : Handles isEnd mcfgLine (fun items w => .inl (mcfgStep items w)) := by
  intro items w t _ ht
  show mcfgLine items (w ++ t) w.length = some (.inl (mcfgStep items w))
  rw [mcfgLine]
  by_cases hlen : w.length < 8
  · rw [if_pos hlen, mcfgStep, mcfgVerdict, if_neg (fun h => absurd h.1 (by omega))]
    rfl
  · have hpos : 0 < w.length := by omega
    have hhead : w.head? = some (w.get ⟨0, hpos⟩) := by
      rw [head?_eq_getElem?, getElem?_eq_getElem hpos]
      rfl
    rw [if_neg hlen, peek_of_lt t hpos, bind_some]
    generalize w.get ⟨0, hpos⟩ = c at hhead
    -- the offset of the key's mark, and what the line is from there on
    have hoff : ∃ off, (if c.val = hash then 2 else 0) = off ∧ off ≤ w.length ∧ uncomment w = w.drop off := by
      by_cases hc : c = hash
      · refine ⟨2, if_pos (congrArg Subtype.val hc), by omega, ?_⟩
        rw [uncomment, hhead, if_pos (congrArg some hc)]
      · refine ⟨0, if_neg (fun h => hc (Subtype.ext h)), by omega, ?_⟩
        rw [uncomment, hhead, if_neg (fun h => hc (Option.some.inj h))]
        rfl
    obtain ⟨off, hoff, hle, hun⟩ := hoff
    dsimp only
    rw [hoff, matchAt_line ht config_noEnd hle, bind_some]
    by_cases hconfig : config <+: w.drop off
    · have hroom := hconfig.length_le
      rw [config_length, length_drop] at hroom
      have hpre : (w.drop (off + 7)).takeWhile keyByte <+: w.drop (off + 7) := takeWhile_prefix _
      have hkey : ((w.drop (off + 7)).takeWhile keyByte).length ≤ w.length - (off + 7) := by
        rw [← length_drop]
        exact hpre.length_le
      rw [decide_eq_true hconfig, if_neg (by decide), keyEnd_eq t (by omega) (by omega), bind_some,
        mcfgAssign_eq ht c hpre (by omega), mcfgStep, mcfgVerdict,
        if_pos ⟨by omega, hun ▸ hconfig⟩]
      simp only [hun, drop_drop, hhead, Option.map_some, Option.elim_some, Option.some.injEq, ne_eq]
    · rw [decide_eq_false hconfig, if_pos rfl, mcfgStep, mcfgVerdict, if_neg (fun h => hconfig (hun ▸ h.2))]
      rfl

/-- **`mcfg_load` on the lines**: each of them does its step, and then the loop runs off the
text. -/
theorem mcfgLoad_eq (fs : Pigfs) (items : List MCfgItem) : mcfgLoad fs items = if confText fs = [] then .returned items
      else .outside ((lines (confText fs)).foldl mcfgStep items) := by
  unfold mcfgLoad
  simp only
  split
  · rfl
  · rw [scan_eq mcfgLine_handles, runLines_inl]
    rfl

end Conf
end PigOS.Shell
