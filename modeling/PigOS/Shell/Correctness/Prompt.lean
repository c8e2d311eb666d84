import PigOS.Shell.Correctness.Lash

/-!
# `Shell.Correctness.Prompt` — when the line editor of the shell keeps its cursor

`Good` is what the keys of `lash_loop` rely on: the cursor is inside the line, the line fits its
array, and a terminator stands behind it. Two keys do not keep it. Down, where the history has no
later line, empties the line and leaves the cursor and the array as they are; and Enter, where a
list is up, puts its candidate behind the first space of the saved line without asking whether it
fits.
-/

namespace PigOS.Shell

open List Function
namespace Lash

open Kernel

/-- The cursor is inside the line, the line fits, and a terminator stands behind it. -/
structure Good (s : Loop) : Prop where
  cur_le : s.cur ≤ s.ilen
  fits : s.ilen ≤ shBuf - 1
  stop : s.input s.ilen = 0

/-- Besides, no terminator stands inside the line. -/
structure Sound (s : Loop) : Prop where
  good : Good s
  clean : 0 ∉ s.line

/-- The key is a character, and there is room for it. -/
def TypesChar (s : Loop) (k : Int) : Prop := 32 ≤ k ∧ k < 127 ∧ s.ilen < shBuf - 1

/-- The key leads to a good state, and a character is inserted at the cursor. -/
def Right (sys : Dispatch) (s : Loop) (k : Int) : Prop :=
  ∃ r, lashKey sys s k = some r ∧ Good r.1 ∧
    (TypesChar s k → r.1.line = s.line.take s.cur ++ UInt8.ofNat k.toNat :: s.line.drop s.cur)

/-- There is a later line of the history to go down to. -/
def Loop.HasNext (s : Loop) : Prop := ∃ h, s.hiCur = some h ∧ h + 1 < s.hist.length

/-- The first candidate fits behind the first space of the saved line. -/
def Loop.CandidateFits (s : Loop) : Prop :=
  ∀ sp, (stringIn s.compInput).findIdx? (· = space) = some sp → sp + 1 + (s.found.getD 0 []).length < shBuf

/-- Where a key goes right. -/
def Safe (s : Loop) (k : Int) : Prop :=
  if k = 10 ∨ k = 13 then s.ListUp → s.CandidateFits
  else if k = keyDown then ¬s.HasNext → s.ilen = 0
  else True

/-! ## The keys one by one -/

section Keys

variable {sys : Dispatch} {s : Loop} {k : Int} {r : Loop × Option CStr} {cmd : CStr}

lemma right_iff (hkey : lashKey sys s k = some r) : Right sys s k ↔
      Good r.1 ∧ (TypesChar s k → r.1.line = s.line.take s.cur ++ UInt8.ofNat k.toNat :: s.line.drop s.cur) := by
  constructor
  · rintro ⟨r', hr', h⟩
    obtain rfl : r = r' := Option.some.inj (hkey.symm.trans hr')
    exact h
  · exact fun h => ⟨r, hkey, h⟩

lemma right_iff_good (hkey : lashKey sys s k = some r) (hnot : ¬TypesChar s k) : Right sys s k ↔ Good r.1 := by
  rw [right_iff hkey]
  exact and_iff_left fun htypes => absurd htypes hnot

lemma good_load (s : Loop) {t : CStr} (ht : t.length < shBuf) : Good (s.load t) :=
  ⟨Nat.le_refl _, Nat.le_sub_one_of_lt ht, update_self ..⟩

lemma sound_prompt (hist : List HistLine) (rpkCmds : List CStr) : Sound (.prompt hist rpkCmds) :=
  ⟨⟨Nat.le_refl _, Nat.zero_le _, rfl⟩, not_mem_nil⟩

lemma Good.backspace (h : Good s) : Good s.backspace := by
  have hcur := h.cur_le
  have hfits := h.fits
  unfold Loop.backspace
  dsimp only
  by_cases hpos : 0 < s.ilen
  · rw [if_pos hpos]
    split
    next hzero =>
      refine ⟨?_, ?_, rfl⟩
      · exact Nat.zero_le _
      · dsimp only
        omega
    next hne =>
      refine ⟨?_, ?_, update_self ..⟩
      · dsimp only
        omega
      · dsimp only
        omega
  · rw [if_neg hpos, if_pos (by omega)]
    exact ⟨Nat.zero_le _, hfits, rfl⟩

lemma Good.up (h : Good s) : Good s.up := by
  unfold Loop.up
  split
  · exact good_load _ (length_hist_lt ..)
  · exact h

lemma Good.tab (h : Good s) : Good s.tab := by
  unfold Loop.tab
  dsimp only
  split
  · exact h
  split
  · exact ⟨h.cur_le, h.fits, h.stop⟩
  split
  · exact ⟨h.cur_le, h.fits, h.stop⟩
  split
  · exact good_load _ (length_take_shBuf _)
  split
  · exact good_load _ (length_take_shBuf _)
  · exact ⟨h.cur_le, h.fits, h.stop⟩

/-- Down goes right exactly where it recalls a line, or has none to clear. -/
lemma Sound.good_down_iff (h : Sound s) : Good s.down ↔ (¬s.HasNext → s.ilen = 0) := by
  -- the cursor and the cells of a line that is cleared stay
  have hclear : Good { s with hiCur := none, ilen := 0 } ↔ s.ilen = 0 := by
    constructor
    · intro hgood
      by_contra hne
      exact Loop.zero_notMem_line.mp h.clean 0 (Nat.pos_of_ne_zero hne) hgood.stop
    · intro hzero
      have hstop := h.good.stop
      have hcur := h.good.cur_le
      rw [hzero] at hstop hcur
      exact ⟨hcur, Nat.zero_le _, hstop⟩
  unfold Loop.down
  cases hhi : s.hiCur with
  | none =>
    have hnext : ¬s.HasNext := by
      rintro ⟨i, hi, -⟩
      rw [hhi] at hi
      cases hi
    rw [forall_prop_of_true hnext]
    exact hclear
  | some i =>
    dsimp only
    by_cases hlt : i + 1 < s.hist.length
    · rw [if_pos hlt]
      exact iff_of_true (good_load _ (length_hist_lt ..)) (fun hno => absurd ⟨i, hhi, hlt⟩ hno)
    · have hnext : ¬s.HasNext := by
        rintro ⟨j, hj, hj'⟩
        rw [hhi] at hj
        obtain rfl := Option.some.inj hj
        exact hlt hj'
      rw [if_neg hlt, forall_prop_of_true hnext]
      exact hclear

lemma Good.insert (h : Good s) (hroom : s.ilen < shBuf - 1) (c : UInt8) :
    ∃ s', s.insert c = some s' ∧ Good s' ∧ s'.line = s.line.take s.cur ++ c :: s.line.drop s.cur := by
  have hcur := h.cur_le
  rw [Loop.insert, if_pos (by omega)]
  refine ⟨_, rfl, ⟨Nat.succ_le_succ hcur, hroom, update_self ..⟩, ?_⟩
  have hcells : (range (s.ilen + 1)).map
      (Function.update (Function.update (Cells.shiftUp s.cur s.ilen s.input) s.cur c) (s.ilen + 1) 0) =
        (range (s.ilen + 1)).map (Function.update (Cells.shiftUp s.cur s.ilen s.input) s.cur c) :=
    map_congr_left fun j hj => update_of_ne (Nat.ne_of_lt (mem_range.mp hj)) _ _
  exact hcells.trans (Cells.map_range_insert s.input hcur c)

/-! ### Enter with a list -/

lemma useCandidate_good (hfits : ∀ sp, (stringIn s.compInput).findIdx? (· = space) = some sp →
    sp + 1 + cmd.length < shBuf) : ∃ s', s.useCandidate cmd = some s' ∧ Good s' := by
  unfold Loop.useCandidate
  split
  next sp hsp =>
    rw [if_pos (hfits sp hsp)]
    exact ⟨_, rfl, Nat.le_refl _, Nat.le_sub_one_of_lt (hfits sp hsp), update_self ..⟩
  next => exact ⟨_, rfl, good_load _ (length_take_shBuf _)⟩

lemma useCandidate_eq_none {sp : Nat} (hsp : (stringIn s.compInput).findIdx? (· = space) = some sp)
    (hlong : ¬sp + 1 + cmd.length < shBuf) : s.useCandidate cmd = none := by
  unfold Loop.useCandidate
  rw [hsp]
  dsimp only
  rw [if_neg hlong]

lemma useCandidate_clean {s' : Loop} (h : s.useCandidate cmd = some s') : 0 ∉ s'.line := by
  unfold Loop.useCandidate at h
  split at h
  next sp hsp =>
    dsimp only at h
    split at h
    next =>
      obtain rfl := Option.some.inj h
      -- the saved line up to its space, and the candidate behind it
      have hcell : ∀ j < sp + 1 + cmd.length,
          Function.update (Cells.writeList s.compInput (sp + 1) (bytes cmd)) (sp + 1 + cmd.length) 0 j ≠ 0 := by
        intro j hj
        rw [update_of_ne (by omega), Cells.writeList_apply]
        split
        next hle =>
          have hlt : j - (sp + 1) < cmd.length := by omega
          rw [bytes, getElem?_map, getElem?_eq_getElem hlt]
          exact (cmd.get ⟨_, hlt⟩).property
        next hgt =>
          have hlen := (findIdx?_eq_some_iff_getElem.mp hsp).1
          have hget := Cells.cell_of_textAt (getElem?_eq_getElem (show j < (stringIn s.compInput).length by omega))
          rw [Nat.zero_add] at hget
          rw [hget]
          exact ((stringIn s.compInput).get ⟨j, by omega⟩).property
      rw [Loop.zero_notMem_line]
      intro j hj
      dsimp only at hj ⊢
      rw [update_of_ne (by omega), Cells.writeList_apply, if_pos (Nat.zero_le j), Nat.sub_zero,
        Cells.getElem?_map_range, if_pos hj]
      exact hcell j hj
    next => cases h
  next =>
    obtain rfl := Option.some.inj h
    exact Loop.zero_notMem_load _ _

/-! ## One key -/

lemma not_typesChar_of_lt (hk : k < 32) : ¬TypesChar s k := fun h => by
  have := h.1
  omega

lemma enter_right_iff (he : k = 10 ∨ k = 13) : Right sys s k ↔ (s.ListUp → s.CandidateFits) := by
  have hleft : k ≠ keyLeft := by unfold keyLeft; omega
  have hright : k ≠ keyRight := by unfold keyRight; omega
  have hnot : ¬TypesChar s k := not_typesChar_of_lt (by omega)
  by_cases hup : s.ListUp
  · rw [forall_prop_of_true hup]
    have hkey : lashKey sys s k = (s.useCandidate (s.found.getD 0 [])).map (fun s => (s.hideList, none)) := by
      rw [lashKey, if_neg hleft, if_neg hright, if_pos he]
      exact if_pos hup
    constructor
    · rintro ⟨r, hr, -⟩ sp hsp
      by_contra hlong
      rw [hkey, useCandidate_eq_none hsp hlong] at hr
      cases hr
    · intro hfits
      obtain ⟨s', hs', hgood⟩ := useCandidate_good hfits
      rw [right_iff_good (hkey.trans (by rw [hs']; rfl)) hnot]
      exact ⟨hgood.cur_le, hgood.fits, hgood.stop⟩
  · refine iff_of_true ?_ (fun h => absurd h hup)
    have hkey : lashKey sys s k = some (s.enter sys) := by
      rw [lashKey, if_neg hleft, if_neg hright, if_pos he]
      exact if_neg hup
    rw [right_iff_good hkey hnot]
    unfold Loop.enter
    split
    · exact (sound_prompt ..).good
    · exact (sound_prompt ..).good

lemma char_right (h : Good s) (hk : 32 ≤ k ∧ k < 127) : Right sys s k := by
  have hkey : lashKey sys s k =
      if s.ilen < shBuf - 1 then (s.insert (UInt8.ofNat k.toNat)).map (fun s => (s, none)) else some (s, none) := by
    unfold lashKey keyLeft keyRight keyUp keyDown
    rw [if_neg (by omega), if_neg (by omega), if_neg (by omega), if_neg (by omega),
      if_neg (by omega), if_neg (by omega),
      if_neg (by omega), if_neg (by omega)]
    by_cases hroom : s.ilen < shBuf - 1
    · rw [if_pos ⟨hk.1, hk.2, hroom⟩, if_pos hroom]
    · rw [if_neg (fun h => hroom h.2.2), if_neg hroom]
  by_cases hroom : s.ilen < shBuf - 1
  · obtain ⟨s', hs', hgood, hline⟩ := h.insert hroom (UInt8.ofNat k.toNat)
    rw [if_pos hroom, hs'] at hkey
    exact ⟨_, hkey, hgood, fun _ => hline⟩
  · rw [if_neg hroom] at hkey
    exact ⟨_, hkey, h, fun htypes => absurd htypes.2.2 hroom⟩

/-- **One key.** From a sound state it goes right exactly where it is safe. -/
theorem right_iff_safe (h : Sound s) : Right sys s k ↔ Safe s k := by
  have hcur := h.good.cur_le
  unfold Safe
  by_cases henter : k = 10 ∨ k = 13
  · rw [if_pos henter]
    exact enter_right_iff henter
  rw [if_neg henter]
  by_cases hdown : k = keyDown
  · subst hdown
    rw [if_pos rfl, right_iff_good (show lashKey sys s keyDown = some (s.hideList.down, none) from rfl)
      (not_typesChar_of_lt (by decide))]
    have hhide : Sound s.hideList := ⟨⟨hcur, h.good.fits, h.good.stop⟩, h.clean⟩
    exact hhide.good_down_iff
  rw [if_neg hdown]
  refine iff_of_true ?_ trivial
  by_cases hchar : 32 ≤ k ∧ k < 127
  · exact char_right h.good hchar
  have hnot : ¬TypesChar s k := fun htypes => hchar ⟨htypes.1, htypes.2.1⟩
  unfold Right lashKey
  by_cases hleft : k = keyLeft
  · rw [if_pos hleft]
    exact ⟨_, rfl, ⟨(Nat.sub_le _ _).trans hcur, h.good.fits, h.good.stop⟩, fun htypes => absurd htypes hnot⟩
  rw [if_neg hleft]
  by_cases hright : k = keyRight
  · rw [if_pos hright]
    refine ⟨_, rfl, ?_, fun htypes => absurd htypes hnot⟩
    split
    next hlt => exact ⟨hlt, h.good.fits, h.good.stop⟩
    next => exact h.good
  rw [if_neg hright, if_neg henter, if_neg hdown]
  split
  · exact ⟨_, rfl, (sound_prompt ..).good, fun htypes => absurd htypes hnot⟩
  split
  · have hback := h.good.backspace
    exact ⟨_, rfl, ⟨hback.cur_le, hback.fits, hback.stop⟩, fun htypes => absurd htypes hnot⟩
  split
  · have hhide : Good s.hideList := ⟨hcur, h.good.fits, h.good.stop⟩
    exact ⟨_, rfl, hhide.up, fun htypes => absurd htypes hnot⟩
  split
  · exact ⟨_, rfl, h.good.tab, fun htypes => absurd htypes hnot⟩
  rw [if_neg (fun htypes => hchar ⟨htypes.1, htypes.2.1⟩)]
  exact ⟨_, rfl, h.good, fun htypes => absurd htypes hnot⟩

lemma Sound.step (h : Sound s) (hkey : lashKey sys s k = some r) (hgood : Good r.1) : Sound r.1 := by
  refine ⟨hgood, ?_⟩
  by_cases hedit : EditKey k
  · exact (lashKey_edit hedit hkey).1.zero_notMem h.clean fun _ => h.good.cur_le
  · by_cases hbreak : k = 3
    · subst hbreak
      obtain rfl := Option.some.inj hkey
      exact not_mem_nil
    · have he : k = 10 ∨ k = 13 := by
        unfold EditKey at hedit
        omega
      have hleft : k ≠ keyLeft := by unfold keyLeft; omega
      have hright : k ≠ keyRight := by unfold keyRight; omega
      rw [lashKey, if_neg hleft, if_neg hright, if_pos he] at hkey
      split at hkey
      · obtain ⟨s', hs', rfl⟩ := Option.map_eq_some_iff.mp hkey
        have hclean : 0 ∉ s'.line := useCandidate_clean hs'
        exact hclean
      · obtain rfl := Option.some.inj hkey
        unfold Loop.enter
        split
        · exact not_mem_nil
        · exact not_mem_nil

end Keys

/-! ## Runs -/

/-- One round of the loop, without what it executes. -/
def nextLoop (sys : Dispatch) (s : Loop) (k : Int) : Option Loop := (lashKey sys s k).map Prod.fst

/-- **The line editor keeps its cursor and inserts at it** exactly if all keys are pressed where
they are safe. -/
theorem lash_right_iff (sys : Dispatch) (hist : List HistLine) (rpkCmds : List CStr) (keys : List Int) :
    Good (.prompt hist rpkCmds) ∧
      (Machine.Along (nextLoop sys) (Right sys) (.prompt hist rpkCmds) keys ↔
        Machine.Along (nextLoop sys) Safe (.prompt hist rpkCmds) keys) := by
  refine ⟨(sound_prompt hist rpkCmds).good, ?_⟩
  refine Machine.along_iff Sound (fun s k hs => right_iff_safe hs) ?_ (sound_prompt hist rpkCmds) keys
  intro s k s' hs hright hnext
  obtain ⟨r, hr, rfl⟩ := Option.map_eq_some_iff.mp hnext
  exact hs.step hr ((right_iff hr).mp hright).1

/-- `ls`, Down and `x`: after Down the cursor is behind the end; with `x` the line is `l`. -/
theorem down_leaves_cursor :
    (lashKeys idle (.prompt [] []) [108, 115, keyDown]).map (fun q => (q.1.line, q.1.cur,
      q.1.input 0)) = some ([], 2, 108) ∧
      (lashKeys idle (.prompt [] []) [108, 115, keyDown, 120]).map (fun q => (q.1.line, q.1.cur)) = some ([108], 3) ∧
      ¬Machine.Along (nextLoop idle) (Right idle) (.prompt [] []) [108, 115, keyDown, 120] := by
  refine ⟨by decide +kernel, by decide +kernel, fun halong => ?_⟩
  obtain ⟨r, hr, hgood, -⟩ := ((halong.2 _ rfl).2 _ rfl).1
  obtain rfl := Option.some.inj hr
  exact absurd hgood.cur_le (by decide +kernel)

end Lash
end PigOS.Shell
