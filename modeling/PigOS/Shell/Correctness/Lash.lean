import PigOS.Shell.Lash

/-!
# `Shell.Correctness.Lash` — what Enter executes at the prompt of the shell

`lashKey_edit` says once what an editing key can do; from it come the invariant of the array
(`Terminated`) and the fate of a completion list (`listUp_iff`). Enter passes the contents of the
line on, unless a completion list is up, or the line is empty, or a terminator stands inside the
line (`enter_passes_line_iff`).
-/

namespace PigOS.Shell

open List Function
namespace Lash

open Kernel

variable {s s' : Loop} {k : Int} {out : List CStr}

/-! ## Strings in arrays -/

lemma zero_notMem_bytes (t : CStr) : 0 ∉ bytes t := by
  intro h
  obtain ⟨c, -, hc⟩ := mem_map.mp h
  exact c.property hc

/-! ## What an editing key does -/

/-- A key that neither ends the line nor throws it away. -/
def EditKey (k : Int) : Prop := k ≠ 10 ∧ k ≠ 13 ∧ k ≠ 3

/-- A key that takes a completion list down. -/
def Clears (k : Int) : Prop := k = 8 ∨ k = 127 ∨ k = keyUp ∨ k = keyDown

instance (k : Int) : Decidable (Clears k) := inferInstanceAs (Decidable (k = 8 ∨ k = 127 ∨ k = keyUp ∨ k = keyDown))

/-- What one editing key can do to the state. -/
inductive Edit (s : Loop) : Int → Loop → Prop where
  | cursor {k : Int} (cur : Nat) (htab : k ≠ 9) (hclears : ¬Clears k) : Edit s k { s with cur := cur }
  | backspace {k : Int} (hk : Clears k) : Edit s k s.backspace.hideList
  | up : Edit s keyUp s.hideList.up
  | down : Edit s keyDown s.hideList.down
  | tab : Edit s 9 s.tab
  | insert {k : Int} {s' : Loop} (hk : 32 ≤ k ∧ k < 127) (hroom : s.ilen < shBuf - 1)
      (h : s.insert (UInt8.ofNat k.toNat) = some s') : Edit s k s'

variable {sys : Dispatch} {c : UInt8} {ks : List Int}

lemma lashKey_edit {r : Loop × Option CStr} (hk : EditKey k)
    (h : lashKey sys s k = some r) : Edit s k r.1 ∧ r.2 = none := by
  obtain ⟨h10, h13, h3⟩ := hk
  unfold lashKey at h
  rw [if_neg (not_or.mpr ⟨h10, h13⟩), if_neg h3] at h
  split at h
  next hleft =>
    obtain rfl := Option.some.inj h
    exact ⟨.cursor _ (by rw [hleft]; decide) (by rw [hleft]; decide), rfl⟩
  split at h
  next hright =>
    obtain rfl := Option.some.inj h
    refine ⟨?_, rfl⟩
    split
    · exact .cursor _ (by rw [hright]; decide) (by rw [hright]; decide)
    · exact .cursor s.cur (by rw [hright]; decide) (by rw [hright]; decide)
  split at h
  next hback =>
    obtain rfl := Option.some.inj h
    exact ⟨.backspace (hback.imp_right Or.inl), rfl⟩
  split at h
  next hup =>
    obtain rfl := Option.some.inj h
    exact ⟨hup ▸ .up, rfl⟩
  split at h
  next hdown =>
    obtain rfl := Option.some.inj h
    exact ⟨hdown ▸ .down, rfl⟩
  split at h
  next htab =>
    obtain rfl := Option.some.inj h
    exact ⟨htab ▸ .tab, rfl⟩
  split at h
  next hins =>
    obtain ⟨s', hs', rfl⟩ := Option.map_eq_some_iff.mp h
    exact ⟨.insert ⟨hins.1, hins.2.1⟩ hins.2.2 hs', rfl⟩
  next hback hup hdown htab _ =>
    obtain rfl := Option.some.inj h
    have hclears : ¬Clears k := by
      rintro (hk | hk | hk | hk)
      · exact hback (Or.inl hk)
      · exact hback (Or.inr hk)
      · exact hup hk
      · exact hdown hk
    exact ⟨.cursor s.cur htab hclears, rfl⟩

/-! ## The array -/

/-- The line fits its array, and behind a line that is not empty stands a terminator. -/
structure Loop.Terminated (s : Loop) : Prop where
  fits : s.ilen < shBuf
  stop : s.ilen ≠ 0 → s.input s.ilen = 0

lemma Loop.terminated_load (s : Loop) {t : CStr} (ht : t.length < shBuf) : (s.load t).Terminated :=
  ⟨ht, fun _ => update_self ..⟩

lemma length_hist_lt (hist : List HistLine) (i : Nat) : ((hist[i]?).elim [] Subtype.val).length < shBuf := by
  cases hist[i]? with
  | none => decide
  | some l => exact l.property

lemma length_take_shBuf (t : CStr) : (t.take (shBuf - 1)).length < shBuf :=
  Nat.lt_of_le_of_lt (length_take_le ..) (by decide)

lemma Loop.Terminated.backspace (h : s.Terminated) : s.backspace.Terminated := by
  have hfits := h.fits
  unfold Loop.backspace
  by_cases hpos : 0 < s.ilen
  · rw [if_pos hpos]
    dsimp only
    split
    next hzero => exact ⟨by dsimp only; omega, fun hne => absurd hzero hne⟩
    next hne => exact ⟨by dsimp only; omega, fun _ => update_self ..⟩
  · rw [if_neg hpos]
    dsimp only
    split
    next hzero => exact ⟨hfits, fun hne => absurd hzero hne⟩
    next hne => omega

lemma Loop.terminated_up (h : s.Terminated) : s.up.Terminated := by
  unfold Loop.up
  split
  · exact Loop.terminated_load _ (length_hist_lt ..)
  · exact h

lemma Loop.terminated_down (s : Loop) : s.down.Terminated := by
  have hzero : (⟨s.input, 0, s.cur, none, s.hist, s.rpkCmds, s.shown, s.found, s.compInput⟩ : Loop).Terminated :=
    ⟨by dsimp only; decide, fun hne => absurd rfl hne⟩
  unfold Loop.down
  split
  · split
    · exact Loop.terminated_load _ (length_hist_lt ..)
    · exact hzero
  · exact hzero

lemma Loop.Terminated.tab (h : s.Terminated) : s.tab.Terminated := by
  unfold Loop.tab
  dsimp only
  split
  · exact h
  split
  · exact ⟨h.fits, h.stop⟩
  split
  · exact ⟨h.fits, h.stop⟩
  split
  · exact Loop.terminated_load _ (length_take_shBuf _)
  split
  · exact Loop.terminated_load _ (length_take_shBuf _)
  · exact ⟨h.fits, h.stop⟩

lemma Loop.insert_eq (h : s.insert c = some s') :
    s.cur < shBuf ∧ s' = { s with
      input := Function.update (Function.update (Cells.shiftUp s.cur s.ilen s.input) s.cur c) (s.ilen + 1) 0
      ilen := s.ilen + 1, cur := s.cur + 1 } := by
  unfold Loop.insert at h
  split at h
  next hcur => exact ⟨hcur, (Option.some.inj h).symm⟩
  next => exact absurd h (by simp)

lemma Edit.terminated (h : Edit s k s') (hs : s.Terminated) : s'.Terminated := by
  cases h with
  | cursor cur => exact ⟨hs.fits, hs.stop⟩
  | backspace => exact ⟨hs.backspace.fits, hs.backspace.stop⟩
  | up => exact Loop.terminated_up ⟨hs.fits, hs.stop⟩
  | down => exact Loop.terminated_down _
  | tab => exact hs.tab
  | insert hk hroom h =>
    obtain ⟨-, rfl⟩ := Loop.insert_eq h
    exact ⟨by dsimp only; omega, fun _ => update_self ..⟩

/-! ## The completion list -/

/-- Enter would take the first candidate. -/
def Loop.ListUp (s : Loop) : Prop := s.shown = true ∧ 0 < s.found.length

/-- A Tab leaves a list: it finds candidates, and a list is up, or they are two at least and the
line is none of them. -/
def Loop.TabLists (s : Loop) : Prop :=
  if s.ilen = 0 then s.ListUp
  else
    0 < (lashFindCompletions s.rpkCmds s.word).length ∧
      (s.shown = true ∨ (s.alreadyComplete (lashFindCompletions s.rpkCmds s.word) = false ∧
        2 ≤ (lashFindCompletions s.rpkCmds s.word).length))

@[simp] lemma Loop.listUp_load (s : Loop) (t : CStr) : (s.load t).ListUp ↔ s.ListUp := Iff.rfl

lemma Loop.not_listUp_hideList (s : Loop) : ¬s.hideList.ListUp := fun h => absurd h.1 Bool.false_ne_true

lemma Loop.listUp_up (s : Loop) : s.up.ListUp ↔ s.ListUp := by
  unfold Loop.up
  split <;> exact Iff.rfl

lemma Loop.listUp_down (s : Loop) : s.down.ListUp ↔ s.ListUp := by
  unfold Loop.down
  split
  · split <;> exact Iff.rfl
  · exact Iff.rfl

lemma Loop.listUp_tab (s : Loop) : s.tab.ListUp ↔ s.TabLists := by
  unfold Loop.tab Loop.TabLists
  by_cases hempty : s.ilen = 0
  · rw [if_pos hempty, if_pos hempty]
  rw [if_neg hempty, if_neg hempty]
  dsimp only
  -- the candidates are a variable from here on
  have hcomplete : ∀ found, Loop.alreadyComplete { s with found := found } found =
      s.alreadyComplete found := fun _ => rfl
  rw [hcomplete]
  generalize lashFindCompletions s.rpkCmds s.word = found
  split
  next hnone => simp [Loop.ListUp, hnone]
  next hsome =>
    have hpos : 0 < found.length := length_pos_iff.mpr hsome
    split
    next hdone => simp [Loop.ListUp, hpos, hdone]
    next hopen =>
      split
      next hcycle =>
        rw [Loop.listUp_load]
        simp [Loop.ListUp, hpos, hcycle.1]
      next hno =>
        split
        next hone =>
          rw [Loop.listUp_load]
          simp [Loop.ListUp, hone]
        next hmany =>
          have htwo : 2 ≤ found.length := by omega
          simp [Loop.ListUp, hpos, hopen, htwo]

/-- A list comes up with a Tab, and goes down with a key that clears it; the other keys leave it. -/
lemma Edit.listUp (h : Edit s k s') : s'.ListUp ↔ if k = 9 then s.TabLists else ¬Clears k ∧ s.ListUp := by
  cases h with
  | cursor cur htab hclears => rw [if_neg htab]; exact (and_iff_right hclears).symm
  | backspace hk =>
    have htab : k ≠ 9 := by rintro rfl; exact absurd hk (by decide)
    rw [if_neg htab]
    exact iff_of_false (Loop.not_listUp_hideList _) (fun h => h.1 hk)
  | up =>
    rw [Loop.listUp_up, if_neg (by decide)]
    exact iff_of_false (Loop.not_listUp_hideList _) (fun h => h.1 (by decide))
  | down =>
    rw [Loop.listUp_down, if_neg (by decide)]
    exact iff_of_false (Loop.not_listUp_hideList _) (fun h => h.1 (by decide))
  | tab => rw [if_pos rfl, Loop.listUp_tab]
  | insert hk hroom hins =>
    obtain ⟨-, rfl⟩ := Loop.insert_eq hins
    have hclears : ¬Clears k := by unfold Clears keyUp keyDown; omega
    rw [if_neg (by omega)]
    exact (and_iff_right hclears).symm

/-! ## Runs -/

lemma lashKeys_concat (sys : Dispatch) (s : Loop) (ks : List Int) (k : Int) : lashKeys sys s (ks ++ [k]) =
      (lashKeys sys s ks).bind fun q => (lashKey sys q.1 k).map fun r => (r.1, q.2 ++ r.2.toList) := by
  induction ks generalizing s with
  | nil =>
    simp only [nil_append, lashKeys, Option.bind_some, Option.map_some, append_nil]
    cases lashKey sys s k <;> rfl
  | cons j js ih =>
    simp only [cons_append, lashKeys, ih]
    cases lashKey sys s j with
    | none => rfl
    | some r =>
      simp only [Option.bind_some]
      cases lashKeys sys r.1 js with
      | none => rfl
      | some q =>
        simp only [Option.bind_some, Option.map_some]
        cases lashKey sys q.1 k with
        | none => rfl
        | some r => simp only [Option.map_some, append_assoc]

lemma lashKeys_concat_eq_some (h : lashKeys sys s (ks ++ [k]) = some (s', out)) :
    ∃ q r, lashKeys sys s ks = some q ∧ lashKey sys q.1 k = some r ∧ r.1 = s' := by
  rw [lashKeys_concat] at h
  obtain ⟨q, hq, hr⟩ := Option.bind_eq_some_iff.mp h
  obtain ⟨r, hkey, heq⟩ := Option.map_eq_some_iff.mp hr
  exact ⟨q, r, hq, hkey, congrArg Prod.fst heq⟩

section Run

variable {sys : Dispatch} {hist : List HistLine} {rpkCmds : List CStr} {keys : List Int}

lemma terminated_run (hkeys : ∀ k ∈ keys, EditKey k)
    (h : lashKeys sys (.prompt hist rpkCmds) keys = some (s, out)) : s.Terminated := by
  induction keys using List.reverseRecOn generalizing s out with
  | nil =>
    obtain ⟨rfl, -⟩ := Prod.mk.inj (Option.some.inj h)
    exact ⟨show 0 < shBuf by decide, fun _ => rfl⟩
  | append_singleton ks k ih =>
    obtain ⟨q, r, hq, hkey, rfl⟩ := lashKeys_concat_eq_some h
    have hedit := (lashKey_edit (hkeys k (by simp)) hkey).1
    exact hedit.terminated (ih (fun j hj => hkeys j (mem_append_left _ hj)) hq)

/-- The last Tab of the keys has left a list, and no key behind it takes the list down. -/
def ListLeft (sys : Dispatch) (start : Loop) (keys : List Int) : Prop :=
  ∃ before after s out, keys = before ++ 9 :: after ∧ lashKeys sys start before = some (s, out) ∧ s.TabLists ∧
    ∀ k ∈ after, k ≠ 9 ∧ ¬Clears k

lemma not_listLeft_nil (start : Loop) : ¬ListLeft sys start [] := by
  rintro ⟨before, after, s, out, h, -⟩
  exact absurd h (by simp)

/-- A list that is left after one more key was left by that key, or before it. -/
lemma listLeft_concat {start : Loop} (h : lashKeys sys start ks = some (s, out)) :
    ListLeft sys start (ks ++ [k]) ↔ if k = 9 then s.TabLists else ¬Clears k ∧ ListLeft sys start ks := by
  constructor
  · rintro ⟨before, after, q, out', heq, hq, htab, hafter⟩
    rcases eq_nil_or_concat after with rfl | ⟨after', j, rfl⟩
    · obtain ⟨rfl, hk⟩ := append_inj' heq rfl
      obtain rfl : k = 9 := (cons.inj hk).1
      rw [if_pos rfl]
      obtain ⟨rfl, -⟩ := Prod.mk.inj (Option.some.inj (h.symm.trans hq))
      exact htab
    · rw [concat_eq_append] at heq hafter
      rw [← cons_append, ← append_assoc] at heq
      obtain ⟨rfl, hk⟩ := append_inj' heq rfl
      obtain rfl : k = j := (cons.inj hk).1
      have hlast := hafter k (by simp)
      rw [if_neg hlast.1]
      exact ⟨hlast.2, before, after', q, out', rfl, hq, htab, fun j hj => hafter j (mem_append_left _ hj)⟩
  · intro hlist
    split at hlist
    next hk =>
      exact ⟨ks, [], s, out, by rw [hk], h, hlist, fun j hj => absurd hj not_mem_nil⟩
    next hk =>
      obtain ⟨hclears, before, after, q, out', rfl, hq, htab, hafter⟩ := hlist
      refine ⟨before, after ++ [k], q, out', by simp, hq, htab, fun j hj => ?_⟩
      rcases mem_append.mp hj with hj | hj
      · exact hafter j hj
      · rw [mem_singleton.mp hj]
        exact ⟨hk, hclears⟩

lemma listUp_iff (hkeys : ∀ k ∈ keys, EditKey k) (h : lashKeys sys (.prompt hist rpkCmds) keys = some (s, out)) :
    s.ListUp ↔ ListLeft sys (.prompt hist rpkCmds) keys := by
  induction keys using List.reverseRecOn generalizing s out with
  | nil =>
    obtain ⟨rfl, -⟩ := Prod.mk.inj (Option.some.inj h)
    exact iff_of_false (fun h => absurd h.1 Bool.false_ne_true) (not_listLeft_nil _)
  | append_singleton ks k ih =>
    obtain ⟨q, r, hq, hkey, rfl⟩ := lashKeys_concat_eq_some h
    have hedit := (lashKey_edit (hkeys k (by simp)) hkey).1
    rw [hedit.listUp, listLeft_concat hq, ih (fun j hj => hkeys j (mem_append_left _ hj)) hq]

end Run

/-! ## Enter -/

/-- Enter passes a line on exactly when no list is up and the line is not empty. -/
lemma lashKey_enter {e : Int} (he : e = 10 ∨ e = 13) (t : CStr) :
    (∃ s', lashKey sys s e = some (s', some t)) ↔ ¬s.ListUp ∧ s.ilen ≠ 0 ∧ t = stringIn s.input := by
  have hleft : e ≠ keyLeft := by unfold keyLeft; omega
  have hright : e ≠ keyRight := by unfold keyRight; omega
  unfold lashKey
  rw [if_neg hleft, if_neg hright, if_pos he]
  by_cases hup : s.shown ∧ 0 < s.found.length
  · rw [if_pos hup]
    refine iff_of_false ?_ (fun h => h.1 hup)
    rintro ⟨s', h⟩
    obtain ⟨q, -, heq⟩ := Option.map_eq_some_iff.mp h
    exact absurd (Prod.mk.inj heq).2 (by simp)
  · rw [if_neg hup]
    unfold Loop.enter
    split
    next hpos =>
      constructor
      · rintro ⟨s', h⟩
        obtain ⟨-, ht⟩ := Prod.mk.inj (Option.some.inj h)
        exact ⟨hup, by omega, (Option.some.inj ht).symm⟩
      · rintro ⟨-, -, rfl⟩
        exact ⟨_, rfl⟩
    next hzero =>
      refine iff_of_false ?_ (fun h => h.2.1 (by omega))
      rintro ⟨s', h⟩
      exact absurd (Prod.mk.inj (Option.some.inj h)).2 (by simp)

/-- The string in the array is the line exactly when no terminator stands inside. -/
lemma Loop.Terminated.bytes_stringIn (h : s.Terminated) (hne : s.ilen ≠ 0) :
    bytes (stringIn s.input) = s.line ↔ 0 ∉ s.line := by
  constructor
  · intro heq
    rw [← heq]
    exact zero_notMem_bytes _
  · intro hzero
    have hcells : ∀ j < s.ilen, s.input (0 + j) ≠ 0 := by
      intro j hj heq
      rw [Nat.zero_add] at heq
      exact hzero (mem_map.mpr ⟨j, mem_range.mpr hj, heq⟩)
    have hfits := h.fits
    rw [stringIn, bytes, Cells.val_textAt hcells (by omega) (fun _ => by rw [Nat.zero_add]; exact h.stop hne)]
    simp only [Nat.zero_add]
    rfl

/-- **Enter executes the contents of the line** if and only if the keys have left no completion
list, and a line inside its array that is not empty and has no terminator inside. -/
theorem enter_passes_line_iff (sys : Dispatch) (hist : List HistLine) (rpkCmds : List CStr) (keys : List Int) (e : Int)
    (hkeys : ∀ k ∈ keys, EditKey k) (he : e = 10 ∨ e = 13) :
    (∃ s out s' t, lashKeys sys (.prompt hist rpkCmds) keys = some (s, out) ∧ lashKey sys s e = some (s', some t) ∧
        bytes t = s.line) ↔
      ¬ListLeft sys (.prompt hist rpkCmds) keys ∧
        ∃ s out, lashKeys sys (.prompt hist rpkCmds) keys = some (s, out) ∧ s.ilen ≠ 0 ∧ 0 ∉ s.line := by
  constructor
  · rintro ⟨s, out, s', t, hrun, hkey, hline⟩
    obtain ⟨hlist, hne, rfl⟩ := (lashKey_enter he t).mp ⟨s', hkey⟩
    rw [listUp_iff hkeys hrun] at hlist
    exact ⟨hlist, s, out, hrun, hne, ((terminated_run hkeys hrun).bytes_stringIn hne).mp hline⟩
  · rintro ⟨hlist, s, out, hrun, hne, hzero⟩
    rw [← listUp_iff hkeys hrun] at hlist
    obtain ⟨s', hkey⟩ := (lashKey_enter he _).mpr ⟨hlist, hne, rfl⟩
    exact ⟨s, out, s', _, hrun, hkey, ((terminated_run hkeys hrun).bytes_stringIn hne).mpr hzero⟩

/-- A system that does nothing. -/
def idle : Dispatch := fun _ r => r

/-- The line `cp`, without a Tab. -/
theorem enter_passes_line_cp :
    ∃ s out s' t, lashKeys idle (.prompt [] []) [99, 112] = some (s, out) ∧ lashKey idle s 10 = some (s', some t) ∧
      bytes t = s.line := by
  have hkeys : ∀ k ∈ [99, 112], EditKey k := by
    intro k hk
    rcases mem_pair.mp hk with rfl | rfl
    · exact ⟨by decide, by decide, by decide⟩
    · exact ⟨by decide, by decide, by decide⟩
  refine (enter_passes_line_iff idle [] [] [99, 112] 10 hkeys (Or.inl rfl)).mpr ⟨?_, _, _, rfl, by decide, by decide⟩
  rintro ⟨before, after, s, out, heq, -⟩
  exact absurd (heq ▸ mem_append_right before mem_cons_self : (9 : Int) ∈ [99, 112]) (by decide)

/-- `c`, a Tab that lists the candidates, and `p`: Enter makes the line `cd` and executes
nothing. -/
theorem enter_replaces_cp : ∃ s s', lashKeys idle (.prompt [] []) [99, 9, 112] = some (s, []) ∧ s.line = [99, 112] ∧
      lashKey idle s 10 = some (s', none) ∧ s'.line = [99, 100] := by
  refine ⟨_, _, rfl, ?_, rfl, ?_⟩
  · decide +kernel
  · decide +kernel

/-! ## Lines without a terminator -/

lemma Loop.zero_notMem_line : 0 ∉ s.line ↔ ∀ j < s.ilen, s.input j ≠ 0 := by
  simp only [Loop.line, mem_map, mem_range, not_exists, not_and]

lemma Loop.zero_notMem_load (s : Loop) (t : CStr) : 0 ∉ (s.load t).line := by
  rw [Loop.zero_notMem_line]
  intro j hj
  change j < t.length at hj
  have hbytes : (bytes t)[j]? = some (t.get ⟨j, hj⟩).val := by
    rw [bytes, getElem?_map, getElem?_eq_getElem hj]
    rfl
  change Function.update (Cells.writeList s.input 0 (bytes t)) t.length 0 j ≠ 0
  rw [update_of_ne (by omega), Cells.writeList_apply, if_pos (Nat.zero_le j), Nat.sub_zero, hbytes]
  exact (t.get ⟨j, hj⟩).property

lemma Loop.zero_notMem_backspace (h : 0 ∉ s.line) : 0 ∉ s.backspace.line := by
  rw [Loop.zero_notMem_line] at h ⊢
  unfold Loop.backspace
  by_cases hpos : 0 < s.ilen
  · rw [if_pos hpos]
    dsimp only
    split
    next hzero =>
      intro j hj
      change j < s.ilen - 1 at hj
      omega
    next =>
      intro j hj
      change j < s.ilen - 1 at hj
      change Function.update (Cells.shiftDown _ _ s.input) (s.ilen - 1) 0 j ≠ 0
      rw [update_of_ne (by omega), Cells.shiftDown_apply]
      split
      · exact h (j + 1) (by omega)
      · exact h j (by omega)
  · rw [if_neg hpos]
    dsimp only
    split
    · intro j hj
      exact absurd (show j < s.ilen from hj) (by omega)
    · omega

lemma Loop.zero_notMem_tab (h : 0 ∉ s.line) : 0 ∉ s.tab.line := by
  unfold Loop.tab
  dsimp only
  split
  · exact h
  split
  · exact h
  split
  · exact h
  split
  · exact Loop.zero_notMem_load _ _
  split
  · exact Loop.zero_notMem_load _ _
  · exact h

lemma Loop.zero_notMem_insert (h : 0 ∉ s.line) (hc : c ≠ 0) (hcur : s.cur ≤ s.ilen)
    (hins : s.insert c = some s') : 0 ∉ s'.line := by
  obtain ⟨-, rfl⟩ := Loop.insert_eq hins
  rw [Loop.zero_notMem_line] at h ⊢
  intro j hj
  change j < s.ilen + 1 at hj
  change Function.update (Function.update (Cells.shiftUp s.cur s.ilen s.input) s.cur c) (s.ilen + 1) 0 j ≠ 0
  rw [update_of_ne (by omega)]
  by_cases hj' : j = s.cur
  · rw [hj', update_self]
    exact hc
  · rw [update_of_ne hj', Cells.shiftUp_apply]
    split
    · exact h (j - 1) (by omega)
    · exact h j (by omega)

lemma Edit.zero_notMem (h : Edit s k s') (hs : 0 ∉ s.line)
    (hcur : 32 ≤ k ∧ k < 127 → s.cur ≤ s.ilen) : 0 ∉ s'.line := by
  have hempty : ∀ s : Loop, s.ilen = 0 → 0 ∉ s.line := by
    intro s hzero
    rw [Loop.line, hzero]
    exact not_mem_nil
  cases h with
  | cursor cur => exact hs
  | backspace => exact Loop.zero_notMem_backspace hs
  | up =>
    unfold Loop.up
    split
    · exact Loop.zero_notMem_load _ _
    · exact hs
  | down =>
    unfold Loop.down
    split
    · split
      · exact Loop.zero_notMem_load _ _
      · exact hempty _ rfl
    · exact hempty _ rfl
  | tab => exact Loop.zero_notMem_tab hs
  | insert hk hroom hins =>
    refine Loop.zero_notMem_insert hs ?_ (hcur hk) hins
    rw [ne_eq, ← UInt8.toNat_inj, UInt8.toNat_ofNat']
    change k.toNat % 256 ≠ 0
    omega

/-! ## The history -/

/-- The elements that differ from the one before them; `prev` is the one before the first. -/
def changes {α : Type} [DecidableEq α] (prev : Option α) : List α → List α
  | [] => []
  | a :: l => if prev = some a then changes prev l else a :: changes (some a) l

section History

variable {α : Type} [DecidableEq α] (prev : Option α) (l : List α)

lemma getLast?_changes : (changes prev l).getLast?.or prev = l.getLast?.or prev := by
  induction l generalizing prev with
  | nil => rfl
  | cons a l ih =>
    rw [changes]
    split
    · next hprev => rw [ih, getLast?_cons, hprev, Option.or_some, Option.some_or]
    · rw [getLast?_cons, getLast?_cons, Option.some_or, Option.some_or]
      simpa only [Option.or_some] using ih (some a)

lemma changes_concat (a : α) :
    changes prev (l ++ [a]) = if l.getLast?.or prev = some a then changes prev l else changes prev l ++ [a] := by
  induction l generalizing prev with
  | nil => rfl
  | cons b l ih =>
    rw [cons_append, changes, changes, ih, ih, getLast?_cons, Option.some_or]
    have hlast : l.getLast?.or (some b) = some (l.getLast?.getD b) := Option.or_some
    split
    · next hprev => rw [hprev, hlast]
    · rw [hlast, apply_ite (List.cons b), cons_append]

end History

/-- The lines that are to be in the history, newest last. -/
def historyLines (ts : List HistLine) : List HistLine := changes none (ts.filter (·.val ≠ []))

lemma historyLines_concat (ts : List HistLine) (t : HistLine) : historyLines (ts ++ [t]) =
    if t.val = [] ∨ (historyLines ts).getLast? = some t then historyLines ts else historyLines ts ++ [t] := by
  have hlast := getLast?_changes none (ts.filter (·.val ≠ []))
  simp only [Option.or_none] at hlast
  unfold historyLines
  by_cases hnil : t.val = []
  · simp [filter_append, hnil]
  · have hfilter : (ts ++ [t]).filter (·.val ≠ []) = ts.filter (·.val ≠ []) ++ [t] := by simp [filter_append, hnil]
    rw [hfilter, changes_concat, Option.or_none, hlast]
    simp only [hnil, false_or]

lemma lashPushHist_recent (l : List HistLine) (t : HistLine) : lashPushHist (l.drop (l.length - lashHistMax)) t =
    let l' := if t.val = [] ∨ l.getLast? = some t then l else l ++ [t]
    l'.drop (l'.length - lashHistMax) := by
  have hmax : lashHistMax = 64 := rfl
  have hend : (l.drop (l.length - lashHistMax)).getLast? = l.getLast? := by
    rw [getLast?_drop]
    split
    · next hle => rw [length_eq_zero_iff.mp (show l.length = 0 by omega), getLast?_nil]
    · rfl
  have hsame : l.getLast?.any (fun u => ksc u.val t.val = 0) = true ↔ l.getLast? = some t := by
    simp only [Option.any_eq_true, decide_eq_true_eq, ksc_eq_zero]
    constructor
    · rintro ⟨u, hu, heq⟩
      exact hu.trans (congrArg some (Subtype.ext heq))
    · exact fun h => ⟨t, h, rfl⟩
  simp only [lashPushHist, hend, hsame, length_eq_zero_iff, length_drop]
  by_cases hnil : t.val = []
  · simp [hnil]
  by_cases heq : l.getLast? = some t
  · simp [heq]
  simp only [hnil, heq, or_self, if_false, length_append, length_singleton]
  split
  · rw [show l.length - lashHistMax = 0 by omega, show l.length + 1 - lashHistMax = 0 by omega, drop_zero, drop_zero]
  · rw [drop_drop, drop_append_of_le_length (by omega),
      show l.length - lashHistMax + 1 = l.length + 1 - lashHistMax by omega]

/-- **The history holds the most recent lines**, oldest first: 64 of those neither empty nor equal
to the one before. -/
theorem history_recent (ts : List HistLine) :
    ts.foldl lashPushHist [] = (historyLines ts).drop ((historyLines ts).length - lashHistMax) := by
  induction ts using List.reverseRecOn with
  | nil => rfl
  | append_singleton ts t ih => rw [foldl_concat, ih, lashPushHist_recent, historyLines_concat]

end Lash
end PigOS.Shell
