import PigOS.Lib.TextEditor
import PigOS.Shell.Nano
import PigOS.Shell.Correctness.Memfs

/-!
# `Shell.Correctness.Nano` — `pnano` is the reference editor

The state of `pnano` shows a state of `Lib.TextEditor` when its first `elen` bytes are the text and
`cur` is the cursor (`Shows`). Every editing key keeps it so (`Shows.step`); the searches for line
ends find the ends of rows (`isRow_at`).
-/

namespace PigOS.Shell

open List Function

variable {c : UInt8} {p i : Nat} {k : Int} {path : CStr}
namespace Nano

open Kernel TextEditor

/-! ## The ends of lines -/

section Lines

variable {buf : Nat → UInt8}

lemma lineStartLoop_spec (buf : Nat → UInt8) (pos : Nat) : lineStartLoop buf pos ≤ pos ∧
    (lineStartLoop buf pos = 0 ∨ ∃ k, lineStartLoop buf pos = k + 1 ∧ buf k = newline.val) ∧
    ∀ j, lineStartLoop buf pos ≤ j → j < pos → buf j ≠ newline.val := by
  induction pos with
  | zero => exact ⟨Nat.le_refl 0, Or.inl rfl, fun j _ hj => absurd hj (Nat.not_lt_zero j)⟩
  | succ i ih =>
    rw [lineStartLoop]
    split
    next hsep => exact ⟨Nat.le_refl _, Or.inr ⟨i, rfl, hsep⟩, fun j hle hlt => by omega⟩
    next hne =>
      obtain ⟨hle, hfirst, hinside⟩ := ih
      refine ⟨Nat.le_succ_of_le hle, hfirst, fun j hj hlt => ?_⟩
      rcases Nat.lt_succ_iff_lt_or_eq.mp hlt with hlt | rfl
      · exact hinside j hj hlt
      · exact hne

/-- The loop stops at the first separator from `i` on, or at the end. -/
lemma lineEndLoop_spec (buf : Nat → UInt8) {len : Nat} (n i : Nat) (hn : i + n = len) :
    i ≤ lineEndLoop buf len n i ∧ lineEndLoop buf len n i ≤ len ∧
    (∀ j, i ≤ j → j < lineEndLoop buf len n i → buf j ≠ newline.val) ∧
    (lineEndLoop buf len n i = len ∨ buf (lineEndLoop buf len n i) = newline.val) := by
  induction n generalizing i with
  | zero =>
    rw [lineEndLoop]
    exact ⟨by omega, Nat.le_refl len, fun j hj hlt => by omega, Or.inl rfl⟩
  | succ n ih =>
    rw [lineEndLoop]
    split
    next hsep => exact ⟨Nat.le_refl i, by omega, fun j hj hlt => by omega, Or.inr hsep⟩
    next hne =>
      obtain ⟨hle, hlen, hinside, hlast⟩ := ih (i + 1) (by omega)
      refine ⟨by omega, hlen, fun j hj hlt => ?_, hlast⟩
      rcases Nat.eq_or_lt_of_le hj with rfl | hj
      · exact hne
      · exact hinside j hj hlt

variable {len pos : Nat}

lemma getElem?_cells_eq_some {j : Nat} : ((range len).map buf)[j]? = some c ↔ j < len ∧ buf j = c := by
  rw [Cells.getElem?_map_range]
  split
  next hlt => simp [hlt]
  next hge => simp [hge]

/-- **What the searches find are the ends of a row.** -/
theorem isRow_at (buf : Nat → UInt8) (hpos : pos ≤ len) :
    IsRow newline.val ((range len).map buf) (nanoFindLineStart buf pos) (nanoFindLineEnd buf len pos) ∧
    nanoFindLineStart buf pos ≤ pos ∧ pos ≤ nanoFindLineEnd buf len pos := by
  obtain ⟨hstart, hfirst, hbefore⟩ := lineStartLoop_spec buf pos
  obtain ⟨hend, hlen, hbehind, hlast⟩ := lineEndLoop_spec buf (len - pos) pos (Nat.add_sub_cancel' hpos)
  unfold nanoFindLineStart nanoFindLineEnd
  refine ⟨⟨Nat.le_trans hstart hend, ?_, ?_, ?_, ?_⟩, hstart, hend⟩
  · rw [length_map, length_range]
    exact hlen
  · refine hfirst.imp_right ?_
    rintro ⟨k, hk, hsep⟩
    exact ⟨k, hk, getElem?_cells_eq_some.mpr ⟨by omega, hsep⟩⟩
  · intro j hj hlt hsep
    have hcell := (getElem?_cells_eq_some.mp hsep).2
    rcases Nat.lt_or_ge j pos with hjpos | hjpos
    · exact hbefore j hj hjpos hcell
    · exact hbehind j hjpos hlt hcell
  · rw [length_map, length_range]
    rcases Nat.eq_or_lt_of_le hlen with heq | hlt
    · exact Or.inl heq
    · refine Or.inr (getElem?_cells_eq_some.mpr ⟨hlt, ?_⟩)
      exact hlast.resolve_left (Nat.ne_of_lt hlt)

lemma nanoFindLineEnd_of_sep (hpos : pos < len) (hsep : buf pos = newline.val) : nanoFindLineEnd buf len pos = pos := by
  unfold nanoFindLineEnd
  obtain ⟨n, hn⟩ : ∃ n, len - pos = n + 1 := ⟨len - pos - 1, by omega⟩
  rw [hn, lineEndLoop, if_pos hsep]

lemma nanoFindLineStart_of_sep (hsep : buf pos = newline.val) : nanoFindLineStart buf (pos + 1) = pos + 1 := by
  unfold nanoFindLineStart
  rw [lineStartLoop, if_pos hsep]

end Lines

/-! ## The vertical moves -/

section Moves

variable {s : Editor}

lemma up_cur (h : s.cur ≤ s.elen) : s.up.cur = upFrom newline.val s.text s.cur := by
  obtain ⟨hrow, hstart, hend⟩ := isRow_at s.ebuf h
  unfold Editor.up Editor.text
  cases hls : nanoFindLineStart s.ebuf s.cur with
  | zero =>
    rw [hls] at hrow
    rw [if_neg (Nat.lt_irrefl 0), hrow.upFrom_first hend]
  | succ k =>
    rw [hls] at hrow hstart
    have hsep : s.ebuf k = newline.val := by
      rcases hrow.first with h0 | ⟨k', hk', hsep⟩
      · omega
      · rw [Nat.succ.inj hk']
        exact (getElem?_cells_eq_some.mp hsep).2
    obtain ⟨habove, hle, -⟩ := isRow_at s.ebuf (show k ≤ s.elen by omega)
    rw [nanoFindLineEnd_of_sep (by omega) hsep] at habove
    have hprev : nanoFindPrevLineStart s.ebuf (k + 1) = nanoFindLineStart s.ebuf k := by
      rw [nanoFindPrevLineStart, if_neg (by omega)]
      rfl
    rw [if_pos (Nat.succ_pos k), hrow.upFrom_eq habove hstart hend, hprev]
    dsimp only
    split <;> split <;> omega

lemma down_cur (h : s.cur ≤ s.elen) : s.down.cur = downFrom newline.val s.text s.cur := by
  obtain ⟨hrow, hstart, hend⟩ := isRow_at s.ebuf h
  unfold Editor.down Editor.text
  have hlen := hrow.le_length
  rw [length_map, length_range] at hlen
  rcases Nat.eq_or_lt_of_le hlen with heq | hlt
  · rw [if_neg (by omega), hrow.downFrom_last (by rw [length_map, length_range]; exact heq) hstart hend]
  · have hsep : s.ebuf (nanoFindLineEnd s.ebuf s.elen s.cur) = newline.val := by
      rcases hrow.last with heq | hsep
      · rw [length_map, length_range] at heq
        omega
      · exact (getElem?_cells_eq_some.mp hsep).2
    obtain ⟨hbelow, -, hle⟩ := isRow_at s.ebuf (show nanoFindLineEnd s.ebuf s.elen s.cur + 1 ≤ s.elen from hlt)
    rw [nanoFindLineStart_of_sep hsep] at hbelow
    have hmax := hbelow.le_length
    rw [length_map, length_range] at hmax
    rw [if_pos hlt, hrow.downFrom_eq hbelow hstart hend]
    dsimp only
    split <;> split <;> omega

end Moves

/-! ## The simulation -/

/-- The operation that an editing key stands for. -/
def keyOp (k : Int) : Option (Op UInt8) :=
  if k = keyLeft then some .left
  else if k = keyRight then some .right
  else if k = keyUp then some .up
  else if k = keyDown then some .down
  else if 32 ≤ k ∧ k < 127 then some (.insert (UInt8.ofNat k.toNat))
  else if k = 10 then some (.insert newline.val)
  else if k = 8 then some .deleteBefore
  else if k = 127 then some .deleteAt
  else none

/-- **The simulation relation.** The first `elen` bytes are the text, and `cur` is the cursor. -/
structure Shows (s : Editor) (e : TextEditor.Editor UInt8) : Prop where
  text : s.text = e.text
  cur : s.cur = e.cursor
  le_max : s.elen ≤ nanoMax
  plain : 0 ∉ s.text
  editing : s.asking = false ∧ s.done = false

section Simulation

variable {s : Editor} {e : TextEditor.Editor UInt8}

lemma length_text (s : Editor) : s.text.length = s.elen := by
  unfold Editor.text
  rw [length_map, length_range]

/-! ### Opening -/

/-- The reference editor with a text opened in it: the cursor is behind it. -/
def opened (t : CStr) : TextEditor.Editor UInt8 := ⟨t.map Subtype.val, t.length, Nat.le_of_eq (length_map _).symm⟩

lemma shows_nanoOpen {texts : VNode → Option CStr} {fs : Pigfs}
    (hlen : (nanoText texts fs path).length ≤ nanoMax) (junk : Nat → UInt8) :
    Shows (nanoOpen texts junk fs path) (opened (nanoText texts fs path)) := by
  have htext : (nanoOpen texts junk fs path).text = (nanoText texts fs path).map Subtype.val := by
    refine ext_getElem? fun j => ?_
    show ((range (nanoText texts fs path).length).map (Function.update _ _ _))[j]? = _
    rw [Cells.getElem?_map_range]
    split
    next hlt =>
      rw [update_of_ne (Nat.ne_of_lt hlt), Cells.writeList_apply, if_pos (Nat.zero_le j), Nat.sub_zero,
        getElem?_map, getElem?_eq_getElem hlt]
      rfl
    next hge => rw [getElem?_eq_none (by rw [length_map]; omega)]
  refine ⟨htext, rfl, hlen, ?_, rfl, rfl⟩
  rw [htext]
  intro hmem
  obtain ⟨c, -, hc⟩ := mem_map.mp hmem
  exact c.property hc

/-! ### The keys -/

variable (path)

lemma editKey_printable (hk : 32 ≤ k ∧ k < 127) :
    s.editKey path k = if s.elen < nanoMax then s.insertChar (UInt8.ofNat k.toNat) else s := by
  unfold Editor.editKey keyLeft keyRight keyUp keyDown
  rw [if_neg (by omega), if_neg (by omega), if_neg (by omega), if_neg (by omega), if_neg (by omega), if_neg (by omega),
    if_neg (by omega)]
  by_cases hroom : s.elen < nanoMax
  · rw [if_pos ⟨hk.1, hk.2, hroom⟩, if_pos hroom]
  · rw [if_neg (fun h => hroom h.2.2), if_neg (by omega), if_neg (by omega), if_neg (by omega), if_neg hroom]

lemma editKey_enter : s.editKey path 10 = if s.elen < nanoMax then s.insertChar newline.val else s := by
  simp [Editor.editKey, keyLeft, keyRight, keyUp, keyDown]

lemma editKey_backspace : s.editKey path 8 = if 0 < s.cur then s.backspace else s := by
  simp [Editor.editKey, keyLeft, keyRight, keyUp, keyDown]

lemma editKey_delete : s.editKey path 127 = if s.cur < s.elen then s.delete else s := by
  simp [Editor.editKey, keyLeft, keyRight, keyUp, keyDown]

lemma ofNat_ne_zero (hk : 32 ≤ k ∧ k < 127) : UInt8.ofNat k.toNat ≠ 0 := by
  intro h
  have hval := congrArg UInt8.toNat h
  rw [UInt8.toNat_ofNat', Nat.mod_eq_of_lt (by omega)] at hval
  have : (0 : UInt8).toNat = 0 := rfl
  omega

/-! ### The text -/

variable (h : Shows s e)

include h

lemma Shows.cur_le : s.cur ≤ s.elen := by
  rw [← length_text, h.cur, h.text]
  exact e.cursor_le

lemma Shows.length_eq : s.elen = e.text.length := by rw [← length_text, h.text]

lemma Shows.stringIn_eq : (stringIn (Function.update s.ebuf s.elen 0)).map Subtype.val = s.text := by
  have hcell : ∀ j < s.elen, Function.update s.ebuf s.elen 0 (0 + j) = s.ebuf j := by
    intro j hj
    rw [Nat.zero_add, update_of_ne (Nat.ne_of_lt hj)]
  have hmax := h.le_max
  unfold stringIn
  rw [Cells.val_textAt (m := s.elen)]
  · refine map_congr_left fun j hj => hcell j (mem_range.mp hj)
  · intro j hj hzero
    rw [hcell j hj] at hzero
    exact h.plain (mem_map.mpr ⟨j, mem_range.mpr hj, hzero⟩)
  · exact Nat.le_trans hmax (by decide)
  · intro _
    rw [Nat.zero_add, update_self]

lemma Shows.nanoKey_eq (k : Int) : nanoKey path s k = s.editKey path k := by
  rw [nanoKey, h.editing.2, h.editing.1]
  rfl

lemma Shows.move (hp : p ≤ e.text.length) : Shows { s with cur := p } ⟨e.text, p, hp⟩ :=
  ⟨h.text, rfl, h.le_max, h.plain, h.editing⟩

/-! ### Insertion -/

lemma Shows.insertChar (hc : c ≠ 0) (hroom : s.elen < nanoMax) :
    Shows (s.insertChar c) (e.apply newline.val nanoMax (.insert c)) := by
  have htext : (s.insertChar c).text = e.text.take e.cursor ++ c :: e.text.drop e.cursor := by
    rw [← h.text, ← h.cur]
    exact Cells.map_range_insert s.ebuf h.cur_le c
  rw [TextEditor.Editor.apply_insert (h.length_eq ▸ hroom)]
  refine ⟨htext, congrArg (· + 1) h.cur, hroom, ?_, h.editing⟩
  have hplain := h.plain
  rw [h.text] at hplain
  rw [htext, mem_append, mem_cons]
  rintro (hmem | hmem | hmem)
  · exact hplain (mem_of_mem_take hmem)
  · exact hc hmem.symm
  · exact hplain (mem_of_mem_drop hmem)

/-- A character that is inserted below the limit, and at the limit ignored. -/
lemma Shows.insert (hc : c ≠ 0) {s' : Editor}
    (hs' : s' = if s.elen < nanoMax then s.insertChar c else s) :
    Shows s' (e.apply newline.val nanoMax (.insert c)) := by
  rw [hs']
  split
  next hroom => exact h.insertChar hc hroom
  next hfull =>
    rw [TextEditor.Editor.apply_insert_of_full (h.length_eq ▸ hfull)]
    exact h

/-! ### Deletion -/

/-- The gap at `i` is closed, and the cursor is where the reference has it. -/
lemma Shows.closeGap (hi : i < s.elen) {e' : TextEditor.Editor UInt8}
    (htext : e'.text = e.text.eraseIdx i) (hcur : p = e'.cursor) :
    Shows { s with
      ebuf := Cells.shiftDown i (s.elen - 1 - i) s.ebuf, elen := s.elen - 1, cur := p, modified := true } e' := by
  have hcells : (range (s.elen - 1)).map (Cells.shiftDown i (s.elen - 1 - i) s.ebuf) = e.text.eraseIdx i := by
    rw [← h.text]
    exact Cells.map_range_erase s.ebuf hi
  refine ⟨hcells.trans htext.symm, hcur, Nat.le_trans (Nat.sub_le _ _) h.le_max, ?_, h.editing⟩
  show 0 ∉ (range (s.elen - 1)).map (Cells.shiftDown i (s.elen - 1 - i) s.ebuf)
  have hplain := h.plain
  rw [h.text] at hplain
  rw [hcells]
  exact fun hmem => hplain (mem_of_mem_eraseIdx hmem)

lemma Shows.backspace :
    Shows (s.editKey path 8) (e.apply newline.val nanoMax .deleteBefore) := by
  have hle := h.cur_le
  rw [editKey_backspace]
  split
  next hcur =>
    rw [TextEditor.Editor.apply_deleteBefore (h.cur ▸ hcur)]
    exact h.closeGap (by omega) (congrArg (fun p => e.text.eraseIdx (p - 1)) h.cur.symm) (congrArg (· - 1) h.cur)
  next hcur =>
    rw [TextEditor.Editor.apply_deleteBefore_of_first (h.cur ▸ hcur)]
    exact h

lemma Shows.delete : Shows (s.editKey path 127) (e.apply newline.val nanoMax .deleteAt) := by
  have hiff : s.cur < s.elen ↔ e.cursor < e.text.length := by rw [h.cur, h.length_eq]
  rw [editKey_delete]
  split
  next hcur =>
    rw [TextEditor.Editor.apply_deleteAt (hiff.mp hcur)]
    exact h.closeGap hcur (congrArg e.text.eraseIdx h.cur.symm) h.cur
  next hcur =>
    rw [TextEditor.Editor.apply_deleteAt_of_last (mt hiff.mpr hcur)]
    exact h

/-! ### Moves -/

lemma Shows.left : Shows (s.editKey path keyLeft) (e.apply newline.val nanoMax .left) := by
  have hkey : s.editKey path keyLeft = { s with cur := s.cur - 1 } := by
    show (if 0 < s.cur then { s with cur := s.cur - 1 } else s) = _
    split
    next => rfl
    next hzero => rw [show s.cur - 1 = s.cur by omega]
  rw [hkey, h.cur]
  exact h.move _

lemma Shows.right : Shows (s.editKey path keyRight) (e.apply newline.val nanoMax .right) := by
  have hle := h.cur_le
  have hkey : s.editKey path keyRight = { s with cur := min (s.cur + 1) s.elen } := by
    show (if s.cur < s.elen then { s with cur := s.cur + 1 } else s) = _
    split
    next hlt => rw [Nat.min_eq_left hlt]
    next hge => rw [show min (s.cur + 1) s.elen = s.cur by omega]
  rw [hkey, show min (s.cur + 1) s.elen = min (e.cursor + 1) e.text.length by rw [h.cur, h.length_eq]]
  exact h.move _

lemma Shows.up : Shows (s.editKey path keyUp) (e.apply newline.val nanoMax .up) := by
  have hkey : s.editKey path keyUp = { s with cur := upFrom newline.val e.text e.cursor } := by
    rw [← h.text, ← h.cur, ← up_cur h.cur_le]
    show s.up = _
    unfold Editor.up
    dsimp only
    split
    · rfl
    · rfl
  rw [hkey]
  exact h.move _

lemma Shows.down : Shows (s.editKey path keyDown) (e.apply newline.val nanoMax .down) := by
  have hkey : s.editKey path keyDown = { s with cur := downFrom newline.val e.text e.cursor } := by
    rw [← h.text, ← h.cur, ← down_cur h.cur_le]
    show s.down = _
    unfold Editor.down
    dsimp only
    split
    · rfl
    · rfl
  rw [hkey]
  exact h.move _

/-- **The step lemma.** -/
theorem Shows.step {op : Op UInt8} (hk : keyOp k = some op) :
    Shows (nanoKey path s k) (e.apply newline.val nanoMax op) := by
  rw [h.nanoKey_eq]
  unfold keyOp at hk
  split at hk
  next hkey => obtain rfl := Option.some.inj hk; exact hkey ▸ h.left path
  split at hk
  next hkey => obtain rfl := Option.some.inj hk; exact hkey ▸ h.right path
  split at hk
  next hkey => obtain rfl := Option.some.inj hk; exact hkey ▸ h.up path
  split at hk
  next hkey => obtain rfl := Option.some.inj hk; exact hkey ▸ h.down path
  split at hk
  next hkey => obtain rfl := Option.some.inj hk; exact h.insert (ofNat_ne_zero hkey) (editKey_printable path hkey)
  split at hk
  next hkey => obtain rfl := Option.some.inj hk; exact h.insert newline.property (hkey ▸ editKey_enter path)
  split at hk
  next hkey => obtain rfl := Option.some.inj hk; exact hkey ▸ h.backspace path
  split at hk
  next hkey => obtain rfl := Option.some.inj hk; exact hkey ▸ h.delete path
  next => cases hk

/-- **The run lemma.** -/
theorem Shows.run {ks : List Int} (hks : ∀ k ∈ ks, (keyOp k).isSome = true) :
    Shows (nanoKeys path s ks) (TextEditor.Editor.run newline.val nanoMax e (ks.filterMap keyOp)) := by
  induction ks generalizing s e with
  | nil => exact h
  | cons k ks ih =>
    rw [forall_mem_cons] at hks
    obtain ⟨op, hop⟩ := Option.isSome_iff_exists.mp hks.1
    rw [filterMap_cons_some hop]
    exact ih (h.step path hop) hks.2

end Simulation

/-- The slot that `memfs_create` returns is the one that is written. -/
lemma saveFile_slot {fs fs' : Pigfs} (hc : memfsCreate fs path = (some i, fs')) (c : Content) :
    ∃ m, (saveFile fs path c).memfs[i]? = some m ∧ m.content = c := by
  obtain ⟨m, hm, -⟩ := slot_of_memfsCreate hc
  refine ⟨MemFile.write c m, ?_, rfl⟩
  rw [saveFile_eq hc]
  exact modifyFile_getElem?.mpr ⟨m, hm, if_pos rfl⟩

/-- **`pnano` is the reference editor.** The text and the cursor are those of the reference editor
after the same keys, the cursor is in the text and the text below the limit. `^O` then writes this
text, and nothing else, into the slot that `memfs_create` returns. -/
theorem nano_refines_editor (texts : VNode → Option CStr) (junk : Nat → UInt8) (fs : Pigfs) (path : CStr)
    (hlen : (nanoText texts fs path).length ≤ nanoMax) (ks : List Int) (hks : ∀ k ∈ ks, (keyOp k).isSome = true) :
    let s := nanoKeys path (nanoOpen texts junk fs path) ks
    let e := TextEditor.Editor.run newline.val nanoMax (opened (nanoText texts fs path)) (ks.filterMap keyOp)
    s.text = e.text ∧ s.cur = e.cursor ∧ s.cur ≤ s.elen ∧ s.elen ≤ nanoMax ∧
    ∀ i fs', memfsCreate s.fs path = (some i, fs') →
      ∃ m, (nanoKey path s 15).fs.memfs[i]? = some m ∧ m.content.val.map Subtype.val = e.text := by
  intro s e
  have h : Shows s e := (shows_nanoOpen hlen junk).run path hks
  refine ⟨h.text, h.cur, h.cur_le, h.le_max, fun i fs' hc => ?_⟩
  have hsaved : (nanoKey path s 15).fs = (s.save path).fs := by
    rw [h.nanoKey_eq]
    rfl
  obtain ⟨m, hm, hcontent⟩ := saveFile_slot hc ⟨stringIn (Function.update s.ebuf s.elen 0), length_stringIn_lt _⟩
  refine ⟨m, hsaved ▸ hm, ?_⟩
  rw [hcontent, ← h.text]
  exact h.stringIn_eq

/-- Two lines are typed in a new file; a `c` typed after Up stands at the end of the first. -/
theorem nano_types_two_lines :
    let s := nanoKeys (cstr "/a") (nanoOpen (fun _ => none) (fun _ => 0) ⟨[], [], zeroStore⟩
      (cstr "/a")) [97, 10, 98, keyUp, 99]
    s.text = [97, 99, 10, 98] ∧ s.cur = 2 := by
  have hnew : nanoText (fun _ => none) ⟨[], [], zeroStore⟩ (cstr "/a") = [] := by
    unfold nanoText
    rw [show fileText ⟨[], [], zeroStore⟩ (cstr "/a") = none from rfl, Option.bind_fun_none]
  have h := nano_refines_editor (fun _ => none) (fun _ => 0) ⟨[], [], zeroStore⟩ (cstr "/a") (by rw [hnew]; decide)
    [97, 10, 98, keyUp, 99] (by decide)
  rw [hnew] at h
  exact ⟨h.1.trans (by decide +kernel), h.2.1.trans (by decide +kernel)⟩

end Nano
end PigOS.Shell
