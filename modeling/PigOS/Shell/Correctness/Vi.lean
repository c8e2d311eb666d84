import PigOS.Lib.LineScan
import PigOS.Shell.Correctness.Memfs
import PigOS.Shell.Vi

/-!
# `Shell.Correctness.Vi` — which files survive the editor `pi`

Opening a file puts the first 77 bytes of each of the first 21 lines into a row, and leaves an empty
row where there are more (`loaded_viOpen`). A session that edits one line changes cells of one row
only (`viKey_onRow`), as long as no character is typed at a column the row does not have.
-/

namespace PigOS.Shell

open List Function
namespace Vi

open Kernel Cells
open Option (map_some map_eq_some_iff bind_some bind_eq_some_iff)

variable {ws : List CStr} {cur t : CStr} {a : Nat → UInt8} {k : Int} {i nlines : Nat} {done rows : List CStr}

/-! ## The lines that fit -/

/-- The lines of a text. -/
def linesOf (t : CStr) : List CStr := t.splitOn newline

/-- What the array keeps of lines of which `k` may be read: 77 bytes each, and an empty row for the
rest. -/
def grid : Nat → List CStr → List CStr
  | 0, _ => [[]]
  | _ + 1, [] => []
  | k + 1, w :: ws => w.take (viCols - 1) :: if ws = [] then [] else grid k ws

lemma grid_cons_cons (k : Nat) (w v : CStr) (ws : List CStr) :
    grid (k + 1) (w :: v :: ws) = w.take (viCols - 1) :: grid k (v :: ws) := by
  rw [grid, if_neg (cons_ne_nil v ws)]

lemma getElem?_grid (k : Nat) (hws : ws ≠ []) (i : Nat) :
    (grid k ws)[i]? = if i ≤ k then (ws[i]?).map (fun w => if i < k then w.take (viCols - 1) else []) else none := by
  induction k generalizing ws i with
  | zero =>
    obtain ⟨w, ws, rfl⟩ := exists_cons_of_ne_nil hws
    cases i with
    | zero => rfl
    | succ i => rw [if_neg (by omega)]; rfl
  | succ k ih =>
    cases ws with
    | nil => exact absurd rfl hws
    | cons w ws =>
      cases ws with
      | nil =>
        cases i with
        | zero => rfl
        | succ i => simp [grid]
      | cons v ws =>
        rw [grid_cons_cons]
        cases i with
        | zero => rfl
        | succ i =>
          rw [getElem?_cons_succ, ih (cons_ne_nil v ws), getElem?_cons_succ]
          simp only [Nat.add_le_add_iff_right, Nat.add_lt_add_iff_right]

/-- A line of the text that the array keeps as it is. -/
def FitsRow (i : Nat) (w : CStr) : Prop := w.length ≤ if i < viRows + 1 then viCols - 1 else 0

instance (i : Nat) (w : CStr) : Decidable (FitsRow i w) := inferInstanceAs (Decidable (w.length ≤ _))

/-- The lines but for those that are left out fit the array. -/
def FitsBut (leave : Nat → Prop) (ws : List CStr) : Prop :=
  ws.length ≤ viRows + 2 ∧ ∀ i w, ws[i]? = some w → ¬leave i → FitsRow i w

lemma keep_eq_iff (i : Nat) (w : CStr) : (if i < viRows + 1 then w.take (viCols - 1) else []) = w ↔ FitsRow i w := by
  unfold FitsRow
  split
  · exact take_eq_self_iff w
  · rw [Nat.le_zero, length_eq_zero_iff, eq_comm]

lemma grid_set_eq_iff (hws : ws ≠ []) (r : Nat) :
    (grid (viRows + 1) ws).set r [] = ws.set r [] ↔ FitsBut (· = r) ws := by
  have hget := getElem?_grid (viRows + 1) hws
  constructor
  · intro heq
    have hcell : ∀ i, i ≠ r → (grid (viRows + 1) ws)[i]? = ws[i]? := by
      intro i hi
      have hcell : ((grid (viRows + 1) ws).set r [])[i]? = (ws.set r [])[i]? := by rw [heq]
      rwa [getElem?_set_ne (Ne.symm hi), getElem?_set_ne (Ne.symm hi)] at hcell
    refine ⟨?_, fun i w hw hi => ?_⟩
    · have hlen := congrArg length heq
      rw [length_set, length_set] at hlen
      rw [← hlen]
      by_contra hgt
      have hsome : (grid (viRows + 1) ws)[viRows + 2]? ≠ none := by
        rw [getElem?_eq_getElem (by omega)]
        simp
      rw [hget, if_neg (by omega)] at hsome
      exact hsome rfl
    · have hkeep := hcell i hi
      rw [hget, hw] at hkeep
      split at hkeep
      next hle => exact (keep_eq_iff i w).mp (Option.some.inj hkeep)
      next => exact absurd hkeep (by simp)
  · rintro ⟨hlen, hfits⟩
    apply ext_getElem?
    intro i
    have hbound : ∀ w, ws[i]? = some w → i ≤ viRows + 1 := by
      intro w hw
      have hlt := (List.getElem?_eq_some_iff.mp hw).1
      omega
    by_cases hi : i = r
    · subst hi
      rw [getElem?_set_self', getElem?_set_self', hget]
      cases hw : ws[i]? with
      | none => simp
      | some w => rw [if_pos (hbound w hw)]; rfl
    · rw [getElem?_set_ne (Ne.symm hi), getElem?_set_ne (Ne.symm hi), hget]
      cases hw : ws[i]? with
      | none => simp
      | some w =>
        rw [if_pos (hbound w hw), map_some]
        exact congrArg some ((keep_eq_iff i w).mpr (hfits i w hw hi))

lemma grid_eq_iff (hws : ws ≠ []) : grid (viRows + 1) ws = ws ↔ FitsBut (fun _ => False) ws := by
  -- a row that neither list has
  let r := max ws.length (grid (viRows + 1) ws).length
  have hgrid : (grid (viRows + 1) ws).set r [] = grid (viRows + 1) ws :=
    set_eq_of_length_le (Nat.le_max_right ..)
  have hset : ws.set r [] = ws := set_eq_of_length_le (Nat.le_max_left ..)
  have h := grid_set_eq_iff hws r
  rw [hgrid, hset] at h
  rw [h]
  refine and_congr_right fun _ => forall_congr' fun i => forall_congr' fun w => imp_congr_right fun hw => ?_
  have hlt : i < r := Nat.lt_of_lt_of_le (List.getElem?_eq_some_iff.mp hw).1 (Nat.le_max_left ..)
  exact imp_congr_left (iff_of_true hlt.ne (fun hf => hf))

/-! ## Opening a file -/

/-- The rows that the loop of `cmd_vi` makes, from the line that is being read on. -/
def rowsFrom : Nat → CStr → CStr → List CStr
  | _, cur, [] => [cur]
  | nlines, cur, c :: t =>
    if nlines < viRows + 2 then
      if c = newline then cur :: rowsFrom (nlines + 1) [] t
      else rowsFrom nlines (if cur.length < viCols - 1 then cur ++ [c] else cur) t
    else [cur]

lemma rowsFrom_full (h : viRows + 2 ≤ nlines) (cur t : CStr) : rowsFrom nlines cur t = [cur] := by
  cases t with
  | nil => rfl
  | cons c t => rw [rowsFrom, if_neg (by omega)]

lemma take_append_of_full (hcur : ¬cur.length < viCols - 1) (s t : CStr) :
    (cur ++ s).take (viCols - 1) = (cur ++ t).take (viCols - 1) := by
  rw [take_append_of_le_length (by omega), take_append_of_le_length (by omega)]

lemma linesOf_newline (t : CStr) : linesOf (newline :: t) = [] :: linesOf t := by
  rw [linesOf, splitOn_cons_eq_if_modifyHead, if_pos (beq_iff_eq.mpr rfl)]
  rfl

lemma linesOf_cons {c : CChar} (hc : c ≠ newline) (t : CStr) : linesOf (c :: t) = (linesOf t).modifyHead (c :: ·) := by
  rw [linesOf, splitOn_cons_eq_if_modifyHead, if_neg (fun h => hc (beq_iff_eq.mp h))]
  rfl

lemma linesOf_ne_nil (t : CStr) : linesOf t ≠ [] := splitOn_ne_nil newline t

lemma newline_notMem_linesOf (t : CStr) : ∀ w ∈ linesOf t, newline ∉ w := by
  induction t with
  | nil =>
    intro w hw
    rw [mem_singleton.mp (show w ∈ [[]] from hw)]
    exact not_mem_nil
  | cons c t ih =>
    by_cases hc : c = newline
    · rw [hc, linesOf_newline]
      exact forall_mem_cons.mpr ⟨not_mem_nil, ih⟩
    · rw [linesOf_cons hc]
      obtain ⟨w, ws, hws⟩ := exists_cons_of_ne_nil (linesOf_ne_nil t)
      rw [hws] at ih ⊢
      rw [forall_mem_cons] at ih
      refine forall_mem_cons.mpr ⟨fun hmem => ?_, ih.2⟩
      rcases mem_cons.mp hmem with heq | hmem
      · exact hc heq.symm
      · exact ih.1 hmem

lemma rowsFrom_eq {k : Nat} (hk : nlines + k = viRows + 1) (hcur : cur.length ≤ viCols - 1)
    (t : CStr) : rowsFrom nlines cur t = grid (k + 1) ((linesOf t).modifyHead (cur ++ ·)) := by
  induction t generalizing nlines cur k with
  | nil =>
    change [cur] = grid (k + 1) [cur ++ []]
    rw [append_nil, grid, take_of_length_le hcur, if_pos rfl]
  | cons c t ih =>
    obtain ⟨w, ws, hws⟩ := exists_cons_of_ne_nil (linesOf_ne_nil t)
    rw [rowsFrom, if_pos (by omega)]
    by_cases hc : c = newline
    · -- the next row is read, unless this was the last one that is
      rw [if_pos hc, hc, linesOf_newline, modifyHead_cons, append_nil, grid, take_of_length_le hcur,
        if_neg (linesOf_ne_nil t)]
      refine congrArg (cur :: ·) ?_
      cases k with
      | zero => rw [rowsFrom_full (by omega)]; rfl
      | succ k =>
        rw [ih (k := k) (by omega) (Nat.zero_le _), hws]
        rfl
    · rw [if_neg hc, linesOf_cons hc, hws, modifyHead_cons, modifyHead_cons]
      by_cases hroom : cur.length < viCols - 1
      · rw [if_pos hroom, ih hk (by rw [length_append, length_singleton]; omega), hws,
          modifyHead_cons, append_assoc]
        rfl
      · rw [if_neg hroom, ih hk hcur, hws, modifyHead_cons, grid, grid, take_append_of_full hroom]

/-- The rows in the array: each holds its text, and the rows behind them are empty. -/
structure Loaded (a : Nat → UInt8) (rows : List CStr) : Prop where
  count : rows.length ≤ viRows + 2
  holds : ∀ i t, rows[i]? = some t → Holds 0 a (row i) t ∧ t.length ≤ viCols - 1
  clear : ∀ i, rows.length ≤ i → i < viRows + 3 → a (row i) = 0

lemma row_apart {j c d : Nat} (hij : i ≠ j) (hc : c < viCols) (hd : d < viCols) : row i + c ≠ row j + d := by
  unfold row viCols at *
  omega

lemma loaded_clearRows (junk : Nat → UInt8) : Loaded (clearRows junk) [[]] := by
  have hclear : ∀ i, i < viRows + 3 → clearRows junk (row i) = 0 := by
    intro i hi
    unfold clearRows row
    rw [if_pos ⟨Nat.mul_mod_left .., by rwa [Nat.mul_div_cancel _ (by decide)]⟩]
  refine ⟨by decide, fun i t ht => ?_, fun i _ hi => hclear i hi⟩
  have hi : i = 0 := by
    have hlt := (List.getElem?_eq_some_iff.mp ht).1
    rw [length_singleton] at hlt
    omega
  subst hi
  obtain rfl : [] = t := Option.some.inj ht
  exact ⟨⟨fun j x hx => absurd hx (by simp), hclear 0 (by decide)⟩, Nat.zero_le _⟩

lemma Loaded.push (h : Loaded a (done ++ [cur])) (hroom : cur.length < viCols - 1) (c : CChar) :
    Loaded (Function.update (Function.update a (row done.length + cur.length) c) (row done.length + cur.length + 1) 0)
      (done ++ [cur ++ [c]]) := by
  have hcount := h.count
  rw [length_append, length_singleton] at hcount
  have hframe : ∀ i d, i ≠ done.length → d < viCols →
      Function.update (Function.update a (row done.length + cur.length) c.val) (row done.length + cur.length + 1) 0
        (row i + d) = a (row i + d) := by
    intro i d hi hd
    have h1 : row i + d ≠ row done.length + (cur.length + 1) := row_apart hi hd (by omega)
    have h2 : row i + d ≠ row done.length + cur.length := row_apart hi hd (by omega)
    rw [update_of_ne (by rw [Nat.add_assoc]; exact h1), update_of_ne h2]
  refine ⟨by rwa [length_append, length_singleton], fun i t ht => ?_, fun i hle hi => ?_⟩
  · by_cases hlast : i = done.length
    · subst hlast
      rw [getElem?_concat_length] at ht
      obtain rfl : cur ++ [c] = t := Option.some.inj ht
      have hcur := (h.holds done.length cur getElem?_concat_length).1
      exact ⟨hcur.push c, by rw [length_append, length_singleton]; omega⟩
    · have hlt : i < done.length := by
        have hlt := (List.getElem?_eq_some_iff.mp ht).1
        rw [length_append, length_singleton] at hlt
        omega
      rw [getElem?_append_left hlt] at ht
      obtain ⟨hholds, hlen⟩ := h.holds i t (by rw [getElem?_append_left hlt]; exact ht)
      exact ⟨hholds.congr (fun j hj => hframe i j hlast (by omega)), hlen⟩
  · rw [length_append, length_singleton] at hle
    refine (hframe i 0 (by omega) (by decide)).trans (h.clear i ?_ hi)
    rwa [length_append, length_singleton]

lemma Loaded.next (h : Loaded a rows) (hlt : rows.length < viRows + 2) : Loaded a (rows ++ [[]]) := by
  refine ⟨by rw [length_append, length_singleton]; omega, fun i t ht => ?_, fun i hle hi => ?_⟩
  · by_cases hlast : i = rows.length
    · subst hlast
      rw [getElem?_concat_length] at ht
      obtain rfl : [] = t := Option.some.inj ht
      exact ⟨⟨fun j x hx => absurd hx (by simp), h.clear rows.length (Nat.le_refl _) (by omega)⟩, Nat.zero_le _⟩
    · have hi : i < rows.length := by
        have hlt := (List.getElem?_eq_some_iff.mp ht).1
        rw [length_append, length_singleton] at hlt
        omega
      rw [getElem?_append_left hi] at ht
      exact h.holds i t ht
  · rw [length_append, length_singleton] at hle
    exact h.clear i (by omega) hi

lemma viSplit_loaded (t : CStr) {a : Nat → UInt8} {cur : CStr} (h : Loaded a (done ++ [cur])) :
    Loaded (viSplit t a (done.length + 1) cur.length).1 (done ++ rowsFrom (done.length + 1) cur t) ∧
      (viSplit t a (done.length + 1) cur.length).2 = (done ++ rowsFrom (done.length + 1) cur t).length := by
  induction t generalizing a done cur with
  | nil => exact ⟨h, by rw [rowsFrom, length_append]; rfl⟩
  | cons c t ih =>
    have hlast : (done ++ [cur])[done.length]? = some cur := getElem?_concat_length
    rw [viSplit, rowsFrom]
    by_cases hlt : done.length + 1 < viRows + 2
    · rw [if_pos hlt, if_pos hlt]
      by_cases hc : c = newline
      · rw [if_pos hc, if_pos hc, Nat.add_sub_cancel]
        -- the terminator is there already
        have hstop := (h.holds done.length cur hlast).1.stop
        have hsame : Function.update a (row done.length + cur.length) 0 = a := by
          rw [← hstop, update_eq_self]
        have hnext := ih (h.next (by rw [length_append, length_singleton]; exact hlt))
        rw [length_append, length_singleton, append_assoc] at hnext
        rw [hsame]
        exact hnext
      · rw [if_neg hc, if_neg hc, Nat.add_sub_cancel]
        by_cases hroom : cur.length < viCols - 1
        · rw [if_pos hroom, if_pos hroom]
          have hpush := ih (h.push hroom c)
          rw [length_append, length_singleton] at hpush
          exact hpush
        · rw [if_neg hroom, if_neg hroom]
          exact ih h
    · rw [if_neg hlt, if_neg hlt]
      exact ⟨h, by rw [length_append]; rfl⟩

/-- **What the rows hold after opening.** -/
theorem loaded_open (texts : VNode → Option CStr) (junk : Nat → UInt8) (fs : Pigfs) (path : CStr) :
    Loaded (viOpen texts junk fs path).lines (grid (viRows + 1) (linesOf (viText texts fs path))) ∧
      (viOpen texts junk fs path).nlines = (grid (viRows + 1) (linesOf (viText texts fs path))).length := by
  have hsplit := @viSplit_loaded [] (viText texts fs path) _ [] (loaded_clearRows junk)
  have hrows : rowsFrom 1 [] (viText texts fs path) = grid (viRows + 1) (linesOf (viText texts fs path)) := by
    rw [rowsFrom_eq (k := viRows) (by decide) (Nat.zero_le _)]
    obtain ⟨w, ws, hws⟩ := exists_cons_of_ne_nil (linesOf_ne_nil (viText texts fs path))
    rw [hws]
    rfl
  rw [nil_append, length_nil, hrows] at hsplit
  exact hsplit

variable {path : CStr} {fs : Pigfs}

lemma loaded_viOpen {texts : VNode → Option CStr} {junk : Nat → UInt8} {text : CStr}
    (htext : fileText fs path = some text) :
    Loaded (viOpen texts junk fs path).lines (grid (viRows + 1) (linesOf text)) ∧
      (viOpen texts junk fs path).nlines = (grid (viRows + 1) (linesOf text)).length := by
  have hvi : viText texts fs path = text := by rw [viText, htext]
  rw [← hvi]
  exact loaded_open texts junk fs path

/-! ## What a key can do -/

/-- What a key of normal mode can do. -/
inductive NormalStep (s : Editor) (k : Int) : Option Editor → Prop where
  | stay (mode : ViMode) (cmd : CStr) (afterD : Bool) :
      NormalStep s k (some { s with mode := mode, cmd := cmd, afterD := afterD })
  | left : NormalStep s k (some { s with cx := s.cx - 1 })
  | right : NormalStep s k
      ((kslAt s.lines (row s.cy)).map fun l => if s.cx + 1 < l then { s with cx := s.cx + 1 } else s)
  | toRow (cy : Nat) (hcy : s.cy < s.nlines → cy < s.nlines) : NormalStep s k (s.toRow cy)
  | lineStart : NormalStep s k (some { s with cx := 0 })
  | lineEnd : NormalStep s k ((kslAt s.lines (row s.cy)).map fun l => { s with cx := l })
  | last (hk : k = key 'G') : NormalStep s k (some { s with cy := s.nlines - 1 })
  | first : NormalStep s k (some { s with cy := 0, cx := 0 })
  | delete (hd : s.afterD = true) (hk : k = key 'd') : NormalStep s k { s with afterD := false }.deleteLine
  | below (hd : ¬s.afterD = true) (hk : k = key 'o') : NormalStep s k s.openBelow
  | above (hd : ¬s.afterD = true) (hk : k = key 'O') : NormalStep s k s.openAbove

lemma normalKey_step (s : Editor) (k : Int) : NormalStep s k (s.normalKey k) := by
  -- the branches of the source, one by one
  refine iteInduction (fun hd => ?_) fun hd => ?_
  · exact iteInduction (fun hk => .delete hd hk) fun _ => .stay s.mode s.cmd false
  refine iteInduction (fun _ => .stay .insert s.cmd s.afterD) fun _ => ?_
  refine iteInduction (fun _ => .stay .cmd [] s.afterD) fun _ => ?_
  refine iteInduction (fun _ => .left) fun _ => ?_
  refine iteInduction (fun _ => .right) fun _ => ?_
  refine iteInduction (fun _ => ?_) fun _ => ?_
  · exact iteInduction (fun _ => .toRow (s.cy - 1) (fun hlt => by omega)) fun _ => .stay s.mode s.cmd s.afterD
  refine iteInduction (fun _ => ?_) fun _ => ?_
  · exact iteInduction (fun hlt => .toRow (s.cy + 1) (fun _ => hlt)) fun _ => .stay s.mode s.cmd s.afterD
  refine iteInduction (fun _ => .lineStart) fun _ => ?_
  refine iteInduction (fun _ => .lineEnd) fun _ => ?_
  refine iteInduction (fun hk => .last hk) fun _ => ?_
  refine iteInduction (fun _ => .first) fun _ => ?_
  refine iteInduction (fun _ => .stay s.mode s.cmd true) fun _ => ?_
  refine iteInduction (fun hk => .below hd hk) fun _ => ?_
  exact iteInduction (fun hk => .above hd hk) fun _ => .stay s.mode s.cmd s.afterD

/-- What a key of insert mode can do. -/
inductive InsertStep (s : Editor) (k : Int) : Option Editor → Prop where
  | left (mode : ViMode) : InsertStep s k (some { s with mode := mode, cx := s.cx - 1 })
  | right : InsertStep s k ((kslAt s.lines (row s.cy)).map fun l => if s.cx < l then { s with cx := s.cx + 1 } else s)
  | up (hk : k = keyUp) : InsertStep s k (some (if 0 < s.cy then { s with cy := s.cy - 1 } else s))
  | down (hk : k = keyDown) : InsertStep s k (some (if s.cy + 1 < s.nlines then { s with cy := s.cy + 1 } else s))
  | lineStart : InsertStep s k (some { s with cx := 0 })
  | lineEnd : InsertStep s k ((kslAt s.lines (row s.cy)).map fun l => { s with cx := l })
  | backspace (hk : k = 8) : InsertStep s k s.backspace
  | split (hk : k = 10) : InsertStep s k s.splitLine
  | char (hk : 32 ≤ k ∧ k < 127) : InsertStep s k (s.insertChar (UInt8.ofNat k.toNat))
  | stay : InsertStep s k (some s)

lemma insertKey_step (s : Editor) (k : Int) : InsertStep s k (s.insertKey k) := by
  refine iteInduction (fun _ => .left .normal) fun _ => ?_
  refine iteInduction (fun _ => .left s.mode) fun _ => ?_
  refine iteInduction (fun _ => .right) fun _ => ?_
  refine iteInduction (fun hk => .up hk) fun _ => ?_
  refine iteInduction (fun hk => .down hk) fun _ => ?_
  refine iteInduction (fun _ => .lineStart) fun _ => ?_
  refine iteInduction (fun _ => .lineEnd) fun _ => ?_
  refine iteInduction (fun hk => .backspace hk) fun _ => ?_
  refine iteInduction (fun hk => .split hk) fun _ => ?_
  exact iteInduction (fun hk => .char hk) fun _ => .stay

/-- A key of command mode may write the file; the cursor and the lines stay. -/
inductive CmdStep (path : CStr) (s : Editor) : Option Editor → Prop where
  | stay (mode : ViMode) (cmd : CStr) (done : Bool) :
      CmdStep path s (some { s with mode := mode, cmd := cmd, done := done })
  | save (f : Editor → Editor) (hf : ∀ s, ∃ mode cmd done, f s = { s with mode := mode, cmd := cmd, done := done }) :
      CmdStep path s ((s.save path).map f)

lemma cmdKey_step (path : CStr) (s : Editor) (k : Int) : CmdStep path s (s.cmdKey path k) := by
  unfold Editor.cmdKey
  split
  · exact .stay .normal [] s.done
  split
  · unfold Editor.execute
    split
    · exact .stay s.mode s.cmd true
    split
    · refine .save _ fun s => ?_
      split
      · exact ⟨s.mode, s.cmd, true, rfl⟩
      · exact ⟨.normal, [], s.done, rfl⟩
    · exact .stay .normal [] s.done
  split
  · exact .stay s.mode s.cmd.dropLast s.done
  split
  · exact .stay s.mode _ s.done
  · exact .stay s.mode s.cmd s.done

/-! ## Sessions on one line -/

/-- The key adds a line or takes one away. -/
def Reshapes (s : Editor) (k : Int) : Prop :=
  match s.mode with
  | .normal =>
    if s.afterD then k = key 'd' ∧ 1 < s.nlines else (k = key 'o' ∨ k = key 'O') ∧ s.nlines < viRows + 2
  | .insert => (k = 10 ∧ s.nlines < viRows + 2) ∨ (k = 8 ∧ s.cx = 0 ∧ 0 < s.cy)
  | .cmd => False

/-- The key types a character on the line of the cursor, or takes one back. -/
def Types (s : Editor) (k : Int) : Prop := s.mode = .insert ∧ ((32 ≤ k ∧ k < 127) ∨ (k = 8 ∧ 0 < s.cx))

/-- A key that edits line `r` at most, and there no column that the row does not have. -/
def OnLine (r : Nat) (s : Editor) (k : Int) : Prop :=
  ¬Reshapes s k ∧ (Types s k → s.cy = r ∧ (32 ≤ k ∧ k < 127 → s.cx < viCols))

/-- A key that edits nothing. -/
def Untouched (s : Editor) (k : Int) : Prop := ¬Reshapes s k ∧ ¬Types s k

/-- Every key of a session is pressed in a state in which it is as `P` says. -/
def Along (path : CStr) (P : Editor → Int → Prop) : Editor → List Int → Prop
  | _, [] => True
  | s, k :: ks => P s k ∧ ∀ s', viKey path s k = some s' → Along path P s' ks

/-- The rows are left alone, the cursor stays on a line, and the file is written at most. -/
structure Editor.Same (path : CStr) (s s' : Editor) : Prop where
  lines : s'.lines = s.lines
  nlines : s'.nlines = s.nlines
  cursor : s.cy < s.nlines → s'.cy < s.nlines
  files : s'.fs = s.fs ∨ ∃ text, s'.fs = saveFile s.fs path text

lemma Editor.Same.refl (path : CStr) (s : Editor) : s.Same path s := ⟨rfl, rfl, fun h => h, .inl rfl⟩

variable {s s' : Editor}

lemma Editor.toRow_same {cy : Nat} (h : s.toRow cy = some s') (hcy : s.cy < s.nlines → cy < s.nlines) :
    s.Same path s' := by
  obtain ⟨l, -, rfl⟩ := map_eq_some_iff.mp h
  exact ⟨rfl, rfl, hcy, .inl rfl⟩

lemma normalKey_same (path : CStr) (hmode : s.mode = .normal) (hre : ¬Reshapes s k)
    (h : s.normalKey k = some s') : s.Same path s' := by
  unfold Reshapes at hre
  rw [hmode] at hre
  have hstep := normalKey_step s k
  generalize s.normalKey k = r at h hstep
  cases hstep with
  | stay | left | lineStart =>
    obtain rfl := Option.some.inj h
    exact ⟨rfl, rfl, fun h => h, .inl rfl⟩
  | right =>
    obtain ⟨l, -, rfl⟩ := map_eq_some_iff.mp h
    split
    · exact ⟨rfl, rfl, fun h => h, .inl rfl⟩
    · exact .refl path s
  | toRow cy hcy => exact Editor.toRow_same h hcy
  | lineEnd =>
    obtain ⟨l, -, rfl⟩ := map_eq_some_iff.mp h
    exact ⟨rfl, rfl, fun h => h, .inl rfl⟩
  | last =>
    obtain rfl := Option.some.inj h
    exact ⟨rfl, rfl, fun hlt => Nat.sub_lt (by omega) Nat.one_pos, .inl rfl⟩
  | first =>
    obtain rfl := Option.some.inj h
    exact ⟨rfl, rfl, fun hlt => Nat.lt_of_le_of_lt (Nat.zero_le _) hlt, .inl rfl⟩
  | delete hd hk =>
    rw [if_pos hd] at hre
    have hone : ¬1 < s.nlines := fun hlt => hre ⟨hk, hlt⟩
    rw [Editor.deleteLine, if_neg hone] at h
    obtain rfl := Option.some.inj h
    exact ⟨rfl, rfl, fun h => h, .inl rfl⟩
  | below hd hk =>
    rw [if_neg hd] at hre
    rw [Editor.openBelow, if_neg (fun hlt => hre ⟨Or.inl hk, hlt⟩)] at h
    obtain rfl := Option.some.inj h
    exact .refl path s
  | above hd hk =>
    rw [if_neg hd] at hre
    rw [Editor.openAbove, if_neg (fun hlt => hre ⟨Or.inr hk, hlt⟩)] at h
    obtain rfl := Option.some.inj h
    exact .refl path s

lemma cmdKey_same (h : s.cmdKey path k = some s') : s.Same path s' := by
  have hstep := cmdKey_step path s k
  generalize s.cmdKey path k = r at h hstep
  cases hstep with
  | stay =>
    obtain rfl := Option.some.inj h
    exact ⟨rfl, rfl, fun h => h, .inl rfl⟩
  | save f hf =>
    obtain ⟨q, hq, rfl⟩ := map_eq_some_iff.mp h
    obtain ⟨mode, cmd, done, hfq⟩ := hf q
    rw [hfq]
    unfold Editor.save at hq
    split at hq
    · obtain rfl := Option.some.inj hq
      exact ⟨rfl, rfl, fun h => h, .inr ⟨_, rfl⟩⟩
    · cases hq

/-- In insert mode a key that does not reshape the text leaves it, or types at the cursor. -/
lemma insertKey_cases (path : CStr) (hmode : s.mode = .insert) (hre : ¬Reshapes s k)
    (h : s.insertKey k = some s') : s.Same path s' ∨ (k = 8 ∧ 0 < s.cx ∧ s.backspace = some s') ∨
      ((32 ≤ k ∧ k < 127) ∧ s.insertChar (UInt8.ofNat k.toNat) = some s') := by
  unfold Reshapes at hre
  rw [hmode] at hre
  have hstep := insertKey_step s k
  generalize s.insertKey k = r at h hstep
  cases hstep with
  | left | lineStart | stay =>
    obtain rfl := Option.some.inj h
    exact .inl ⟨rfl, rfl, fun h => h, .inl rfl⟩
  | right =>
    obtain ⟨l, -, rfl⟩ := map_eq_some_iff.mp h
    left
    split
    · exact ⟨rfl, rfl, fun h => h, .inl rfl⟩
    · exact .refl path s
  | up =>
    obtain rfl := Option.some.inj h
    left
    split
    · exact ⟨rfl, rfl, fun hlt => Nat.lt_of_le_of_lt (Nat.sub_le ..) hlt, .inl rfl⟩
    · exact .refl path s
  | down =>
    obtain rfl := Option.some.inj h
    left
    split
    next hlt => exact ⟨rfl, rfl, fun _ => hlt, .inl rfl⟩
    next => exact .refl path s
  | lineEnd =>
    obtain ⟨l, -, rfl⟩ := map_eq_some_iff.mp h
    exact .inl ⟨rfl, rfl, fun h => h, .inl rfl⟩
  | backspace hk =>
    by_cases hcx : 0 < s.cx
    · exact .inr (.inl ⟨hk, hcx, h⟩)
    · have hcy : ¬0 < s.cy := fun hcy => hre (Or.inr ⟨hk, by omega, hcy⟩)
      rw [Editor.backspace, if_neg hcx, if_neg hcy] at h
      obtain rfl := Option.some.inj h
      exact .inl (.refl path s)
  | split hk =>
    rw [Editor.splitLine, if_neg (fun hlt => hre (Or.inl ⟨hk, hlt⟩))] at h
    obtain rfl := Option.some.inj h
    exact .inl (.refl path s)
  | char hk => exact .inr (.inr ⟨hk, h⟩)

lemma viKey_cases (hre : ¬Reshapes s k) (hkey : viKey path s k = some s') :
    s.Same path s' ∨ (s.mode = .insert ∧ k = 8 ∧ 0 < s.cx ∧ s.backspace = some s') ∨
      (s.mode = .insert ∧ (32 ≤ k ∧ k < 127) ∧ s.insertChar (UInt8.ofNat k.toNat) = some s') := by
  unfold viKey at hkey
  by_cases hdone : s.done = true
  · rw [if_pos hdone] at hkey
    obtain rfl := Option.some.inj hkey
    exact .inl (.refl path s)
  · rw [if_neg hdone] at hkey
    cases hmode : s.mode with
    | normal => rw [hmode] at hkey; exact .inl (normalKey_same path hmode hre hkey)
    | cmd => rw [hmode] at hkey; exact .inl (cmdKey_same hkey)
    | insert =>
      rw [hmode] at hkey
      rcases insertKey_cases path hmode hre hkey with hsame | ⟨hk, hcx, hback⟩ | ⟨hk, hins⟩
      · exact .inl hsame
      · exact .inr (.inl ⟨rfl, hk, hcx, hback⟩)
      · exact .inr (.inr ⟨rfl, hk, hins⟩)

/-- The row holds a line: it ends inside the row, and it is one line. -/
def RowOk (a : Nat → UInt8) (r : Nat) : Prop :=
  ∃ l ≤ viCols - 1, (∀ j < l, a (row r + j) ≠ 0 ∧ a (row r + j) ≠ newline.val) ∧ a (row r + l) = 0

variable {r : Nat}

lemma Loaded.rowOk (h : Loaded a rows)
    (ht : rows[r]? = some t) (hline : newline ∉ t) : RowOk a r := by
  obtain ⟨hholds, hlen⟩ := h.holds r t ht
  refine ⟨t.length, hlen, fun j hj => ?_, hholds.stop⟩
  have hcell := hholds.cell j _ (getElem?_eq_getElem hj)
  rw [hcell]
  exact ⟨(t[j]).property, fun heq => hline (Subtype.ext heq ▸ getElem_mem hj)⟩

lemma stringFrom_eq (h : Holds 0 a (row r) t) (hlen : t.length ≤ viCols - 1)
    (hr : r < viRows + 4) : stringFrom a (row r) = t := by
  apply h.textAt_eq
  unfold viCells row viCols viRows at *
  omega

lemma kslAt_eq {l : Nat} (hne : ∀ j < l, a (row r + j) ≠ 0) (hstop : a (row r + l) = 0)
    (hl : l ≤ viCols - 1) (hr : r < viRows + 4) : kslAt a (row r) = some l := by
  obtain ⟨t, rfl, ht⟩ := exists_holds hne hstop
  have hin : row r + t.length < viCells := by
    unfold viCells row viCols viRows at *
    omega
  rw [kslAt, stringFrom_eq ht hl hr]
  exact if_pos hin

/-- A session on line `r` so far: the other rows are as they were in `a₀`. -/
structure OnRow (a₀ : Nat → UInt8) (n r : Nat) (s : Editor) : Prop where
  nlines : s.nlines = n
  cursor : s.cy < n
  frame : ∀ i d, i ≠ r → d < viCols → s.lines (row i + d) = a₀ (row i + d)
  ends : r < n → RowOk s.lines r

variable {keys : List Int} {c : UInt8}

section OnRow

variable {a₀ : Nat → UInt8} {n r : Nat} {s s' : Editor} (h : OnRow a₀ n r s)

include h

lemma OnRow.same (hsame : s.Same path s') : OnRow a₀ n r s' where
  nlines := hsame.nlines.trans h.nlines
  cursor := h.nlines ▸ hsame.cursor (h.nlines ▸ h.cursor)
  frame := by rw [hsame.lines]; exact h.frame
  ends := by rw [hsame.lines]; exact h.ends

lemma OnRow.write {cx : Nat} {modified : Bool}
    (hframe : ∀ i d, i ≠ r → d < viCols → a (row i + d) = s.lines (row i + d)) (hends : RowOk a r) :
    OnRow a₀ n r { s with lines := a, cx := cx, modified := modified } where
  nlines := h.nlines
  cursor := h.cursor
  frame := fun i d hi hd => (hframe i d hi hd).trans (h.frame i d hi hd)
  ends := fun _ => hends

variable (hn : n ≤ viRows + 2)

include hn

lemma OnRow.insertChar (hcy : s.cy = r) (hcx : s.cx < viCols)
    (hc : c ≠ 0 ∧ c ≠ newline.val) (hins : s.insertChar c = some s') : OnRow a₀ n r s' := by
  subst hcy
  have hr : s.cy < n := h.cursor
  obtain ⟨l, hl, hline, hstop⟩ := h.ends hr
  unfold Editor.insertChar at hins
  rw [kslAt_eq (fun j hj => (hline j hj).1) hstop hl (by omega), bind_some] at hins
  split at hins
  next hroom =>
    split at hins
    next hin =>
      obtain rfl := Option.some.inj hins
      refine h.write (fun i d hi hd => ?_) ?_
      · have hcol : row i + d ≠ row s.cy + (l + 1) := row_apart hi hd (by omega)
        have hcell : row i + d ≠ row s.cy + s.cx := row_apart hi hd hcx
        rw [update_of_ne (by rwa [Nat.add_assoc]), update_of_ne hcell, shiftUp_apply, if_neg]
        -- a cell between two of one row is one of that row
        unfold row viCols at *
        omega
      · rcases Nat.lt_or_ge l s.cx with hbehind | hinside
        · -- behind the terminator the character is not part of the line
          refine ⟨l, hl, fun j hj => ?_, ?_⟩
          · rw [update_of_ne (by omega), update_of_ne (by omega), shiftUp_apply, if_neg (by omega)]
            exact hline j hj
          · rw [update_of_ne (by omega), update_of_ne (by omega), shiftUp_apply, if_neg (by omega)]
            exact hstop
        · refine ⟨l + 1, by omega, fun j hj => ?_, by rw [← Nat.add_assoc, update_self]⟩
          rw [update_of_ne (by omega)]
          by_cases hj' : j = s.cx
          · rw [hj', update_self]
            exact hc
          · rw [update_of_ne (by omega), shiftUp_apply]
            split
            · rw [show row s.cy + j - 1 = row s.cy + (j - 1) by omega]
              exact hline (j - 1) (by omega)
            · exact hline j (by omega)
    next => exact absurd hins (by simp)
  next =>
    obtain rfl := Option.some.inj hins
    exact h

lemma OnRow.backspace (hcy : s.cy = r) (hcx : 0 < s.cx)
    (hback : s.backspace = some s') : OnRow a₀ n r s' := by
  subst hcy
  have hr : s.cy < n := h.cursor
  obtain ⟨l, hl, hline, hstop⟩ := h.ends hr
  unfold Editor.backspace at hback
  rw [if_pos hcx, kslAt_eq (fun j hj => (hline j hj).1) hstop hl (by omega), map_some] at hback
  obtain rfl := Option.some.inj hback
  refine h.write (fun i d hi hd => ?_) ?_
  · rw [shiftDown_apply, if_neg]
    unfold row viCols at *
    omega
  · rcases Nat.lt_or_ge l s.cx with hbehind | hinside
    · refine ⟨l, hl, fun j hj => ?_, ?_⟩
      · rw [shiftDown_apply, if_neg (by omega)]
        exact hline j hj
      · rw [shiftDown_apply, if_neg (by omega)]
        exact hstop
    · refine ⟨l - 1, by omega, fun j hj => ?_, ?_⟩
      · rw [shiftDown_apply]
        split
        · rw [Nat.add_assoc]
          exact hline (j + 1) (by omega)
        · exact hline j (by omega)
      · rw [shiftDown_apply, if_pos (by omega), Nat.add_assoc, Nat.sub_add_cancel (by omega)]
        exact hstop

lemma viKey_onRow (hk : OnLine r s k) (hkey : viKey path s k = some s') : OnRow a₀ n r s' := by
  obtain ⟨hre, htypes⟩ := hk
  rcases viKey_cases hre hkey with hsame | ⟨hmode, hk, hcx, hback⟩ | ⟨hmode, hk, hins⟩
  · exact h.same hsame
  · exact h.backspace hn (htypes ⟨hmode, Or.inr ⟨hk, hcx⟩⟩).1 hcx hback
  · obtain ⟨hcy, hcx⟩ := htypes ⟨hmode, Or.inl hk⟩
    have hbyte : (UInt8.ofNat k.toNat).toNat = k.toNat := by
      rw [UInt8.toNat_ofNat']
      exact Nat.mod_eq_of_lt (by omega)
    refine h.insertChar hn hcy (hcx hk) ⟨fun hzero => ?_, fun hnl => ?_⟩ hins
    · rw [hzero] at hbyte
      change 0 = k.toNat at hbyte
      omega
    · rw [hnl] at hbyte
      change 10 = k.toNat at hbyte
      omega

lemma viKeys_onRow (halong : Along path (OnLine r) s keys) (hkeys : viKeys path s keys = some s') :
    OnRow a₀ n r s' := by
  induction keys generalizing s with
  | nil =>
    obtain rfl := Option.some.inj hkeys
    exact h
  | cons k ks ih =>
    obtain ⟨q, hq, hrest⟩ := bind_eq_some_iff.mp hkeys
    exact ih (viKey_onRow h hn halong.1 hq) (halong.2 q hq) hrest

end OnRow

/-! ## The file -/

lemma insertChar_fs (h : s.insertChar c = some s') : s'.fs = s.fs := by
  obtain ⟨l, -, hins⟩ := bind_eq_some_iff.mp h
  split at hins
  · split at hins
    · obtain rfl := Option.some.inj hins
      rfl
    · exact absurd hins (by simp)
  · obtain rfl := Option.some.inj hins
    rfl

lemma backspace_fs (hcx : 0 < s.cx) (h : s.backspace = some s') : s'.fs = s.fs := by
  rw [Editor.backspace, if_pos hcx] at h
  obtain ⟨l, -, rfl⟩ := map_eq_some_iff.mp h
  rfl

lemma saveFile_of_found (h : memfsFind fs path = some i) (text : Content) :
    saveFile fs path text = fs.modifyFile i (MemFile.write text) := by
  rw [saveFile, h]

/-- A file whose path fits is found in its slot all along a session on one line. -/
lemma viKeys_found (hpath : path.length < pathField)
    (halong : Along path (OnLine r) s keys) (hkeys : viKeys path s keys = some s')
    (h : memfsFind s.fs path = some i) : memfsFind s'.fs path = some i := by
  induction keys generalizing s with
  | nil =>
    obtain rfl := Option.some.inj hkeys
    exact h
  | cons k ks ih =>
    obtain ⟨q, hq, hrest⟩ := bind_eq_some_iff.mp hkeys
    refine ih (halong.2 q hq) hrest ?_
    rcases viKey_cases halong.1.1 hq with hsame | ⟨-, -, hcx, hback⟩ | ⟨-, -, hins⟩
    · rcases hsame.files with hfs | ⟨text, hfs⟩
      · rw [hfs]; exact h
      · rw [hfs, saveFile_of_found h]
        exact memfsFind_modifyFile hpath (fun _ => rfl) (fun _ h0 => h0) (fun _ _ => rfl) h
    · rw [backspace_fs hcx hback]; exact h
    · rw [insertChar_fs hins]; exact h

/-! ## Saving -/

/-- `:w` and Enter. -/
def writeKeys : List Int := [key ':', key 'w', 10]

/-- The state after `:w`. -/
def Editor.written (s : Editor) (path : CStr) (htext : s.text.length < contentField) : Editor :=
  { s with fs := saveFile s.fs path ⟨s.text, htext⟩, modified := false, mode := .normal, cmd := [] }

lemma execute_write (hcmd : s.cmd = cstr "w") (htext : s.text.length < contentField) :
    s.execute path = some (s.written path htext) := by
  rw [Editor.execute, hcmd, if_neg (by decide), if_pos (by decide), Editor.save, dif_pos htext, map_some]
  rw [hcmd, if_neg (by decide)]
  rfl

lemma viKeys_write (hdone : s.done = false) (hmode : s.mode = .normal)
    (hd : s.afterD = false) (htext : s.text.length < contentField) :
    viKeys path s writeKeys = some (s.written path htext) := by
  have hcolon : viKey path s (key ':') = some { s with mode := .cmd, cmd := [] } := by
    rw [viKey, if_neg (by rw [hdone]; decide), hmode]
    rw [Editor.normalKey, if_neg (by rw [hd]; decide), if_neg (by decide), if_pos rfl]
  have hw : viKey path { s with mode := .cmd, cmd := [] } (key 'w') =
      some { s with mode := .cmd, cmd := cstr "w" } := by
    rw [viKey, if_neg (by rw [hdone]; decide)]
    rw [Editor.cmdKey, if_neg (by decide), if_neg (by decide), if_neg (by decide),
      if_pos ⟨by decide, by decide, show ([] : CStr).length < 63 by decide⟩]
    rfl
  have henter : viKey path { s with mode := .cmd, cmd := cstr "w" } 10 = some (s.written path htext) := by
    rw [viKey, if_neg (by rw [hdone]; decide)]
    exact @execute_write path { s with mode := .cmd, cmd := cstr "w" } rfl htext
  rw [writeKeys, viKeys, hcolon, bind_some, viKeys, hw, bind_some, viKeys, henter, bind_some, viKeys]

lemma text_eq_intercalate (hpos : 0 < s.nlines) :
    s.text = [newline].intercalate ((range s.nlines).map fun i => stringFrom s.lines (row i)) := by
  obtain ⟨m, hm⟩ : ∃ m, s.nlines = m + 1 := Nat.exists_eq_add_one_of_ne_zero (by omega)
  have hfront : ∀ i ∈ range m, (stringFrom s.lines (row i) ++ if i < m then [newline] else []) =
      stringFrom s.lines (row i) ++ [newline] := by
    intro i hi
    rw [if_pos (mem_range.mp hi)]
  rw [Editor.text, hm, range_succ, map_append, map_singleton, LineScan.intercalate_concat,
    flatMap_append, flatMap_map, Nat.add_sub_cancel, flatMap_congr hfront]
  simp

section Saved

variable {a₀ : Nat → UInt8} {rows : List CStr} {r : Nat} {s : Editor}

/-- The rows of a session on line `r`: those that were loaded, but for one. -/
lemma OnRow.rows_eq (h : OnRow a₀ rows.length r s) (hload : Loaded a₀ rows) : ∃ t, newline ∉ t ∧ t.length ≤ viCols - 1 ∧
      (range s.nlines).map (fun i => stringFrom s.lines (row i)) = rows.set r t := by
  have hcount := hload.count
  have hrow : ∃ t, newline ∉ t ∧ t.length ≤ viCols - 1 ∧ (r < rows.length → stringFrom s.lines (row r) = t) := by
    by_cases hr : r < rows.length
    · obtain ⟨l, hl, hline, hstop⟩ := h.ends hr
      obtain ⟨t, rfl, ht⟩ := exists_holds (fun j hj => (hline j hj).1) hstop
      refine ⟨t, fun hmem => ?_, hl, fun _ => stringFrom_eq ht hl (by omega)⟩
      obtain ⟨j, hj, hget⟩ := mem_iff_getElem.mp hmem
      have hcell := ht.cell j newline (by rw [getElem?_eq_getElem hj, hget])
      exact (hline j hj).2 hcell
    · exact ⟨[], not_mem_nil, Nat.zero_le _, fun hlt => absurd hlt hr⟩
  obtain ⟨t, hline, hlen, ht⟩ := hrow
  refine ⟨t, hline, hlen, ext_getElem? fun i => ?_⟩
  rw [getElem?_map, h.nlines]
  by_cases hi : i < rows.length
  · rw [getElem?_range hi, map_some]
    by_cases hir : i = r
    · subst hir
      rw [getElem?_set_self hi, ht hi]
    · rw [getElem?_set_ne (Ne.symm hir), getElem?_eq_getElem hi]
      obtain ⟨hholds, hlen'⟩ := hload.holds i _ (getElem?_eq_getElem hi)
      have hframe := hholds.congr (fun j hj => h.frame i j hir (Nat.lt_of_le_of_lt (hj.trans hlen') (by decide)))
      rw [stringFrom_eq hframe hlen' (by omega)]
  · rw [getElem?_eq_none (by rw [length_range]; omega), getElem?_eq_none (by rw [length_set]; omega)]
    rfl

lemma length_text_le (h : ∀ i < s.nlines, (stringFrom s.lines (row i)).length ≤ viCols - 1) :
    s.text.length ≤ viCols * s.nlines := by
  have hlen : ∀ i ∈ range s.nlines,
      (stringFrom s.lines (row i) ++ if i < s.nlines - 1 then [newline] else []).length ≤ viCols := by
    intro i hi
    have hle := h i (mem_range.mp hi)
    have hcols : viCols = 78 := rfl
    rw [length_append]
    split
    · rw [length_singleton]
      omega
    · rw [length_nil]
      omega
  have hflat := LineScan.length_flatMap_le hlen
  rwa [length_range] at hflat

lemma length_text_lt (h : OnRow a₀ rows.length r s) (hload : Loaded a₀ rows) : s.text.length < contentField := by
  obtain ⟨t, -, ht, hrows⟩ := h.rows_eq hload
  have htext : s.text.length ≤ viCols * s.nlines := by
    refine length_text_le fun i hi => ?_
    have hmem : stringFrom s.lines (row i) ∈ rows.set r t := hrows ▸ mem_map_of_mem (mem_range.mpr hi)
    rcases mem_or_eq_of_mem_set hmem with hmem | heq
    · obtain ⟨j, hj, hget⟩ := mem_iff_getElem.mp hmem
      exact (hload.holds j _ (by rw [getElem?_eq_getElem hj, hget])).2
    · rw [heq]
      exact ht
  rw [h.nlines] at htext
  exact Nat.lt_of_le_of_lt (htext.trans (Nat.mul_le_mul_left viCols hload.count)) (by decide)

lemma OnRow.linesOf_text (h : OnRow a₀ rows.length r s) (hload : Loaded a₀ rows) (hlines : ∀ w ∈ rows, newline ∉ w) :
    ∃ t, linesOf s.text = rows.set r t ∧ s.text = [newline].intercalate (rows.set r t) := by
  obtain ⟨t, ht, -, hrows⟩ := h.rows_eq hload
  have hpos : 0 < s.nlines := h.nlines ▸ Nat.lt_of_le_of_lt (Nat.zero_le _) h.cursor
  have htext : s.text = [newline].intercalate (rows.set r t) := by rw [text_eq_intercalate hpos, hrows]
  refine ⟨t, ?_, htext⟩
  rw [linesOf, htext]
  apply splitOn_intercalate
  · intro w hw
    rcases mem_or_eq_of_mem_set hw with hw | rfl
    · exact hlines w hw
    · exact ht
  · intro hnil
    have hlen := congrArg length hnil
    rw [length_set, length_nil, ← h.nlines] at hlen
    omega

end Saved

lemma newline_notMem_grid {k : Nat} (hws : ∀ w ∈ ws, newline ∉ w) : ∀ w ∈ grid k ws, newline ∉ w := by
  induction k generalizing ws with
  | zero =>
    intro w hw
    rw [mem_singleton.mp (show w ∈ [[]] from hw)]
    exact not_mem_nil
  | succ k ih =>
    cases ws with
    | nil => exact fun w hw => absurd hw not_mem_nil
    | cons v ws =>
      rw [forall_mem_cons] at hws
      refine forall_mem_cons.mpr ⟨fun hmem => hws.1 (mem_of_mem_take hmem), ?_⟩
      split
      · exact fun w hw => absurd hw not_mem_nil
      · exact ih hws.2

lemma Along.onLine (h : Along path Untouched s keys) (r : Nat) :
    Along path (OnLine r) s keys := by
  induction keys generalizing s with
  | nil => exact h
  | cons k ks ih => exact ⟨⟨h.1.1, fun ht => absurd ht h.1.2⟩, fun s' hs' => ih (h.2 s' hs')⟩

section Write

variable {texts : VNode → Option CStr} {junk : Nat → UInt8} {fs : Pigfs} {path : CStr} {i : Nat} {m : MemFile}
  {keys : List Int} {s : Editor}

lemma write_onLine (hopen : memfsFind fs path = some i) (hm : fs.memfs[i]? = some m)
    (hrun : viKeys path (viOpen texts junk fs path) keys = some s) (hdone : s.done = false) (hmode : s.mode = .normal)
    (hd : s.afterD = false) (hfind : memfsFind s.fs path = some i)
    (halong : Along path (OnLine r) (viOpen texts junk fs path) keys) :
    ∃ s' m' t, viKeys path s writeKeys = some s' ∧ s'.fs.memfs[i]? = some m' ∧
      linesOf m'.content.val = (grid (viRows + 1) (linesOf m.content.val)).set r t ∧
      m'.content.val = [newline].intercalate ((grid (viRows + 1) (linesOf m.content.val)).set r t) := by
  have htext : fileText fs path = some m.content.val := by rw [fileText, hopen, bind_some, hm]; rfl
  obtain ⟨hload, hnlines⟩ := @loaded_viOpen path fs texts junk _ htext
  have hlines := newline_notMem_grid (k := viRows + 1) (newline_notMem_linesOf m.content.val)
  generalize hrows : grid (viRows + 1) (linesOf m.content.val) = rows at hload hnlines hlines ⊢
  have hpos : 0 < rows.length := by
    rw [← hrows]
    obtain ⟨w, ws, hws⟩ := exists_cons_of_ne_nil (linesOf_ne_nil m.content.val)
    rw [hws]
    exact Nat.succ_pos _
  have hstart : OnRow (viOpen texts junk fs path).lines rows.length r (viOpen texts junk fs path) := by
    refine ⟨hnlines, hpos, fun _ _ _ _ => rfl, fun hr => ?_⟩
    exact hload.rowOk (getElem?_eq_getElem hr) (hlines _ (getElem_mem hr))
  have hend := viKeys_onRow hstart hload.count halong hrun
  obtain ⟨t, hsplit, hjoin⟩ := hend.linesOf_text hload hlines
  have hlen := length_text_lt hend hload
  obtain ⟨-, ⟨q, hq, -, -⟩, -⟩ := memfsFind_eq_some_iff.mp hfind
  refine ⟨_, MemFile.write ⟨s.text, hlen⟩ q, t, viKeys_write hdone hmode hd hlen, ?_, hsplit, hjoin⟩
  rw [Editor.written, saveFile_of_found hfind]
  exact modifyFile_getElem?.mpr ⟨q, hq, if_pos rfl⟩

/-- **`:w` preserves the file.** Where nothing was edited, the text that is saved is the text that
was opened if and only if every line of it fits its row: 77 bytes for each of the first 21 lines,
and nothing behind the 21st line break. After edits on line `r` alone, this holds of the other
lines. -/
theorem vi_write_iff (hopen : memfsFind fs path = some i) (hm : fs.memfs[i]? = some m)
    (hrun : viKeys path (viOpen texts junk fs path) keys = some s) (hdone : s.done = false) (hmode : s.mode = .normal)
    (hd : s.afterD = false) (hpath : path.length < pathField ∨ memfsFind s.fs path = some i) :
    (Along path Untouched (viOpen texts junk fs path) keys →
      ∃ s' m', viKeys path s writeKeys = some s' ∧ s'.fs.memfs[i]? = some m' ∧
        (m'.content = m.content ↔ FitsBut (fun _ => False) (linesOf m.content.val))) ∧
    ∀ r, Along path (OnLine r) (viOpen texts junk fs path) keys →
      ∃ s' m', viKeys path s writeKeys = some s' ∧ s'.fs.memfs[i]? = some m' ∧
        ((linesOf m'.content.val).set r [] = (linesOf m.content.val).set r [] ↔
          FitsBut (· = r) (linesOf m.content.val)) := by
  have hfind : ∀ r, Along path (OnLine r) (viOpen texts junk fs path) keys → memfsFind s.fs path = some i := by
    intro r halong
    rcases hpath with hlt | hfind
    · exact viKeys_found hlt halong hrun hopen
    · exact hfind
  refine ⟨fun halong => ?_, fun r halong => ?_⟩
  · -- a line that the text does not have
    have honLine := halong.onLine (grid (viRows + 1) (linesOf m.content.val)).length
    obtain ⟨s', m', t, hwrite, hm', hsplit, hjoin⟩ :=
      write_onLine hopen hm hrun hdone hmode hd (hfind _ honLine) honLine
    rw [set_eq_of_length_le (Nat.le_refl _)] at hsplit hjoin
    refine ⟨s', m', hwrite, hm', ?_⟩
    rw [← grid_eq_iff (linesOf_ne_nil m.content.val), Subtype.ext_iff]
    constructor
    · intro heq
      rw [← hsplit, heq]
    · intro heq
      rw [hjoin, heq]
      exact intercalate_splitOn newline
  · obtain ⟨s', m', t, hwrite, hm', hsplit, -⟩ :=
      write_onLine hopen hm hrun hdone hmode hd (hfind r halong) halong
    refine ⟨s', m', hwrite, hm', ?_⟩
    rw [hsplit, set_set]
    exact grid_set_eq_iff (linesOf_ne_nil m.content.val) r

end Write

/-! ## Two files -/

lemma pathA_le : (cstr "/a").length ≤ pathField := by decide

lemma pathA_lt : (cstr "/a").length < pathField := by decide

/-- A file system with the file `/a` alone. -/
def oneFile (c : Content) : Pigfs := ⟨[⟨cstr "/a", c, 1, false, pathA_le⟩], [], zeroStore⟩

lemma memfsFind_oneFile (c : Content) : memfsFind (oneFile c) (cstr "/a") = some 0 :=
  memfsFind_eq_some_iff.mpr
    ⟨rfl, ⟨_, rfl, Nat.one_ne_zero, MemFile.cpath_of_lt pathA_lt⟩, fun j hj => absurd hj (Nat.not_lt_zero j)⟩

/-- The editor at its first prompt. -/
def opened (c : Content) : Editor := viOpen (fun _ => none) (fun _ => 1) (oneFile c) (cstr "/a")

lemma viKeys_opened (c : Content) :
    viKeys (cstr "/a") (viOpen (fun _ => none) (fun _ => 1) (oneFile c) (cstr "/a")) [] = some (opened c) := rfl

lemma linesOf_eq_singleton (h : newline ∉ t) : linesOf t = [t] :=
  splitOn_eq_singleton h

lemma oinkText_lt : (cstr "oink\nsnort").length < contentField := by decide

/-- Two lines. -/
def oinkText : Content := ⟨cstr "oink\nsnort", oinkText_lt⟩

theorem vi_write_oink :
    ∃ s' m', viKeys (cstr "/a") (opened oinkText) writeKeys = some s' ∧
      s'.fs.memfs[0]? = some m' ∧ m'.content = oinkText := by
  obtain ⟨s', m', hwrite, hm', hiff⟩ := (vi_write_iff (memfsFind_oneFile oinkText) rfl (viKeys_opened oinkText)
    rfl rfl rfl (.inl pathA_lt)).1 trivial
  refine ⟨s', m', hwrite, hm', hiff.mpr ?_⟩
  have hlines : linesOf oinkText.val = [cstr "oink", cstr "snort"] := by decide
  rw [hlines]
  refine ⟨by decide, fun i w hw _ => ?_⟩
  cases i with
  | zero => rw [← Option.some.inj hw]; decide
  | succ i =>
    cases i with
    | zero => rw [← Option.some.inj hw]; decide
    | succ i => cases hw

lemma longLine_lt : (replicate 78 (chr 'a')).length < contentField := by decide

/-- A line of 78 letters. -/
def longLine : Content := ⟨replicate 78 (chr 'a'), longLine_lt⟩

/-- The last letter of the line is lost. -/
theorem vi_write_cuts_longLine :
    ∃ s' m', viKeys (cstr "/a") (opened longLine) writeKeys = some s' ∧
      s'.fs.memfs[0]? = some m' ∧ m'.content.val = replicate 77 (chr 'a') := by
  obtain ⟨s', m', t, hwrite, hm', -, hjoin⟩ :=
    write_onLine (memfsFind_oneFile longLine) rfl (viKeys_opened longLine) rfl rfl rfl (memfsFind_oneFile longLine)
      (r := 1) trivial
  refine ⟨s', m', hwrite, hm', ?_⟩
  have hlines : linesOf longLine.val = [replicate 78 (chr 'a')] :=
    linesOf_eq_singleton fun hmem => absurd (eq_of_mem_replicate hmem) (by decide)
  rw [hjoin]
  rw [hlines]
  rfl

end Vi
end PigOS.Shell
