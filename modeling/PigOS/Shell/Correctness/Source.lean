import PigOS.Lib.LineScan
import PigOS.Shell.Dispatch

/-!
# `Shell.Correctness.Source` — which lines of a file `source` executes

`lash_source` reads a line into a buffer of 512 bytes. What does not fit is read as the next line:
behind byte 511 of a comment there may be a command. In a line `alias NAME` without `=`, the value
is taken from what the buffer still holds of earlier lines.

In a round the frame of the loop is the only one on the stack. What the round has executed is told
from the state and the frames that it leaves (`RoundDoes`), over a whole run by `SourceRun`. As long
as the commands leave the file as it is, the rounds execute the pieces that are neither blank nor
comments (`SourceRun.executed`).
-/

namespace PigOS.Shell

open Kernel LineScan List

variable {σ : Type} {t : CStr} {es : List Event} {cells : Nat → UInt8} {line n v : CStr}

/-! ## Lines and pieces -/

/-- A line that is neither blank nor a comment. -/
def runsLine (w : CStr) : Bool := !decide (trim w = [] ∨ (trim w).head? = some (chr '#'))

/-- The lines of a text that are to be executed. -/
def commandLines (t : CStr) : List CStr := (segments (· = newline) t).filter runsLine

/-- The pieces of a text that are executed. -/
def executedPieces (t : CStr) : List CStr := (cutLines (shBuf - 2) (· = newline) t).filter runsLine

/-- Every piece of a line that is too long is blank or a comment. -/
def LinesFit (t : CStr) : Prop :=
  ∀ w ∈ segments (· = newline) t, shBuf - 1 < w.length → ∀ q ∈ pieces (shBuf - 2) w, runsLine q = false

/-- The first part of a line that is not blank decides. -/
lemma runsLine_append {q r : CStr} : runsLine (q ++ r) = if trim q = [] then runsLine r else runsLine q := by
  have htrim : trim (q ++ r) = if trim q = [] then trim r else trim q ++ r := by
    rw [trim, dropWhile_append]
    simp only [List.isEmpty_iff]
    rfl
  unfold runsLine
  rw [htrim]
  split
  next => rfl
  next hne =>
    obtain ⟨c, cs, hcs⟩ := exists_cons_of_ne_nil hne
    rw [hcs]
    simp

/-- A line to be executed has a piece to be executed. -/
lemma exists_piece {w : CStr} (h : runsLine w = true) (n : Nat) : ∃ q ∈ pieces n w, runsLine q = true := by
  fun_induction pieces n w with
  | case1 w => exact ⟨w, mem_singleton_self w, h⟩
  | case2 w hlong ih =>
    rw [← take_append_drop (n + 1) w, runsLine_append] at h
    split at h
    · obtain ⟨q, hq, hruns⟩ := ih h
      exact ⟨q, mem_cons_of_mem _ hq, hruns⟩
    · exact ⟨_, mem_cons_self, h⟩

/-- The pieces are the lines exactly if the lines fit. -/
lemma executedPieces_eq_iff (t : CStr) : executedPieces t = commandLines t ↔ LinesFit t := by
  rw [executedPieces, cutLines_eq]
  exact filter_pieces_iff (fun w hw => exists_piece hw _) _

/-! ## The buffer -/

/-- The C string at `k`, once it is known what the cells hold. -/
lemma cellText_eq {k m : Nat} (hline : ∀ i < line.length, cells (k + i) = (line.map Subtype.val).getD i 0)
    (hend : cells (k + line.length) = 0) (hm : line.length < m) : cellText cells k m = line := by
  induction line generalizing k m with
  | nil =>
    obtain ⟨m, rfl⟩ := Nat.exists_eq_add_of_lt hm
    exact dif_neg (not_not.mpr hend)
  | cons c cs ih =>
    obtain ⟨m, rfl⟩ : ∃ m', m = m' + 1 := ⟨m - 1, by omega⟩
    have hc : cells k = c.val := hline 0 (Nat.succ_pos _)
    have hcs : cellText cells (k + 1) m = cs := by
      refine ih (fun i hi => ?_) ?_ (by rw [length_cons] at hm; omega)
      · rw [Nat.add_right_comm]
        exact hline (i + 1) (Nat.succ_lt_succ hi)
      · rw [Nat.add_right_comm]
        exact hend
    have hne : cells k ≠ 0 := hc ▸ c.property
    rw [cellText, dif_pos hne, hcs]
    exact congrArg (· :: cs) (Subtype.ext hc)

/-- The text of the buffer is the line that was read into it last. -/
lemma cellText_storeLine (cells : Nat → UInt8) (hline : line.length < shBuf) :
    cellText (storeLine cells line) 0 shBuf = line := by
  refine cellText_eq (fun i hi => ?_) ?_ hline
  · rw [Nat.zero_add, storeLine, if_pos (Nat.le_of_lt hi)]
  · rw [Nat.zero_add, storeLine, if_pos (Nat.le_refl _), getD_eq_getElem?_getD,
      getElem?_eq_none (by rw [length_map])]
    rfl

/-! ## Commands -/

/-- What is executed for a line: it is dispatched, or an alias is defined from it. -/
inductive SourceCmd where
  | dispatch (line : CStr)
  | define (line n v : CStr)
  deriving DecidableEq

def SourceCmd.text : SourceCmd → CStr
  | .dispatch line => line
  | .define line _ _ => line

/-- The command that a line is, if `behind` stands behind its terminator. -/
def sourceCmd (line behind : CStr) : SourceCmd :=
  if line.take 6 = cstr "alias " then
    .define line (sourceAlias line behind).1 (sourceAlias line behind).2
  else .dispatch line

/-- The command that a line is in the buffer. -/
def bufferCmd (cells : Nat → UInt8) (line : CStr) : SourceCmd :=
  sourceCmd line (cellText (storeLine cells line) (line.length + 1) 128)

/-- The commands of pieces that are read into the buffer one after the other. -/
def pieceCmds (cells : Nat → UInt8) : List CStr → List SourceCmd
  | [] => []
  | w :: ws => (if runsLine w then [bufferCmd cells w] else []) ++ pieceCmds (storeLine cells w) ws

/-- No piece takes the value of an alias from what the buffer held before it. -/
def OwnValues (cells : Nat → UInt8) : List CStr → Prop
  | [] => True
  | w :: ws => (runsLine w = true → bufferCmd cells w = sourceCmd w []) ∧ OwnValues (storeLine cells w) ws

@[simp] lemma sourceCmd_text (line behind : CStr) : (sourceCmd line behind).text = line := by
  unfold sourceCmd
  split <;> rfl

/-- The commands are those of the pieces to be executed. -/
lemma map_text_pieceCmds (cells : Nat → UInt8) (ws : List CStr) :
    (pieceCmds cells ws).map SourceCmd.text = ws.filter runsLine := by
  induction ws generalizing cells with
  | nil => rfl
  | cons w ws ih =>
    rw [pieceCmds, map_append, ih, filter_cons]
    split
    · rw [map_singleton, bufferCmd, sourceCmd_text]
      rfl
    · rfl

/-- The buffer adds nothing exactly if every value is the line's own. -/
lemma pieceCmds_eq_iff (cells : Nat → UInt8) (ws : List CStr) :
    pieceCmds cells ws = (ws.filter runsLine).map (sourceCmd · []) ↔ OwnValues cells ws := by
  induction ws generalizing cells with
  | nil => exact iff_of_true rfl trivial
  | cons w ws ih =>
    rw [pieceCmds, OwnValues, ← ih, filter_cons]
    by_cases hruns : runsLine w = true
    · rw [if_pos hruns, if_pos hruns, map_cons, singleton_append, cons.injEq, forall_prop_of_true hruns]
    · rw [if_neg hruns, if_neg hruns, nil_append]
      exact (and_iff_right fun h => absurd h hruns).symm

/-- The pieces of a text are the commands of its lines. -/
lemma pieceCmds_eq_commandLines_iff (cells : Nat → UInt8) (t : CStr) :
    pieceCmds cells (cutLines (shBuf - 2) (· = newline) t) = (commandLines t).map (sourceCmd · []) ↔
      LinesFit t ∧ OwnValues cells (cutLines (shBuf - 2) (· = newline) t) := by
  rw [← executedPieces_eq_iff, ← pieceCmds_eq_iff]
  constructor
  · intro h
    have hlines := congrArg (map SourceCmd.text) h
    rw [map_text_pieceCmds, map_map] at hlines
    have hid : SourceCmd.text ∘ (sourceCmd · []) = id := funext fun w => sourceCmd_text w []
    rw [hid, map_id] at hlines
    exact ⟨hlines, by rw [h, ← hlines]⟩
  · rintro ⟨hlines, h⟩
    rw [h, ← hlines]
    rfl

/-! ## One round -/

variable {b : Builtins σ} {f : b.File} {s s' : ShState σ} {ci : Nat} {fs : List (Frame b)}
  {cs : List SourceCmd}

/-- An alias is defined, and shown. -/
def defineAlias (s : ShState σ) (n v : CStr) : ShState σ :=
  { s with core := { s.core with aliases := shAliasSet s.core.aliases n v } }.say (aliasSet n v)

/-- What a round has executed, told from what it leaves: it is at the end of the file or has passed
over a line; or it calls `sh_dispatch`; or it has defined an alias. -/
inductive RoundDoes (b : Builtins σ) (f : b.File) (s s' : ShState σ) : List (Frame b) → List SourceCmd → Prop where
  | over (hs : s' = s) : RoundDoes b f s s' [] []
  | skip (ci : Nat) (cells : Nat → UInt8) (hs : s' = s) : RoundDoes b f s s' [.source f ci cells] []
  | dispatch (line : CStr) (ci : Nat) (cells : Nat → UInt8) (hs : s' = s) :
      RoundDoes b f s s' [.call line, .source f ci cells] [.dispatch line]
  | define (n v : CStr) (ci : Nat) (cells : Nat → UInt8) (hn : equalSign ∉ n) (hs : s' = defineAlias s n v) :
      RoundDoes b f s s' [.source f ci cells] [.define (cellText cells 0 shBuf) n v]

lemma defineAlias_printed (s : ShState σ) (n v : CStr) : (defineAlias s n v).printed =
    s.printed ++ (cstr "alias " ++ (n ++ equalSign :: (chr '\'' :: v ++ cstr "'\n"))) := by
  show s.printed ++ printText (aliasSet n v) = _
  simp only [printText, aliasSet, flatMap_cons, flatMap_nil, Emission.text, append_nil]
  rfl

/-- Two definitions that leave the same state are the same: what they print tells them apart. -/
lemma defineAlias_inj {n' v' : CStr} (hn : equalSign ∉ n) (hn' : equalSign ∉ n')
    (h : defineAlias s n v = defineAlias s n' v') : n = n' ∧ v = v' := by
  have hprinted := congrArg ShState.printed h
  rw [defineAlias_printed, defineAlias_printed] at hprinted
  have hrest := append_cancel_left (append_cancel_left hprinted)
  have hfront : ∀ (n r : CStr), equalSign ∉ n → (n ++ equalSign :: r).takeWhile (· ≠ equalSign) = n := by
    intro n r hn
    have hall : ∀ c ∈ n, decide (c ≠ equalSign) = true := fun c hc => decide_eq_true (fun h => hn (h ▸ hc))
    rw [takeWhile_append_of_pos hall,
      takeWhile_cons_of_neg (by simp), append_nil]
  have hname : n = n' := by
    rw [← hfront n _ hn, hrest, hfront n' _ hn']
  subst hname
  exact ⟨rfl, append_cancel_right (cons.inj (cons.inj (append_cancel_left hrest)).2).2⟩

lemma defineAlias_ne (s : ShState σ) (n v : CStr) : defineAlias s n v ≠ s := by
  intro h
  have hprinted := congrArg ShState.printed h
  rw [defineAlias_printed] at hprinted
  exact cons_ne_nil _ _ (append_right_eq_self.mp hprinted)

/-- What a command of a round does. -/
def cmdStep (b : Builtins σ) (s : ShState σ) : SourceCmd → ShState σ × List (Frame b)
  | .dispatch line => (s, [.call line])
  | .define _ n v => (defineAlias s n v, [])

lemma sourceRound_end (hnil : (b.text f s.core.rest).drop ci = []) :
    sourceRound b s f ci cells = goOn b s [] := by
  unfold sourceRound
  rw [hnil]
  exact if_pos rfl

/-- The counter of the source goes to what is behind the piece. -/
lemma drop_behind (t : CStr) (ci : Nat) :
    t.drop (ci + (firstPiece (shBuf - 2) (· = newline) (t.drop ci)).length +
        if ((t.drop ci).drop (firstPiece (shBuf - 2) (· = newline) (t.drop ci)).length).head? =
          some newline then 1 else 0) =
      behindPiece (shBuf - 2) (· = newline) (t.drop ci) := by
  unfold behindPiece
  dsimp only
  rw [← drop_drop, ← drop_drop]
  generalize (t.drop ci).drop (firstPiece (shBuf - 2) (· = newline) (t.drop ci)).length = u
  cases u with
  | nil => rfl
  | cons c u =>
    by_cases hc : c = newline
    · rw [head?_cons, if_pos (congrArg some hc), Option.any_some, if_pos (decide_eq_true hc)]
    · rw [head?_cons, if_neg (fun h => hc (Option.some.inj h)), Option.any_some,
        if_neg (fun h => hc (of_decide_eq_true h)), drop_zero]

/-- A round skips a line, or executes the command that it is in the buffer, and goes on behind
it. -/
lemma sourceRound_eq (hne : (b.text f s.core.rest).drop ci ≠ []) (cells : Nat → UInt8) :
    let line := firstPiece (shBuf - 2) (· = newline) ((b.text f s.core.rest).drop ci)
    ∃ ci', (b.text f s.core.rest).drop ci' =
        behindPiece (shBuf - 2) (· = newline) ((b.text f s.core.rest).drop ci) ∧
      sourceRound b s f ci cells =
        if runsLine line then
          goOn b (cmdStep b s (bufferCmd cells line)).1
            ((cmdStep b s (bufferCmd cells line)).2 ++ [.source f ci' (storeLine cells line)])
        else goOn b s [.source f ci' (storeLine cells line)] := by
  have hline : (((b.text f s.core.rest).drop ci).takeWhile (· ≠ newline)).take (shBuf - 1) =
      firstPiece (shBuf - 2) (· = newline) ((b.text f s.core.rest).drop ci) := by
    rw [firstPiece]
    congr 2
    funext c
    exact decide_not
  refine ⟨_, drop_behind _ ci, ?_⟩
  unfold sourceRound
  rw [if_neg hne, hline]
  generalize firstPiece (shBuf - 2) (· = newline) ((b.text f s.core.rest).drop ci) = line
  dsimp only
  generalize ci + line.length + _ = ci'
  by_cases hskip : trim line = [] ∨ (trim line).head? = some (chr '#')
  · have hruns : ¬runsLine line = true := by simp [runsLine, hskip]
    rw [if_pos hskip, if_neg hruns]
  · have hruns : runsLine line = true := by simp [runsLine, hskip]
    rw [if_neg hskip, if_pos hruns, bufferCmd, sourceCmd]
    split <;> rfl

lemma roundDoes_over_iff : RoundDoes b f s s [] cs ↔ cs = [] := by
  constructor
  · intro h
    cases h
    rfl
  · rintro rfl
    exact .over rfl

lemma roundDoes_skip_iff : RoundDoes b f s s [.source f ci cells] cs ↔ cs = [] := by
  constructor
  · intro h
    cases h with
    | skip => rfl
    | define n v _ _ _ hs => exact absurd hs.symm (defineAlias_ne s n v)
  · rintro rfl
    exact .skip ci cells rfl

lemma not_mem_sourceAlias (line behind : CStr) : equalSign ∉ (sourceAlias line behind).1 := by
  intro h
  have hne := mem_takeWhile_imp (mem_of_mem_take h)
  exact of_decide_eq_true hne rfl

/-- A command of a round can be told from what the round leaves. -/
lemma roundDoes_cmd_iff (hline : line.length < shBuf) :
    RoundDoes b f s (cmdStep b s (bufferCmd cells line)).1
      ((cmdStep b s (bufferCmd cells line)).2 ++ [.source f ci (storeLine cells line)]) cs ↔
      cs = [bufferCmd cells line] := by
  unfold bufferCmd sourceCmd
  generalize cellText (storeLine cells line) (line.length + 1) 128 = behind
  have htext := cellText_storeLine cells hline
  have hname := not_mem_sourceAlias line behind
  split
  · constructor
    · intro h
      cases h with
      | skip _ _ hs => exact absurd hs (defineAlias_ne s _ _)
      | define n v _ _ hn hs =>
        obtain ⟨rfl, rfl⟩ := defineAlias_inj hname hn hs
        rw [htext]
    · rintro rfl
      have h := RoundDoes.define (b := b) (f := f) (s := s) _ (sourceAlias line behind).2 ci
        (storeLine cells line) hname rfl
      rwa [htext] at h
  · constructor
    · intro h
      cases h with
      | dispatch => rfl
    · rintro rfl
      exact .dispatch line ci _ rfl

/-! ## The loop -/

/-- A run of the loop on `f`, with the commands that its rounds execute. In a round the file has the
text `t`. -/
inductive SourceRun (b : Builtins σ) (f : b.File) (t : CStr) :
    ShState σ × List (Frame b) → List SourceCmd → ShState σ × List (Frame b) → Prop where
  | refl (c : ShState σ × List (Frame b)) : SourceRun b f t c [] c
  | round {s : ShState σ} {ci : Nat} {cells : Nat → UInt8} {es : List Event} {c c' : ShState σ × List (Frame b)}
      {done cs : List SourceCmd} (htext : b.text f s.core.rest = t)
      (hstep : Frames.step (exec b) (s, [.source f ci cells]) = some (es, c)) (hdoes : RoundDoes b f s c.1 c.2 done)
      (hrest : SourceRun b f t c cs c') : SourceRun b f t (s, [.source f ci cells]) (done ++ cs) c'
  | inside {c c' c'' : ShState σ × List (Frame b)} {es : List Event} {cs : List SourceCmd}
      (hinside : ∀ ci cells, c.2 ≠ [.source f ci cells]) (hstep : Frames.step (exec b) c = some (es, c'))
      (hrest : SourceRun b f t c' cs c'') : SourceRun b f t c cs c''

/-- The commands of what is left of a text, read into a buffer. -/
def textCmds (cells : Nat → UInt8) (t : CStr) : List SourceCmd :=
  pieceCmds cells (cutLines (shBuf - 2) (· = newline) t)

/-- The loop is in the file, and `cs` and what it will execute from there are `all`; or it is
over. -/
def LoopAt (f : b.File) (t : CStr) (all : List SourceCmd) (c : ShState σ × List (Frame b))
    (cs : List SourceCmd) : Prop :=
  (∃ fs ci cells, c.2 = fs ++ [.source f ci cells] ∧ cs ++ textCmds cells (t.drop ci) = all) ∨ (c.2 = [] ∧ cs = all)

variable {c c' : ShState σ × List (Frame b)} {all done : List SourceCmd}

lemma textCmds_nil (cells : Nat → UInt8) : textCmds cells [] = [] := by
  rw [textCmds, cutLines, if_pos rfl, pieceCmds]

/-- The commands of a text are that of its first piece and those behind it. -/
lemma textCmds_round {content : CStr} (hne : content ≠ []) : textCmds cells content =
    (if runsLine (firstPiece (shBuf - 2) (· = newline) content) then
      [bufferCmd cells (firstPiece (shBuf - 2) (· = newline) content)] else []) ++
    textCmds (storeLine cells (firstPiece (shBuf - 2) (· = newline) content))
      (behindPiece (shBuf - 2) (· = newline) content) := by
  rw [textCmds, cutLines_of_ne_nil hne, pieceCmds]
  rfl

lemma step_source (h : sourceRound b s f ci cells = goOn b s' fs) :
    Frames.step (exec b) (s, [.source f ci cells]) = some ([], s', fs) := by
  change (sourceRound b s f ci cells).map (fun r => (r.1, r.2.1, r.2.2 ++ [])) = _
  rw [h, goOn, Option.map_some, append_nil]

/-- What a round leaves, and that it has executed the first command of the text, if there is one. -/
lemma source_round (htext : b.text f s.core.rest = t) (ci : Nat) (cells : Nat → UInt8) :
    (t.drop ci = [] ∧ Frames.step (exec b) (s, [.source f ci cells]) = some ([], s, []) ∧
      ∀ cs, RoundDoes b f s s [] cs ↔ cs = []) ∨
    ∃ s' fs ci' cells' cmds, t.drop ci ≠ [] ∧ (t.drop ci').length < (t.drop ci).length ∧
      b.text f s'.core.rest = t ∧ (fs = [] ∨ ∃ line, fs = [.call line]) ∧
      Frames.step (exec b) (s, [.source f ci cells]) = some ([], s', fs ++ [.source f ci' cells']) ∧
      (∀ cs, RoundDoes b f s s' (fs ++ [.source f ci' cells']) cs ↔ cs = cmds) ∧
      textCmds cells (t.drop ci) = cmds ++ textCmds cells' (t.drop ci') := by
  subst htext
  by_cases hnil : (b.text f s.core.rest).drop ci = []
  · exact .inl ⟨hnil, step_source (sourceRound_end hnil), fun cs => roundDoes_over_iff⟩
  · obtain ⟨ci', hbehind, hround⟩ := sourceRound_eq hnil cells
    have hless : (behindPiece (shBuf - 2) (· = newline) _).length < _ := length_behindPiece_lt hnil
    rw [textCmds_round hnil]
    rw [← hbehind] at hless ⊢
    right
    split at hround
    · next hruns =>
      have hline : (firstPiece (shBuf - 2) (· = newline) ((b.text f s.core.rest).drop ci)).length < shBuf :=
        Nat.lt_of_le_of_lt (length_take_le ..) (by decide)
      rw [if_pos hruns]
      generalize firstPiece (shBuf - 2) (· = newline) ((b.text f s.core.rest).drop ci) = line at hline hround ⊢
      refine ⟨_, _, ci', _, _, hnil, hless, ?_, ?_, step_source hround, fun cs => roundDoes_cmd_iff hline, rfl⟩
      · cases bufferCmd cells line <;> rfl
      · cases bufferCmd cells line with
        | dispatch line => exact .inr ⟨line, rfl⟩
        | define => exact .inl rfl
    · next hskip =>
      rw [if_neg hskip]
      exact ⟨s, [], ci', _, [], hnil, hless, rfl, .inl rfl, step_source hround, fun cs => roundDoes_skip_iff, rfl⟩

/-- A round executes what is first of what is left. -/
lemma loopAt_round (htext : b.text f s.core.rest = t)
    (hstep : Frames.step (exec b) (s, [.source f ci cells]) = some (es, c)) (hdoes : RoundDoes b f s c.1 c.2 done)
    (hcs : cs ++ textCmds cells (t.drop ci) = all) : LoopAt f t all c (cs ++ done) := by
  rcases source_round htext ci cells with
    ⟨hnil, hend, hdone⟩ | ⟨s', fs, ci', cells', cmds, -, -, -, -, hgo, hdone, hcmds⟩
  · obtain ⟨-, rfl⟩ := Prod.mk.inj (Option.some.inj (hend.symm.trans hstep))
    rw [hnil, textCmds_nil, append_nil] at hcs
    exact Or.inr ⟨rfl, by rw [(hdone done).mp hdoes, append_nil, hcs]⟩
  · obtain ⟨-, rfl⟩ := Prod.mk.inj (Option.some.inj (hgo.symm.trans hstep))
    rw [hcmds, ← append_assoc, ← (hdone done).mp hdoes] at hcs
    exact Or.inl ⟨fs, ci', cells', rfl, hcs⟩

/-- A step inside a command leaves the loop where it is. -/
lemma loopAt_inside (hinside : ∀ ci cells, c.2 ≠ [.source f ci cells])
    (hstep : Frames.step (exec b) c = some (es, c')) (h : LoopAt f t all c cs) : LoopAt f t all c' cs := by
  obtain ⟨s₁, g, k, s₂, gs, rfl, -, rfl⟩ := Frames.step_cases hstep
  rcases h with ⟨fs, ci, cells, hstack, hcs⟩ | ⟨hstack, -⟩
  · cases fs with
    | nil => exact absurd hstack (hinside ci cells)
    | cons h fs =>
      obtain ⟨-, rfl⟩ := cons.inj hstack
      exact Or.inl ⟨gs ++ fs, ci, cells, (append_assoc ..).symm, hcs⟩
  · cases hstack

/-- A run keeps what has been executed and what is left together. -/
lemma SourceRun.loopAt (h : SourceRun b f t c cs c')
    {before : List SourceCmd} (hc : LoopAt f t all c before) : LoopAt f t all c' (before ++ cs) := by
  induction h generalizing before with
  | refl c => rwa [append_nil]
  | @round s ci cells es c c' done cs htext hstep hdoes _ ih =>
    rw [← append_assoc]
    refine ih (loopAt_round htext hstep hdoes ?_)
    rcases hc with ⟨fs, ci', cells', hstack, hcs⟩ | ⟨hstack, -⟩
    · obtain ⟨rfl, hframe⟩ : fs = [] ∧ (Frame.source f ci cells : Frame b) = .source f ci' cells' := by
        cases fs with
        | nil => exact ⟨rfl, (cons.inj hstack).1⟩
        | cons h fs => exact absurd (cons.inj hstack).2 (by simp)
      cases hframe
      exact hcs
    · cases hstack
  | inside hinside hstep _ ih => exact ih (loopAt_inside hinside hstep hc)

/-- **The pieces are executed** in order, and all of them where the loop comes to its end. -/
theorem SourceRun.executed {c : ShState σ × List (Frame b)} (h : SourceRun b f t (s, [.source f 0 cells]) cs c) :
    cs <+: textCmds cells t ∧ (c.2 = [] → cs = textCmds cells t) := by
  have hstart : LoopAt f t (textCmds cells t) (s, [.source f 0 cells]) [] := Or.inl ⟨[], 0, cells, rfl, rfl⟩
  rcases h.loopAt hstart with ⟨fs, ci, cells', hstack, hcs⟩ | ⟨-, hcs⟩
  · refine ⟨⟨_, hcs⟩, fun hnil => ?_⟩
    rw [hnil] at hstack
    exact absurd hstack.symm (append_ne_nil_of_right_ne_nil fs (cons_ne_nil _ _))
  · exact ⟨⟨[], by rw [append_nil]; exact hcs⟩, fun _ => hcs⟩

/-! ## Progress -/

/-- A command comes to its end, and leaves the file as it is. -/
def Returns (f : b.File) (t : CStr) (s : ShState σ) (line : CStr) : Prop :=
  ∃ es s', Frames.Runs (exec b) (s, [.call line]) es (s', []) ∧ b.text f s'.core.rest = t

lemma SourceRun.trans {c'' : ShState σ × List (Frame b)} {cs' : List SourceCmd}
    (h : SourceRun b f t c cs c') (h' : SourceRun b f t c' cs' c'') : SourceRun b f t c (cs ++ cs') c'' := by
  induction h with
  | refl c => exact h'
  | round htext hstep hdoes _ ih =>
    rw [append_assoc]
    exact .round htext hstep hdoes (ih h')
  | inside hinside hstep _ ih => exact .inside hinside hstep (ih h')

/-- The steps of a command are steps inside the loop. -/
lemma sourceRun_of_runs (h : Frames.Runs (exec b) c es c') (ci : Nat) (cells : Nat → UInt8) :
    SourceRun b f t (c.1, c.2 ++ [.source f ci cells]) [] (c'.1, c'.2 ++ [.source f ci cells]) := by
  induction h with
  | refl c => exact .refl _
  | head hstep _ ih =>
    refine .inside (fun ci' cells' hstack => ?_) (Frames.step_append hstep [.source f ci cells]) ih
    obtain ⟨s₁, g, k, s₂, gs, rfl, -⟩ := Frames.step_cases hstep
    exact absurd (cons.inj hstack).2 (by simp)

lemma sourceRun_round (htext : b.text f s.core.rest = t)
    (hstep : Frames.step (exec b) (s, [.source f ci cells]) = some (es, c)) (hdoes : RoundDoes b f s c.1 c.2 done) :
    SourceRun b f t (s, [.source f ci cells]) done c := by
  have hrun := SourceRun.round htext hstep hdoes (.refl _)
  rwa [append_nil] at hrun

/-- The loop comes to its end, or to a command that does not come to its own or changes the file. -/
def Progresses (f : b.File) (t : CStr) (c : ShState σ × List (Frame b)) : Prop :=
  (∃ cs s, SourceRun b f t c cs (s, [])) ∨
    ∃ cs s line ci cells, SourceRun b f t c cs (s, [.call line, .source f ci cells]) ∧ ¬Returns f t s line

lemma Progresses.after (h : Progresses f t c')
    (hrun : SourceRun b f t c cs c') : Progresses f t c := by
  rcases h with ⟨cs', s, hend⟩ | ⟨cs', s, line, ci, cells, hstuck, hret⟩
  · exact Or.inl ⟨_, s, hrun.trans hend⟩
  · exact Or.inr ⟨_, s, line, ci, cells, hrun.trans hstuck, hret⟩

/-- **The loop goes on** as long as its commands return. -/
theorem source_progress (htext : b.text f s.core.rest = t) (ci : Nat) (cells : Nat → UInt8) :
    Progresses f t (s, [.source f ci cells]) := by
  induction hlen : (t.drop ci).length using Nat.strong_induction_on generalizing s ci cells with
  | _ n ih =>
    rcases source_round htext ci cells with
      ⟨-, hend, hdone⟩ | ⟨s', fs, ci', cells', cmds, -, hless, htext', hfs, hgo, hdone, -⟩
    · exact Or.inl ⟨_, s, sourceRun_round htext hend ((hdone _).mpr rfl)⟩
    · refine Progresses.after ?_ (sourceRun_round htext hgo ((hdone _).mpr rfl))
      rw [hlen] at hless
      rcases hfs with rfl | ⟨line, rfl⟩
      · exact ih _ hless htext' ci' cells' rfl
      · by_cases hret : Returns f t s' line
        · obtain ⟨es, s'', hrun, htext''⟩ := hret
          exact (ih _ hless htext'' ci' cells' rfl).after (sourceRun_of_runs hrun ci' cells')
        · exact Or.inr ⟨[], s', line, ci', cells', .refl _, hret⟩

/-! ## Lines -/

/-- However far the loop has come, it has executed the lines that are neither blank nor comments,
each as a whole and in order; all of them at the end. -/
def RunsLines (b : Builtins σ) (f : b.File) (cells : Nat → UInt8) (s : ShState σ) : Prop :=
  ∀ cs c, SourceRun b f (b.text f s.core.rest) (s, [.source f 0 cells]) cs c →
    cs <+: (commandLines (b.text f s.core.rest)).map (sourceCmd · []) ∧
    (c.2 = [] → cs = (commandLines (b.text f s.core.rest)).map (sourceCmd · []))

/-- The loop comes to its end, and no command changes the file. -/
def SourceEnds (b : Builtins σ) (f : b.File) (cells : Nat → UInt8) (s : ShState σ) : Prop :=
  ∃ cs s', SourceRun b f (b.text f s.core.rest) (s, [.source f 0 cells]) cs (s', [])

/-- Every line is one piece, but for lines with none to execute; and no alias takes its value from
the buffer. -/
def SourceFits (cells : Nat → UInt8) (t : CStr) : Prop :=
  LinesFit t ∧ OwnValues cells (cutLines (shBuf - 2) (· = newline) t)

/-- **`source` executes the lines of a file** if all of them fit its buffer, but for lines with no
piece to execute, and if no alias without `=` finds a value behind its line; and where its commands
return and leave the file alone, only then. -/
theorem source_runs_lines_iff (b : Builtins σ) (f : b.File) (cells : Nat → UInt8) (s : ShState σ) :
    Progresses f (b.text f s.core.rest) (s, [.source f 0 cells]) ∧
      (SourceFits cells (b.text f s.core.rest) → RunsLines b f cells s) ∧
      (SourceEnds b f cells s → (RunsLines b f cells s ↔ SourceFits cells (b.text f s.core.rest))) := by
  have hfit : SourceFits cells (b.text f s.core.rest) → RunsLines b f cells s := by
    intro hfit cs c hrun
    rw [← (pieceCmds_eq_commandLines_iff cells _).mpr hfit]
    exact hrun.executed
  refine ⟨source_progress rfl 0 cells, hfit, ?_⟩
  rintro ⟨cs, s', hend⟩
  refine ⟨fun hlines => ?_, hfit⟩
  refine (pieceCmds_eq_commandLines_iff cells _).mp ?_
  exact (hend.executed.2 rfl).symm.trans ((hlines cs _ hend).2 rfl)

/-- A system in which a file is its text, and the other commands do nothing. -/
def readerBuiltins : Builtins Unit :=
  { idleBuiltins with File := CStr, lookup := fun _ _ _ => none, text := fun f _ => f }

/-- A comment, an alias and a command. -/
theorem source_runs_alias :
    let t := cstr "# oink\nalias gs='ls'\ntrue\n"
    RunsLines readerBuiltins t (fun _ => 0) (ShState.boot [] ()) ∧ (commandLines t).map (sourceCmd · []) =
      [.define (cstr "alias gs='ls'") (cstr "gs") (cstr "ls"), .dispatch (cstr "true")] := by
  intro t
  have hshort : ∀ w ∈ segments (· = newline) t, w.length ≤ shBuf - 1 := by decide +kernel
  have hpieces : cutLines (shBuf - 2) (· = newline) t = segments (· = newline) t := cutLines_of_short hshort
  have hown : pieceCmds (fun _ => 0) (segments (· = newline) t) =
      ((segments (· = newline) t).filter runsLine).map (sourceCmd · []) := by decide +kernel
  refine ⟨(source_runs_lines_iff readerBuiltins t (fun _ => 0) (ShState.boot [] ())).2.1 ⟨fun w hw hlong => ?_, ?_⟩,
    by decide +kernel⟩
  · exact absurd (hshort w hw) (Nat.not_le_of_lt hlong)
  · show OwnValues _ (cutLines (shBuf - 2) (· = newline) t)
    rw [hpieces]
    exact (pieceCmds_eq_iff _ _).mp hown

/-- A comment of 513 bytes that ends in `rm`. -/
def longComment : CStr := chr '#' :: replicate 510 (chr 'x') ++ cstr "rm"

/-- No line is to be executed, and `rm` is. Behind a comment, `alias n` finds a value in it. -/
theorem source_runs_end_of_comment :
    (commandLines longComment = [] ∧ ∃ s ci cells, SourceRun readerBuiltins longComment longComment
        (ShState.boot [] (), [.source longComment 0 (fun _ => 0)]) [.dispatch (cstr "rm")]
        (s, [.call (cstr "rm"), .source longComment ci cells])) ∧
    bufferCmd (storeLine (fun _ => 0) (cstr "# piggy oink")) (cstr "alias n") =
      .define (cstr "alias n") (cstr "n") (cstr "oink") := by
  refine ⟨⟨by decide +kernel, ?_⟩, by decide +kernel⟩
  -- the comment up to the end of the buffer
  obtain ⟨ci, hbehind, hfirst⟩ :=
    @sourceRound_eq _ readerBuiltins longComment (ShState.boot [] ()) 0 (by decide) (fun _ => 0)
  have hrest : longComment.drop ci = cstr "rm" := hbehind.trans (by decide +kernel)
  have hcomment : ¬runsLine (firstPiece (shBuf - 2) (· = newline) (longComment.drop 0)) = true := by decide +kernel
  have hskip := step_source (hfirst.trans (if_neg hcomment))
  generalize storeLine _ _ = cells at hskip
  -- and what is behind it
  have hne : longComment.drop ci ≠ [] := by
    rw [hrest]
    decide
  obtain ⟨ci', -, hsecond⟩ := @sourceRound_eq _ readerBuiltins longComment (ShState.boot [] ()) ci hne cells
  have hpiece : firstPiece (shBuf - 2) (· = newline) (longComment.drop ci) = cstr "rm" := by
    rw [hrest]
    decide +kernel
  have hcmd : bufferCmd cells (cstr "rm") = .dispatch (cstr "rm") := by
    rw [bufferCmd, sourceCmd, if_neg (by decide)]
  simp only [show readerBuiltins.text longComment (ShState.boot [] ()).core.rest =
    longComment from rfl, hpiece] at hsecond
  rw [if_pos (by decide), hcmd] at hsecond
  have hrun := (sourceRun_round (t := longComment) rfl hskip (.skip ci cells rfl)).trans
    (sourceRun_round (t := longComment) rfl (step_source hsecond) (.dispatch (cstr "rm") ci' _ rfl))
  exact ⟨_, ci', _, hrun⟩

end PigOS.Shell
