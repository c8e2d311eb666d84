import Mathlib.Data.List.TakeWhile
import PigOS.Shell.Correctness.Source
import PigOS.Shell.Correctness.Tables

/-!
# `Shell.Correctness.Aliases` — an alias typed at the prompt and an alias in a sourced file

The parser of `sh_dispatch` ends a quoted value at the quote it began with and an unquoted one at a
space; the one of `lash_source` ends every value at any quote, and at nothing else. `readsAlike`
says where this makes no difference.
-/

namespace PigOS.Shell

open Kernel LineScan List

variable {σ : Type} {b : Builtins σ} {f : b.File} {s : ShState σ} {ci : Nat} {cells : Nat → UInt8} {n v : CStr}

/-- The line `alias n=v`. -/
def aliasText (n v : CStr) : CStr := cstr "alias " ++ (n ++ equalSign :: v)

/-- The line is neither expanded nor split, and its name fits; with two quotes the value has at most
129 characters. -/
structure AliasDef (n v : CStr) : Prop where
  name : equalSign ∉ n
  short : n.length ≤ 31
  value : v.length ≤ 129
  noVar : dollar ∉ n ++ v
  noPipe : bar ∉ n ++ v
  oneRow : newline ∉ n ++ v

/-! ## The two parsers -/

/-- The value that the prompt reads. -/
def typedValue : CStr → CStr
  | q :: cs => if isQuote q then (cs.takeWhile (· ≠ q)).take 127 else ((q :: cs).takeWhile (· ≠ space)).take 127
  | [] => []

/-- The value that `lash_source` reads. -/
def sourcedValue (v : CStr) : CStr :=
  ((if v.head?.any isQuote then v.drop 1 else v).takeWhile (fun c => !isQuote c)).take 127

/-- Both parsers read the same value. -/
def readsAlike : CStr → Bool
  | q :: cs =>
    if isQuote q then ((cs.takeWhile (· ≠ q)).take 127).all (fun c => !isQuote c)
    else ((q :: cs).take 127).all (fun c => c ≠ space && !isQuote c)
  | [] => true

/-- Between quotes the prompt reads on wherever `lash_source` does. -/
lemma quotedWord_eq_iff {q : CChar} (hq : isQuote q = true) (cs : CStr) (k : Nat) :
    (cs.takeWhile (· ≠ q)).take k = (cs.takeWhile (fun c => !isQuote c)).take k ↔
      ((cs.takeWhile (· ≠ q)).take k).all (fun c => !isQuote c) = true := by
  have hor : (fun c => decide (c ≠ q) || !isQuote c) = fun c => decide (c ≠ q) := by
    funext c
    by_cases hc : c = q
    · simp [hc, hq]
    · simp [hc]
  rw [take_takeWhile_eq_iff, hor, all_eq_true]
  refine forall₂_congr fun c hc => ?_
  have hmem := mem_of_mem_take hc
  have hne := mem_takeWhile_imp hmem
  rw [hne]
  exact eq_comm

lemma bareWord_eq_iff (cs : CStr) (k : Nat) :
    (cs.takeWhile (· ≠ space)).take k = (cs.takeWhile (fun c => !isQuote c)).take k ↔
      (cs.take k).all (fun c => c ≠ space && !isQuote c) = true := by
  have hspace : isQuote space = false := by decide
  have hor : (fun c => decide (c ≠ space) || !isQuote c) = fun _ => true := by
    funext c
    by_cases hc : c = space
    · rw [hc, hspace]
      rfl
    · simp [hc]
  rw [take_takeWhile_eq_iff, hor, takeWhile_eq_self_iff.mpr (fun _ _ => rfl), all_eq_true]
  refine forall₂_congr fun c _ => ?_
  by_cases hc : c = space
  · simp [hc, hspace]
  · simp [hc]

lemma typedValue_eq_sourcedValue_iff (v : CStr) : typedValue v = sourcedValue v ↔ readsAlike v = true := by
  cases v with
  | nil => exact iff_of_true rfl rfl
  | cons q cs =>
    unfold typedValue sourcedValue readsAlike
    dsimp only
    rw [head?_cons, Option.any_some]
    by_cases hq : isQuote q
    · rw [if_pos hq, if_pos hq, if_pos hq]
      exact quotedWord_eq_iff hq cs 127
    · rw [if_neg hq, if_neg hq, if_neg hq]
      exact bareWord_eq_iff (q :: cs) 127

lemma assignName_append (hname : equalSign ∉ n) (hshort : n.length ≤ 31) : assignName (n ++ equalSign :: v) = n := by
  have hall : ∀ c ∈ n, decide (c ≠ equalSign) = true := fun c hc => decide_eq_true (fun h => hname (h ▸ hc))
  rw [assignName, takeWhile_append_of_pos hall, takeWhile_cons_of_neg (by simp), append_nil,
    take_of_length_le hshort]

lemma aliasValue_append (hname : equalSign ∉ n) (hshort : n.length ≤ 31) :
    aliasValue (n ++ equalSign :: v) = typedValue v := by
  have hall : ∀ c ∈ n, decide (c ≠ equalSign) = true := fun c hc => decide_eq_true (fun h => hname (h ▸ hc))
  rw [aliasValue, assignName_append hname hshort, drop_left, head?_cons, if_pos rfl,
    dropWhile_append_of_pos hall, dropWhile_cons_of_neg (by simp), drop_one, tail_cons]
  cases v <;> rfl

lemma trim_name (n v : CStr) : trim (n ++ equalSign :: v) = trim n ++ equalSign :: v := by
  have hne : equalSign ≠ space := by decide
  rw [trim, dropWhile_append]
  simp only [List.isEmpty_iff]
  split
  next hnil => rw [trim, hnil, dropWhile_cons_of_neg (by simpa using hne), nil_append]
  next => rfl

lemma findBar_of_no_bar (q : Option CChar) {l : CStr} (h : bar ∉ l) : findBar q l = none := by
  induction l generalizing q with
  | nil => rfl
  | cons c cs ih =>
    rw [mem_cons, not_or] at h
    rw [findBar, if_neg (fun hc => h.1 hc.1.symm), ih _ h.2]
    rfl

lemma mem_aliasText {c : CChar} (hword : c ∉ cstr "alias ") (heq : c ≠ equalSign) (h : c ∉ n ++ v) :
    c ∉ aliasText n v := by
  unfold aliasText
  simp only [mem_append, mem_cons, not_or] at h ⊢
  exact ⟨hword, h.1, heq, h.2⟩

lemma splitCmd_aliasText (n v : CStr) : splitCmd (aliasText n v) = (cstr "alias", trim n ++ equalSign :: v) := by
  have hcmd : (aliasText n v).takeWhile (· ≠ space) = cstr "alias" := rfl
  have hdrop : trim ((aliasText n v).drop 5) = trim (n ++ equalSign :: v) := rfl
  rw [splitCmd, hcmd]
  exact Prod.ext rfl (hdrop.trans (trim_name n v))

section Def

variable (h : AliasDef n v)

include h

lemma AliasDef.trim : equalSign ∉ trim n ∧ (trim n).length ≤ 31 := by
  have hsub : (Shell.trim n).Sublist n := (dropWhile_suffix _).sublist
  exact ⟨fun hmem => h.name (hsub.mem hmem), hsub.length_le.trans h.short⟩

lemma sourceAlias_aliasText (behind : CStr) : sourceAlias (aliasText n v) behind = (trim n, sourcedValue v) := by
  have hdrop : (aliasText n v).drop 6 = n ++ equalSign :: v := rfl
  have hlen : (Shell.trim n).length < (Shell.trim n ++ equalSign :: v).length := by
    rw [length_append, length_cons]
    omega
  unfold sourceAlias
  dsimp only
  rw [hdrop, trim_name, assignName_append h.trim.1 h.trim.2, if_pos hlen, ← drop_drop, drop_left, drop_one, tail_cons]
  rfl

/-! ## The line at the prompt -/

lemma AliasDef.length_lt : (aliasText n v).length < shBuf := by
  have hword : (cstr "alias ").length = 6 := by decide
  have hbuf : shBuf = 512 := rfl
  have hshort := h.short
  have hvalue := h.value
  simp only [aliasText, length_append, length_cons]
  omega

lemma AliasDef.prepare (c : Core σ) : prepare c (aliasText n v) = aliasText n v := by
  have hdollar : dollar ∉ aliasText n v := mem_aliasText (by decide) (by decide) h.noVar
  unfold Shell.prepare
  rw [shExpand_of_no_dollar _ _ _ hdollar h.length_lt]
  rfl

/-- The prompt takes the line for the command `alias`, unless `alias` is itself an alias. -/
lemma shape_aliasText (c : Core σ) :
    shape c (aliasText n v) = (shAliasGet c.aliases (cstr "alias")).elim
      (.command (cstr "alias") (trim n ++ equalSign :: v)) .aliased := by
  have hbar : bar ∉ aliasText n v := mem_aliasText (by decide) (by decide) h.noPipe
  have hne : aliasText n v ≠ [] := cons_ne_nil _ _
  have hpipe : splitPipe (aliasText n v) = none := by rw [splitPipe, findBar_of_no_bar none hbar]
  unfold shape
  cases hget : shAliasGet c.aliases (cstr "alias") with
  | none => simp only [h.prepare c, hne, hpipe, splitCmd_aliasText, hget, if_false, Option.elim_none]
  | some val => simp only [h.prepare c, hne, hpipe, splitCmd_aliasText, hget, if_false, Option.elim_some]

lemma command_alias :
    ∃ s₁, command b s (cstr "alias") (trim n ++ equalSign :: v) = some ([], s₁, []) ∧
      s₁.core.aliases = shAliasSet s.core.aliases (trim n) (typedValue v) := by
  have hb : builtin (cstr "alias") (trim n ++ equalSign :: v) = .alias := rfl
  have hne : trim n ++ equalSign :: v ≠ [] := append_ne_nil_of_right_ne_nil _ (cons_ne_nil _ _)
  unfold command leaf
  rw [hb]
  dsimp only
  rw [if_neg hne, assignName_append h.trim.1 h.trim.2, aliasValue_append h.trim.1 h.trim.2]
  exact ⟨_, rfl, rfl⟩

/-! ## The line in a file -/

/-- `lash_source` sets the alias, and goes on behind the line. -/
lemma sourceRound_aliasText {rest : CStr} (hrest : ∀ c ∈ rest.head?, c = newline)
    (htext : (b.text f s.core.rest).drop ci = aliasText n v ++ rest) (cells : Nat → UInt8) :
    ∃ s₂ ci' cells', sourceRound b s f ci cells = some ([], s₂, [.source f ci' cells']) ∧
      (b.text f s.core.rest).drop ci' = rest.tail ∧
      s₂.core.aliases = shAliasSet s.core.aliases (trim n) (sourcedValue v) := by
  have hrow : ∀ c ∈ aliasText n v, decide (c = newline) = false := by
    have hnewline : newline ∉ aliasText n v := mem_aliasText (by decide) (by decide) h.oneRow
    exact fun c hc => decide_eq_false (fun heq => hnewline (heq ▸ hc))
  have hend : ∀ c ∈ rest.head?, decide (c = newline) = true := fun c hc => decide_eq_true (hrest c hc)
  have hlen : (aliasText n v).length ≤ shBuf - 2 + 1 := by
    have := h.length_lt
    omega
  have hne : (b.text f s.core.rest).drop ci ≠ [] := by
    rw [htext]
    exact cons_ne_nil _ _
  have hline : firstPiece (shBuf - 2) (· = newline) ((b.text f s.core.rest).drop ci) = aliasText n v := by
    rw [htext, firstPiece_eq hrow hend, take_of_length_le hlen]
  obtain ⟨ci', hbehind, hround⟩ := sourceRound_eq hne cells
  have hruns : runsLine (aliasText n v) = true := rfl
  have hcmd : bufferCmd cells (aliasText n v) = .define (aliasText n v) (trim n) (sourcedValue v) := by
    have hword : (aliasText n v).take 6 = cstr "alias " := rfl
    rw [bufferCmd, sourceCmd, sourceAlias_aliasText h, if_pos hword]
  simp only [hline, hruns, if_true, hcmd] at hround
  refine ⟨_, ci', _, hround, ?_, rfl⟩
  rw [hbehind, htext, behindPiece_short hrow hend hlen]

/-! ## The two tables -/

end Def

lemma shAliasSet_eq_iff (t : Table) (n v w : CStr) :
    shAliasSet t n v = shAliasSet t n w ↔ v = w ∨ shAliasGet t n = none ∧ shAliases ≤ t.length := by
  rw [shAliasSet, shAliasSet, shAliasGet, tableSet_eq, tableSet_eq, tableGet_eq, SlotTable.put_eq_put_iff]

/-- **The line typed and the line sourced.** `lash_source` stands at a line `alias n=v`, and the
same line is typed in the same state. -/
theorem alias_typed_eq_sourced_iff (h : AliasDef n v) {rest : CStr} (hrest : ∀ c ∈ rest.head?, c = newline)
    (htext : (b.text f s.core.rest).drop ci = aliasText n v ++ rest) (cells : Nat → UInt8) :
    ∃ s₂ ci' cells', sourceRound b s f ci cells = some ([], s₂, [.source f ci' cells']) ∧
      (b.text f s.core.rest).drop ci' = rest.tail ∧
      (∀ val, shAliasGet s.core.aliases (cstr "alias") = some val →
        shDispatch b s (aliasText n v) = some ([], s, [.call val])) ∧
      (shAliasGet s.core.aliases (cstr "alias") = none →
        ∃ s₁, shDispatch b s (aliasText n v) = some ([], s₁, []) ∧
          (s₁.core.aliases = s₂.core.aliases ↔
            readsAlike v = true ∨ shAliasGet s.core.aliases (trim n) = none ∧ shAliases ≤ s.core.aliases.length)) := by
  obtain ⟨s₂, ci', cells', hround, hbehind, hsourced⟩ := sourceRound_aliasText h hrest htext cells
  refine ⟨s₂, ci', cells', hround, hbehind, fun val hval => ?_, fun hnone => ?_⟩
  · rw [shDispatch_shape, shape_aliasText h, hval]
    rfl
  · obtain ⟨s₁, hcommand, htyped⟩ := command_alias (b := b) (s := s) h
    refine ⟨s₁, ?_, ?_⟩
    · rw [shDispatch_shape, shape_aliasText h, hnone]
      exact hcommand
    · rw [htyped, hsourced, shAliasSet_eq_iff, typedValue_eq_sourcedValue_iff]

/-- A value in single quotes, without a quote in it. -/
theorem alias_typed_eq_sourced_gs :
    let line := aliasText (cstr "gs") (cstr "'ls -l'")
    ∃ s₁ s₂ ci' cells, shDispatch readerBuiltins (ShState.boot [] ()) line = some ([], s₁, []) ∧
      sourceRound readerBuiltins (ShState.boot [] ()) line 0 (fun _ => 0) = some ([], s₂, [.source line ci' cells]) ∧
      s₁.core.aliases = s₂.core.aliases := by
  have hdef : AliasDef (cstr "gs") (cstr "'ls -l'") :=
    ⟨by decide, by decide, by decide, by decide, by decide, by decide⟩
  have hread : readsAlike (cstr "'ls -l'") = true := by decide
  obtain ⟨s₂, ci', cells, hsourced, -, -, hnone⟩ := @alias_typed_eq_sourced_iff Unit readerBuiltins
    (aliasText (cstr "gs") (cstr "'ls -l'")) (ShState.boot [] ()) 0 (cstr "gs") (cstr "'ls -l'") hdef [] (by simp) rfl
    (fun _ => 0)
  obtain ⟨s₁, htyped, hiff⟩ := hnone (by decide)
  exact ⟨s₁, s₂, ci', cells, htyped, hsourced, hiff.mpr (.inl hread)⟩

/-- What a result has set an alias to. -/
def aliasIn (n : CStr) (r : Result b) : Option CStr := r.bind (fun (_, s, _) => shAliasGet s.core.aliases n)

/-- `alias n=ls -l` sets `ls` where it is typed, and `ls -l` where it is sourced; `alias n="it's"`,
`it's` and `it`. -/
theorem alias_typed_ne_sourced :
    let typed v := aliasIn (cstr "n") (shDispatch readerBuiltins (ShState.boot [] ()) (aliasText (cstr "n") v))
    let sourced v :=
      aliasIn (cstr "n") (sourceRound readerBuiltins (ShState.boot [] ()) (aliasText (cstr "n") v) 0 (fun _ => 0))
    typed (cstr "ls -l") = some (cstr "ls") ∧ sourced (cstr "ls -l") = some (cstr "ls -l") ∧
      typed (cstr "\"it's\"") = some (cstr "it's") ∧ sourced (cstr "\"it's\"") = some (cstr "it") := by
  refine ⟨?_, ?_, ?_, ?_⟩ <;> decide +kernel

end PigOS.Shell
