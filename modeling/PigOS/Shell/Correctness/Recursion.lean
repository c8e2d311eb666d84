import Mathlib.Data.Set.Finite.List
import PigOS.Shell.Correctness.Tables

/-!
# `Shell.Correctness.Recursion` — when `sh_dispatch` comes to an end

The lines that `sh_dispatch` calls itself on are the edges of a graph (`Calls`), which depends on
the tables of the shell alone and may have cycles: `alias a=a` makes one.

The results are about a line that dispatches no file and no terminal, and in which what the left
side of a pipe does to the tables does not concern the right side (`Steady`). Without cycles
(`Acyclic`) `sh_dispatch` comes to an end, and when no command waits for keys (`Quiet`) only then.
Finitely many lines are reached, since a line is cut at 511 characters; so a graph without cycles
can be inducted on. `Pending` follows a run by the lines that are still to be dispatched.
-/

namespace PigOS.Shell

open Kernel List

variable {σ : Type} {b : Builtins σ} {l cmd a : CStr} {s : ShState σ}
variable {out : List Emission} {events es : List Event} {typed : Option CStr} {ls : List CStr}

/-! ## The graph of calls -/

/-- The lines that a command dispatches. -/
def commandCallees (hist : List CStr) (cmd a : CStr) : List CStr :=
  match builtin cmd a with
  | .rok => if a = [] then [] else [a]
  | .htop => [cstr "top"]
  | .again => [a]
  | .last => hist.getLast?.toList
  | _ => []

/-- The lines that `sh_dispatch` calls itself on, for a line. -/
def callees (c : Core σ) (raw : CStr) : List CStr :=
  match shape c raw with
  | .nothing => []
  | .pipe left right => [left, right]
  | .aliased val => [val]
  | .command cmd a => commandCallees c.hist cmd a

def Calls (c : Core σ) (l l' : CStr) : Prop := l' ∈ callees c l

def Reaches (c : Core σ) : CStr → CStr → Prop := Relation.ReflTransGen (Calls c)

/-- The line is a command that dispatches the lines of a file or of a terminal. -/
def OpensLines (c : Core σ) (raw : CStr) : Prop :=
  match shape c raw with
  | .command cmd a => builtin cmd a = .source ∧ a ≠ [] ∨ builtin cmd a = .wm
  | _ => False

instance (c : Core σ) (raw : CStr) : Decidable (OpensLines c raw) := by
  unfold OpensLines
  split <;> infer_instance

/-- The command can change what a variable stands for. -/
def ChangesVars (b : Builtins σ) (cmd a : CStr) : Prop :=
  builtin cmd a ∈ [.su, .rMinus, .exportVar, .setVar, .unsetVar] ∨
    ∃ c r, b.run cmd a c = some r ∧ r.2.1 ≠ c.cwd

def WritesVars (b : Builtins σ) (c : Core σ) (raw : CStr) : Prop :=
  match shape c raw with
  | .command cmd a => ChangesVars b cmd a
  | _ => False

/-- The name that `alias` or `unalias` writes in the alias table. -/
def commandAlias (cmd a : CStr) : Option CStr :=
  match builtin cmd a with
  | .alias => if a = [] then none else some (assignName a)
  | .unalias => some a
  | _ => none

def writtenAlias (c : Core σ) (raw : CStr) : Option CStr :=
  match shape c raw with
  | .command cmd a => commandAlias cmd a
  | _ => none

/-- The word that is looked up in the alias table. -/
def lookedUp (c : Core σ) (raw : CStr) : Option CStr :=
  match shape c raw with
  | .aliased _ => some (splitCmd (prepare c raw)).1
  | .command cmd _ => some cmd
  | _ => none

/-- The command of `l` writes the alias that `l'` is looked up for, or the variables that `l'`
has. -/
def Disturbs (b : Builtins σ) (c : Core σ) (l l' : CStr) : Prop :=
  (∃ n, writtenAlias c l = some n ∧ lookedUp c l' = some n) ∨ WritesVars b c l ∧ dollar ∈ l'

/-- Nothing that is reached from `l` disturbs what is reached from `r`. -/
def Apart (b : Builtins σ) (c : Core σ) (l r : CStr) : Prop :=
  ∀ l₁ r₁, Reaches c l l₁ → Reaches c r r₁ → ¬ Disturbs b c l₁ r₁

/-- No command that is reached dispatches a file or a terminal, and no left side of a pipe disturbs
the right side. -/
structure Steady (b : Builtins σ) (c : Core σ) (line : CStr) : Prop where
  lines : ∀ l, Reaches c line l → ¬ OpensLines c l
  pipes : ∀ l left right, Reaches c line l → shape c l = .pipe left right → Apart b c left right

/-- No line that is reached from `line` leads back to itself. -/
def Acyclic (c : Core σ) (line : CStr) : Prop :=
  ∀ l, Reaches c line l → ¬ Relation.TransGen (Calls c) l l

/-- No command that is reached waits for a key. -/
def Quiet (b : Builtins σ) (c : Core σ) (line : CStr) : Prop :=
  ∀ l cmd a, Reaches c line l → shape c l = .command cmd a →
    builtin cmd a ∉ [.rok, .su, .passwd] ∧ ∀ core, b.run cmd a core ≠ none

variable {c : Core σ} {line : CStr} {l' : CStr} {c' : Core σ}

lemma Steady.of_reaches (h : Steady b c line) (hl : Reaches c line l) : Steady b c l :=
  ⟨fun l' hl' => h.lines l' (hl.trans hl'), fun l' left right hl' => h.pipes l' left right (hl.trans hl')⟩

lemma Steady.not_opens (h : Steady b c l) (hshape : shape c l = .command cmd a) :
    ¬ (builtin cmd a = .source ∧ a ≠ []) ∧ builtin cmd a ≠ .wm := by
  have hnot := h.lines l .refl
  rw [OpensLines, hshape] at hnot
  exact not_or.mp hnot

/-! ## Finitely many lines -/

instance : Finite CChar := by
  have : Finite UInt8 := Finite.of_injective UInt8.toFin (fun _ _ => UInt8.toFin_inj.mp)
  infer_instance

/-- A line that is called is shorter than the buffer, or an alias, or a line of the history. -/
lemma Calls.bounded (h : Calls c l l') :
    l'.length < shBuf ∨ l' ∈ c.aliases.map Prod.snd ∨ l' ∈ c.hist := by
  unfold Calls callees at h
  have hlen := prepare_length_lt c l
  have hspec := shape_spec c l
  cases hshape : shape c l with
  | nothing =>
    rw [hshape] at h
    exact nomatch h
  | pipe left right =>
    rw [hshape] at h hspec
    obtain ⟨hleft, hright⟩ := splitPipe_sublist hspec
    obtain rfl | rfl : l' = left ∨ l' = right := by simpa using h
    · exact .inl (lt_of_le_of_lt hleft.length_le hlen)
    · exact .inl (lt_of_le_of_lt hright.length_le hlen)
  | aliased val =>
    rw [hshape] at h hspec
    obtain rfl : l' = val := by simpa using h
    exact .inr (.inl (tableGet_mem hspec))
  | command cmd a =>
    rw [hshape] at h hspec
    have ha : a.length < shBuf := by
      have hsub := splitCmd_sublist (prepare c l)
      rw [show splitCmd (prepare c l) = (cmd, a) from hspec] at hsub
      exact lt_of_le_of_lt hsub.length_le hlen
    dsimp only at h
    unfold commandCallees at h
    split at h
    · split at h
      · exact nomatch h
      · obtain rfl := mem_singleton.mp h
        exact .inl ha
    · obtain rfl := mem_singleton.mp h
      exact .inl (by decide)
    · obtain rfl := mem_singleton.mp h
      exact .inl ha
    · have hlast : c.hist.getLast? = some l' := by simpa using h
      exact .inr (.inr (mem_of_getLast? hlast))
    · exact nomatch h

lemma reaches_finite (c : Core σ) (line : CStr) : {l | Reaches c line l}.Finite := by
  refine Set.Finite.subset
    (((finite_length_lt CChar shBuf).union (c.aliases.map Prod.snd ++ c.hist).finite_toSet).insert line) ?_
  intro l hl
  obtain rfl | ⟨l₁, -, hcall⟩ := Relation.ReflTransGen.cases_tail hl
  · exact .inl rfl
  · refine .inr ?_
    obtain hlt | hmem := hcall.bounded
    · exact .inl hlt
    · exact .inr (mem_append.mpr hmem)

lemma Acyclic.acc (h : Acyclic c line) : Acc (flip (Calls c)) line :=
  Frames.acc_of_acyclic (reaches_finite c line) h

/-! ## What a command leaves as it is -/

lemma prepare_of_no_dollar (c c' : Core σ) (h : dollar ∉ l) : prepare c' l = prepare c l := by
  unfold prepare shExpand
  rw [expandLoop_of_no_dollar _ h, expandLoop_of_no_dollar _ h]

/-- What a line is taken for depends on its text and on one lookup. -/
lemma shape_congr (htext : prepare c' l = prepare c l)
    (hlookup : ∀ w, lookedUp c l = some w → shAliasGet c'.aliases w = shAliasGet c.aliases w) :
    shape c' l = shape c l := by
  unfold lookedUp at hlookup
  unfold shape at hlookup ⊢
  rw [htext]
  by_cases hnil : prepare c l = []
  · rw [if_pos hnil, if_pos hnil]
  · rw [if_neg hnil] at hlookup ⊢
    rw [if_neg hnil]
    cases hsplit : splitPipe (prepare c l) with
    | some parts => rfl
    | none =>
      rw [hsplit] at hlookup
      dsimp only at hlookup ⊢
      rw [hlookup]
      cases shAliasGet c.aliases (splitCmd (prepare c l)).1 <;> rfl

/-- A line that is looked up does not begin with a space. -/
lemma lookedUp_ne_nil {w : CStr} (h : lookedUp c l = some w) : w ≠ [] := by
  have hword : prepare c l ≠ [] ∧ w = (splitCmd (prepare c l)).1 := by
    unfold lookedUp at h
    have hspec := shape_spec c l
    cases hshape : shape c l with
    | nothing => rw [hshape] at h; exact nomatch h
    | pipe left right => rw [hshape] at h; exact nomatch h
    | aliased val =>
      rw [hshape] at h
      refine ⟨fun hnil => ?_, (Option.some_inj.mp h).symm⟩
      rw [shape, if_pos hnil] at hshape
      exact nomatch hshape
    | command cmd a =>
      rw [hshape] at h hspec
      refine ⟨fun hnil => ?_, ?_⟩
      · rw [shape, if_pos hnil] at hshape
        exact nomatch hshape
      · rw [show splitCmd (prepare c l) = (cmd, a) from hspec]
        exact (Option.some_inj.mp h).symm
  obtain ⟨hne, rfl⟩ := hword
  unfold prepare trim at hne ⊢
  have hhead := head_dropWhile_not (fun x => decide (x = space)) hne
  generalize dropWhile (fun x => decide (x = space)) (shExpand c.vars c.user c.cwd l shBuf) = p at hne hhead ⊢
  obtain ⟨x, p, rfl⟩ := exists_cons_of_ne_nil hne
  rw [splitCmd]
  dsimp only
  have hx : x ≠ space := of_decide_eq_false hhead
  rw [takeWhile_cons_of_pos (by simpa using hx)]
  exact cons_ne_nil _ _

lemma shSu_tables (h : shSu c a = some (out, c', events)) : c'.aliases = c.aliases ∧ c'.hist = c.hist := by
  unfold shSu at h
  dsimp only at h
  split at h
  · obtain ⟨-, rfl, -⟩ := h
    exact ⟨rfl, rfl⟩
  · obtain ⟨⟨out₁, pw, keys⟩, -, heq⟩ := Option.map_eq_some_iff.mp h
    obtain ⟨-, rfl, -⟩ := heq
    unfold suAttempt
    split <;> exact ⟨rfl, rfl⟩

/-- What a command that calls nothing leaves as it is. -/
structure LeafKeeps (b : Builtins σ) (cmd a : CStr) (c c' : Core σ) : Prop where
  hist : c'.hist = c.hist
  aliases : ∀ w, w ≠ [] → commandAlias cmd a ≠ some w → shAliasGet c'.aliases w = shAliasGet c.aliases w
  vars : ChangesVars b cmd a ∨ c'.vars = c.vars ∧ c'.user = c.user ∧ c'.cwd = c.cwd

/-- `alias` and `unalias` leave the other names alone. -/
lemma leaf_aliases (h : leaf b c typed cmd a = some (out, c', events))
    (hb : builtin cmd a ∈ [.alias, .unalias]) {w : CStr} (hw : w ≠ [])
    (hname : commandAlias cmd a ≠ some w) : shAliasGet c'.aliases w = shAliasGet c.aliases w := by
  unfold leaf at h
  unfold commandAlias at hname
  obtain hb | hb : builtin cmd a = .alias ∨ builtin cmd a = .unalias := by simpa using hb
  · rw [hb] at h hname
    dsimp only at h hname
    split at h
    · obtain ⟨-, rfl, -⟩ := h
      rfl
    · rename_i ha
      obtain ⟨-, rfl, -⟩ := h
      rw [if_neg ha, ne_eq, Option.some_inj] at hname
      unfold shAliasGet shAliasSet
      rw [tableGet_eq, tableGet_eq, tableSet_eq]
      exact SlotTable.get_put_of_ne _ (Ne.symm hname)
  · rw [hb] at h hname
    dsimp only at h hname
    have hcleared := clearFirst_eq c.aliases a
    split at h
    · rename_i aliases hclear
      obtain ⟨-, rfl, -⟩ := h
      rw [hclear, Option.getD_some] at hcleared
      unfold shAliasGet
      rw [tableGet_eq, tableGet_eq, hcleared]
      exact SlotTable.get_clearFirst_of_ne (fun heq => hname (congrArg some heq.symm)) hw
    · obtain ⟨-, rfl, -⟩ := h
      rfl

lemma leaf_keeps (h : leaf b c typed cmd a = some (out, c', events)) : LeafKeeps b cmd a c c' := by
  cases leaf_step h with
  | su hb hsu =>
    obtain ⟨haliases, hhist⟩ := shSu_tables hsu
    exact ⟨hhist, fun _ _ _ => by rw [haliases], .inl (.inl (by rw [hb]; decide))⟩
  | rMinus hb => exact ⟨rfl, fun _ _ _ => rfl, .inl (.inl (by rw [hb]; decide))⟩
  | users db keys rest => exact ⟨rfl, fun _ _ _ => rfl, .inr ⟨rfl, rfl, rfl⟩⟩
  | vars hb vars =>
    exact ⟨rfl, fun _ _ _ => rfl, .inl (.inl (mem_cons_of_mem _ (mem_cons_of_mem _ hb)))⟩
  | aliases hb aliases => exact ⟨rfl, fun w => leaf_aliases h hb, .inr ⟨rfl, rfl, rfl⟩⟩
  | @run r hrun =>
    refine ⟨rfl, fun _ _ _ => rfl, ?_⟩
    by_cases hcwd : r.2.1 = c.cwd
    · exact .inr ⟨rfl, rfl, hcwd⟩
    · exact .inl (.inr ⟨c, r, hrun, hcwd⟩)

/-! ## The lines that are still to come -/

/-- The tables of `s` take the line for what those of `c` take it for. -/
structure AgreesAt (c : Core σ) (s : ShState σ) (l : CStr) : Prop where
  text : prepare s.core l = prepare c l
  shape : shape s.core l = shape c l

/-- The lines `ls` are still to be dispatched: the tables agree with `c` on all that they reach, and
none disturbs a later one. -/
structure Pending (b : Builtins σ) (c : Core σ) (s : ShState σ) (ls : List CStr) : Prop where
  hist : s.core.hist = c.hist
  steady : ∀ l ∈ ls, Steady b c l
  agrees : ∀ l ∈ ls, ∀ l', Reaches c l l' → AgreesAt c s l'
  apart : ls.Pairwise (Apart b c)

variable {s' : ShState σ} {fs : List (Frame b)} {ls' : List CStr}

lemma Steady.pending (h : Steady b s.core line) : Pending b s.core s [line] where
  hist := rfl
  steady l hl := by rwa [mem_singleton.mp hl]
  agrees _ _ _ _ := ⟨rfl, rfl⟩
  apart := pairwise_singleton _ _

lemma Pending.shape (hp : Pending b c s (l :: ls)) : shape s.core l = shape c l :=
  (hp.agrees l mem_cons_self l .refl).shape

lemma Pending.exec_call (hp : Pending b c s (l :: ls)) :
    exec b s (.call l) = dispatchShape b s (Shell.shape c l) := Shell.exec_call hp.shape

/-- The lines that a line calls come in its place. -/
lemma Pending.calls (hp : Pending b c s (l :: ls)) (ls' : List CStr) (hcalls : ∀ l' ∈ ls', Calls c l l')
    (hapart : ls'.Pairwise (Apart b c)) : Pending b c s (ls' ++ ls) := by
  have hreach {l' l₁ : CStr} (hl' : l' ∈ ls') (hl₁ : Reaches c l' l₁) : Reaches c l l₁ :=
    .head (hcalls l' hl') hl₁
  obtain ⟨hl, hls⟩ := pairwise_cons.mp hp.apart
  refine ⟨hp.hist, fun l' hl' => ?_, fun l' hl' l₁ hl₁ => ?_, pairwise_append.mpr ⟨hapart, hls, ?_⟩⟩
  · obtain hl' | hl' := mem_append.mp hl'
    · exact (hp.steady l mem_cons_self).of_reaches (hreach hl' .refl)
    · exact hp.steady l' (mem_cons_of_mem l hl')
  · obtain hl' | hl' := mem_append.mp hl'
    · exact hp.agrees l mem_cons_self l₁ (hreach hl' hl₁)
    · exact hp.agrees l' (mem_cons_of_mem l hl') l₁ hl₁
  · exact fun l' hl' r hr l₁ r₁ hl₁ => hl r hr l₁ r₁ (hreach hl' hl₁)

lemma Pending.tail (hp : Pending b c s (l :: ls)) : Pending b c s ls :=
  hp.calls [] (forall_mem_nil _) .nil

lemma Pending.callee (hp : Pending b c s (l :: ls)) (h : Calls c l l') : Pending b c s (l' :: ls) :=
  hp.calls [l'] (forall_mem_singleton.mpr h) (pairwise_singleton _ _)

/-- What the graph of calls depends on. -/
def graphTexts (c : Core σ) : Table × List CStr × Table × CStr × CStr :=
  (c.aliases, c.hist, c.vars, c.user, c.cwd)

lemma Pending.of_texts (hp : Pending b c s ls) (h : graphTexts s'.core = graphTexts s.core) :
    Pending b c s' ls := by
  simp only [graphTexts, Prod.mk.injEq] at h
  obtain ⟨haliases, hhist, hvars, huser, hcwd⟩ := h
  have htext (l : CStr) : prepare s'.core l = prepare s.core l := by
    rw [prepare, prepare, hvars, huser, hcwd]
  refine ⟨hhist.trans hp.hist, hp.steady, fun l hl l' hl' => ?_, hp.apart⟩
  obtain ⟨htext', hshape⟩ := hp.agrees l hl l' hl'
  exact ⟨(htext l').trans htext', (shape_congr (htext l') (fun _ _ => by rw [haliases])).trans hshape⟩

/-- **A command that calls nothing** leaves the lines behind it undisturbed. -/
lemma Pending.leaf (hp : Pending b c s (l :: ls)) (hshape : Shell.shape c l = .command cmd a)
    (hkeeps : LeafKeeps b cmd a s.core s'.core) : Pending b c s' ls := by
  refine ⟨hkeeps.hist.trans hp.hist, hp.tail.steady, fun r hr r' hr' => ?_, hp.tail.apart⟩
  obtain ⟨htext, hsame⟩ := hp.tail.agrees r hr r' hr'
  have hnot : ¬ Disturbs b c l r' := (pairwise_cons.mp hp.apart).1 r hr l r' .refl hr'
  rw [Disturbs, writtenAlias, WritesVars, hshape, not_or, not_and, not_exists] at hnot
  have htext' : prepare s'.core r' = prepare s.core r' := by
    by_cases hdollar : dollar ∈ r'
    · obtain ⟨hv, hu, hc⟩ := hkeeps.vars.resolve_left (fun h => hnot.2 h hdollar)
      rw [prepare, prepare, hv, hu, hc]
    · exact prepare_of_no_dollar _ _ hdollar
  refine ⟨htext'.trans htext, Eq.trans (shape_congr htext' (fun w hw => ?_)) hsame⟩
  have hw' : lookedUp c r' = some w := by
    rw [lookedUp, hsame, htext] at hw
    exact hw
  exact hkeeps.aliases w (lookedUp_ne_nil hw) (fun hn => hnot.1 w ⟨hn, hw'⟩)

/-! ## One call -/

/-- The frames dispatch the lines `ls`, in this order, and nothing else. -/
inductive Dispatches : List (Frame b) → List CStr → Prop where
  | nil : Dispatches [] []
  | call {fs : List (Frame b)} {ls : List CStr} (l : CStr) (h : Dispatches fs ls) :
      Dispatches (.call l :: fs) (l :: ls)
  | pipeRight {fs : List (Frame b)} {ls : List CStr} (r : CStr) (mark : Nat) (h : Dispatches fs ls) :
      Dispatches (.pipeRight r mark :: fs) (r :: ls)
  | endPipe {fs : List (Frame b)} {ls : List CStr} (feed : Option (List UInt8)) (h : Dispatches fs ls) :
      Dispatches (.endPipe feed :: fs) ls
  | endRok {fs : List (Frame b)} {ls : List CStr} (typed : Option CStr) (h : Dispatches fs ls) :
      Dispatches (.endRok typed :: fs) ls

lemma Dispatches.append {fs' : List (Frame b)} (h : Dispatches fs ls) (h' : Dispatches fs' ls') :
    Dispatches (fs ++ fs') (ls ++ ls') := by
  induction h with
  | nil => exact h'
  | call l _ ih => exact .call l ih
  | pipeRight r mark _ ih => exact .pipeRight r mark ih
  | endPipe feed _ ih => exact .endPipe feed ih
  | endRok typed _ ih => exact .endRok typed ih

lemma calls_pipe {left right : CStr} (h : shape c l = .pipe left right) : Calls c l left ∧ Calls c l right := by
  unfold Calls callees
  rw [h]
  exact ⟨mem_cons_self .., mem_cons_of_mem _ (mem_singleton.mpr rfl)⟩

lemma calls_aliased {val : CStr} (h : shape c l = .aliased val) : Calls c l val := by
  unfold Calls callees
  rw [h]
  exact mem_singleton.mpr rfl

/-- What `sh_dispatch` leaves to be dispatched for `l` is called by it, and comes before `ls`. -/
def CallStep (b : Builtins σ) (c : Core σ) (l : CStr) (ls : List CStr) (s' : ShState σ)
    (fs : List (Frame b)) : Prop :=
  ∃ ls', Dispatches fs ls' ∧ (∀ l' ∈ ls', Calls c l l') ∧ Pending b c s' (ls' ++ ls)

lemma Pending.goOn_call (hp : Pending b c s (l :: ls)) (h : Calls c l l')
    (hgo : goOn b s [.call l'] = some (es, s', fs)) : CallStep b c l ls s' fs := by
  obtain ⟨-, rfl, rfl⟩ := hgo
  exact ⟨[l'], .call l' .nil, forall_mem_singleton.mpr h, hp.callee h⟩

lemma command_step (hp : Pending b c s (l :: ls)) (hshape : shape c l = .command cmd a)
    (h : command b s cmd a = some (es, s', fs)) : CallStep b c l ls s' fs := by
  have hcallees (l' : CStr) (hl' : l' ∈ commandCallees c.hist cmd a) : Calls c l l' := by
    unfold Calls callees
    rwa [hshape]
  have hdone {s' : ShState σ} (hs' : Pending b c s' ls) : CallStep (b := b) c l ls s' [] :=
    ⟨[], .nil, forall_mem_nil _, hs'⟩
  obtain ⟨hsource, hwm⟩ := (hp.steady l mem_cons_self).not_opens hshape
  unfold commandCallees at hcallees
  unfold command at h
  split at h <;> rename_i hb
  -- `rok`
  · rw [hb] at hcallees
    obtain ⟨-, ⟨keys, rok, hcore⟩, hcalls⟩ := shRok_keeps h
    have hp' : Pending b c s' (l :: ls) := hp.of_texts (by rw [hcore]; rfl)
    obtain rfl | ⟨ha, typed, rfl⟩ := hcalls
    · exact hdone hp'.tail
    · have hcall : Calls c l a := hcallees a (by simp [ha])
      exact ⟨[a], .call a (.endRok typed .nil), forall_mem_singleton.mpr hcall, hp'.callee hcall⟩
  -- `htop`
  · rw [hb] at hcallees
    exact hp.goOn_call (hcallees _ (mem_singleton.mpr rfl)) h
  -- `nice`, `nohup`, `eval` and `exec`
  · rw [hb] at hcallees
    exact hp.goOn_call (hcallees _ (mem_singleton.mpr rfl)) h
  -- `source`
  · rw [if_pos (not_not.mp (fun ha => hsource ⟨hb, ha⟩))] at h
    obtain ⟨-, rfl, rfl⟩ := h
    exact hdone (hp.tail.of_texts rfl)
  -- `!!`
  · rw [hb] at hcallees
    split at h
    · rename_i last hlast
      rw [hp.hist] at hlast
      exact hp.goOn_call (hcallees _ (by simp [hlast])) h
    · obtain ⟨-, rfl, rfl⟩ := h
      exact hdone hp.tail
  -- `wm`
  · exact absurd hb hwm
  -- `grep`
  · have hcore := (fsGrep_keeps b s a).1
    generalize fsGrep b s a = r at h hcore
    obtain ⟨-, rfl, rfl⟩ := h
    exact hdone (hp.tail.of_texts (by rw [hcore]))
  -- the commands that call nothing
  · obtain ⟨⟨out, core, events⟩, hleaf, heq⟩ := Option.map_eq_some_iff.mp h
    obtain ⟨-, rfl, rfl⟩ := heq
    exact hdone (hp.leaf hshape (leaf_keeps hleaf))

lemma Pending.pipe {left right : CStr} (hp : Pending b c s (l :: ls)) (hshape : Shell.shape c l = .pipe left right) :
    Pending b c { s with pipe := s.pipe.start } (left :: right :: ls) := by
  obtain ⟨hleft, hright⟩ := calls_pipe hshape
  have hapart : Apart b c left right := (hp.steady l mem_cons_self).pipes l left right .refl hshape
  refine Pending.of_texts (s := s) ?_ rfl
  exact hp.calls [left, right] (forall_mem_cons.mpr ⟨hleft, forall_mem_singleton.mpr hright⟩)
    (pairwise_cons.mpr ⟨forall_mem_singleton.mpr hapart, pairwise_singleton _ _⟩)

/-- **The step lemma.** -/
theorem call_step (hp : Pending b c s (l :: ls)) (h : exec b s (.call l) = some (es, s', fs)) :
    CallStep b c l ls s' fs := by
  rw [hp.exec_call] at h
  cases hshape : shape c l with
  | nothing =>
    rw [hshape] at h
    obtain ⟨-, rfl, rfl⟩ := h
    exact ⟨[], .nil, forall_mem_nil _, hp.tail⟩
  | pipe left right =>
    rw [hshape] at h
    obtain ⟨-, rfl, rfl⟩ := h
    obtain ⟨hleft, hright⟩ := calls_pipe hshape
    refine ⟨[left, right], .call left (.pipeRight right _ .nil), ?_, hp.pipe hshape⟩
    exact forall_mem_cons.mpr ⟨hleft, forall_mem_singleton.mpr hright⟩
  | aliased val =>
    rw [hshape] at h
    exact hp.goOn_call (calls_aliased hshape) h
  | command cmd a =>
    rw [hshape] at h
    exact command_step hp hshape h

/-! ## A graph without cycles -/

/-- The line comes to an end wherever it is pending, and leaves the lines behind it pending. -/
def CallEnds (b : Builtins σ) (c : Core σ) (l : CStr) : Prop :=
  ∀ (s : ShState σ) (ls : List CStr), Pending b c s (l :: ls) →
    Frames.Finishes (exec b) (Pending b c · ls) s [.call l]

lemma Dispatches.finishes (h : Dispatches fs ls') (hends : ∀ l ∈ ls', CallEnds b c l)
    (hp : Pending b c s (ls' ++ ls)) : Frames.Finishes (exec b) (Pending b c · ls) s fs := by
  induction h generalizing s with
  | nil => exact .nil hp
  | call l _ ih =>
    rw [forall_mem_cons] at hends
    exact .cons (hends.1 s _ hp) (fun s₁ hp₁ => ih hends.2 hp₁)
  | pipeRight r mark _ ih =>
    rw [forall_mem_cons] at hends
    refine .cons ?_ (fun s₁ hp₁ => ih hends.2 hp₁)
    refine .of_exec (fun es₁ s₁ fs₁ h₁ => ?_)
    obtain ⟨-, rfl, rfl⟩ := h₁
    refine .cons (hends.1 _ _ (Pending.of_texts hp rfl)) (fun s₂ hp₂ => ?_)
    refine .of_exec (fun es₃ s₃ fs₃ h₃ => ?_)
    obtain ⟨-, rfl, rfl⟩ := h₃
    exact .nil (hp₂.of_texts rfl)
  | endPipe feed _ ih =>
    refine .cons ?_ (fun s₁ hp₁ => ih hends hp₁)
    refine .of_exec (fun es₁ s₁ fs₁ h₁ => ?_)
    obtain ⟨-, rfl, rfl⟩ := h₁
    exact .nil (hp.of_texts rfl)
  | endRok typed _ ih =>
    refine .cons ?_ (fun s₁ hp₁ => ih hends hp₁)
    refine .of_exec (fun es₁ s₁ fs₁ h₁ => ?_)
    obtain ⟨-, rfl, rfl⟩ := h₁
    exact .nil (hp.of_texts rfl)

/-- **The lines that are reached come to an end.** The induction is on the graph of calls. -/
theorem call_ends (hacc : Acc (flip (Calls c)) l) : CallEnds b c l := by
  induction hacc with
  | intro l _ ih =>
    intro s ls hp
    refine .of_exec (fun es s' fs h => ?_)
    obtain ⟨ls', hfs, hcalls, hp'⟩ := call_step hp h
    exact hfs.finishes (fun l' hl' => ih l' (hcalls l' hl')) hp'

/-! ## A graph with a cycle -/

lemma leaf_waits {c : Core σ} (h : leaf b c typed cmd a = none) :
    builtin cmd a ∈ [.rok, .su, .passwd] ∨ b.run cmd a c = none := by
  unfold leaf at h
  split at h <;> rename_i hb
  · exact .inl (by rw [hb]; decide)
  · exact nomatch h
  · exact nomatch h
  · exact nomatch h
  · exact nomatch h
  · exact nomatch h
  · exact .inl (by rw [hb]; decide)
  · split at h <;> exact nomatch h
  · split at h <;> exact nomatch h
  · exact nomatch h
  · split at h <;> exact nomatch h
  · split at h <;> exact nomatch h
  · split at h
    · exact nomatch h
    · exact .inr (Option.map_eq_none_iff.mp h)

lemma command_ne_none (hq : Quiet b c line) (hl : Reaches c line l) (hp : Pending b c s (l :: ls))
    (hshape : shape c l = .command cmd a) : command b s cmd a ≠ none := by
  obtain ⟨hkeys, hrun⟩ := hq l cmd a hl hshape
  obtain ⟨hsource, hwm⟩ := (hp.steady l mem_cons_self).not_opens hshape
  intro h
  unfold command at h
  split at h <;> rename_i hb
  · exact hkeys (by rw [hb]; decide)
  · exact nomatch h
  · exact nomatch h
  · rw [if_pos (not_not.mp (fun ha => hsource ⟨hb, ha⟩))] at h
    exact nomatch h
  · split at h <;> exact nomatch h
  · exact hwm hb
  · exact nomatch h
  · obtain hmem | hnone := leaf_waits (Option.map_eq_none_iff.mp h)
    · exact hkeys hmem
    · exact hrun s.core hnone

/-- A stack that dispatches lines that are reached from `line`, and then those of `ls`. -/
def Stacked (b : Builtins σ) (c : Core σ) (line : CStr) (ls : List CStr) (s : ShState σ)
    (fs : List (Frame b)) : Prop :=
  ∃ ls', Dispatches fs ls' ∧ (∀ l ∈ ls', Reaches c line l) ∧ Pending b c s (ls' ++ ls)

lemma exec_call_ne_none (hq : Quiet b c line) (hl : Reaches c line l) (hp : Pending b c s (l :: ls)) :
    exec b s (.call l) ≠ none := by
  rw [hp.exec_call]
  cases hshape : shape c l with
  | nothing => exact nofun
  | pipe left right => exact nofun
  | aliased val => exact nofun
  | command cmd a => exact command_ne_none hq hl hp hshape

/-- No frame of such a stack waits, and what it leaves is such a stack. -/
lemma exec_stacked (hq : Quiet b c line) (s : ShState σ) (f : Frame b) (fs : List (Frame b))
    (h : Stacked b c line ls s (f :: fs)) :
    ∃ es s' fs', exec b s f = some (es, s', fs') ∧ Stacked b c line ls s' (fs' ++ fs) := by
  obtain ⟨ls', hfs, hreach, hp⟩ := h
  cases hfs with
  | @call _ ls₁ l hfs =>
    rw [forall_mem_cons] at hreach
    obtain ⟨⟨es, s', fs'⟩, hexec⟩ := Option.ne_none_iff_exists'.mp (exec_call_ne_none hq hreach.1 hp)
    obtain ⟨ls₂, hfs', hcalls, hp'⟩ := call_step hp hexec
    refine ⟨es, s', fs', hexec, ls₂ ++ ls₁, hfs'.append hfs, fun l' hl' => ?_, by rwa [append_assoc]⟩
    obtain hl' | hl' := mem_append.mp hl'
    · exact hreach.1.tail (hcalls l' hl')
    · exact hreach.2 l' hl'
  | pipeRight r mark hfs =>
    exact ⟨_, _, _, rfl, _, .call r (.endPipe _ hfs), hreach, hp.of_texts rfl⟩
  | endPipe feed hfs => exact ⟨_, _, _, rfl, _, hfs, hreach, hp.of_texts rfl⟩
  | endRok typed hfs => exact ⟨_, _, _, rfl, _, hfs, hreach, hp.of_texts rfl⟩

lemma command_calls (hrok : builtin cmd a ≠ .rok) (h : l' ∈ commandCallees s.core.hist cmd a) :
    command b s cmd a = some ([], s, [.call l']) := by
  unfold commandCallees at h
  unfold command
  cases hb : builtin cmd a <;> rw [hb] at h
  case rok => exact absurd hb hrok
  case htop =>
    obtain rfl := mem_singleton.mp h
    rfl
  case again =>
    obtain rfl := mem_singleton.mp h
    rfl
  case last =>
    have hlast : s.core.hist.getLast? = some l' := by simpa using h
    rw [hlast]
    rfl
  all_goals exact nomatch h

/-- **The calls of the graph are made.** A run that ends has a shorter run of each line called in
it. -/
theorem call_contains (hq : Quiet b c line) (l l' : CStr) (hl : Reaches c line l) (hcall : Calls c l l') :
    Frames.Contains (exec b) (fun l s => Pending b c s [l]) Frame.call l l' := by
  intro n s k hp hn
  have hexec := hp.exec_call
  have hcallee := hp.callee hcall
  unfold Calls callees at hcall
  cases hshape : shape c l with
  | nothing =>
    rw [hshape] at hcall
    exact nomatch hcall
  | pipe left right =>
    rw [hshape] at hcall hexec
    obtain ⟨m, hm, hends⟩ := hn.of_exec hexec
    have hp₀ := hp.pipe hshape
    obtain rfl | rfl : l' = left ∨ l' = right := by simpa using hcall
    · refine ⟨m, hm, _, _, ?_, hends⟩
      exact hcallee.of_texts rfl
    · -- the left side comes first
      have hleft : Stacked b c line [l'] { s with pipe := s.pipe.start } [.call left] :=
        ⟨[left], .call left .nil, forall_mem_singleton.mpr (hl.tail (calls_pipe hshape).1), hp₀⟩
      obtain ⟨m₁, hm₁, s₁, ⟨ls', hnil, -, hp₁⟩, hends₁⟩ :=
        Frames.EndsIn.drop_frames (k := .pipeRight l' s.printed.length :: k) (exec_stacked hq) hleft hends
      cases hnil
      obtain ⟨m₂, hm₂, hends₂⟩ := hends₁.of_exec rfl
      refine ⟨m₂, by omega, _, _, ?_, hends₂⟩
      exact Pending.of_texts hp₁ rfl
  | aliased val =>
    rw [hshape] at hcall hexec
    obtain rfl := mem_singleton.mp hcall
    obtain ⟨m, hm, hends⟩ := hn.of_exec hexec
    exact ⟨m, hm, _, _, hcallee, hends⟩
  | command cmd a =>
    rw [hshape] at hcall hexec
    have hrok : builtin cmd a ≠ .rok := fun h => (hq l cmd a hl hshape).1 (by rw [h]; decide)
    dsimp only at hcall
    rw [← hp.hist] at hcall
    obtain ⟨m, hm, hends⟩ := hn.of_exec (hexec.trans (command_calls hrok hcall))
    exact ⟨m, hm, _, _, hcallee, hends⟩

/-! ## Lines that come to an end -/

lemma ends_of_acyclic (hsteady : Steady b s.core line) (hacyclic : Acyclic s.core line) :
    Frames.Ends (exec b) (s, [.call line]) :=
  (call_ends hacyclic.acc s [] hsteady.pending).ends

lemma acyclic_of_ends (hsteady : Steady b s.core line) (hquiet : Quiet b s.core line)
    (hends : Frames.Ends (exec b) (s, [.call line])) : Acyclic s.core line :=
  fun _ hl hcycle => Frames.not_ends_of_cycle (call_contains hquiet) hl hcycle hsteady.pending hends

/-- Lines without variables, each before those that it calls; none of them is in what they write to
the alias table. -/
def Ordered (c : Core σ) (ls : List CStr) : Prop :=
  ∀ l ∈ ls, dollar ∉ l ∧ ¬ OpensLines c l ∧ (∀ l' ∈ ls, writtenAlias c l = none ∨ writtenAlias c l ≠ lookedUp c l') ∧
    ∀ l' ∈ callees c l, l' ∈ ls ∧ ls.idxOf l < ls.idxOf l'

lemma Ordered.reaches (h : Ordered c ls) (hline : line ∈ ls) (hl : Reaches c line l) : l ∈ ls := by
  induction hl with
  | refl => exact hline
  | tail _ hcall ih => exact ((h _ ih).2.2.2 _ hcall).1

lemma Ordered.grounded (h : Ordered c ls) (hline : line ∈ ls) : Steady b c line ∧ Acyclic c line := by
  refine ⟨⟨fun l hl => (h l (h.reaches hline hl)).2.1, fun l left right hl hshape l₁ r₁ hl₁ hr₁ => ?_⟩, fun l hl => ?_⟩
  · have hmem {l' : CStr} (hcall : Calls c l l') {l₂ : CStr} (hl₂ : Reaches c l' l₂) : l₂ ∈ ls :=
      h.reaches hline ((hl.tail hcall).trans hl₂)
    obtain ⟨hleft, hright⟩ := calls_pipe hshape
    rintro (⟨n, hwrite, hlook⟩ | ⟨-, hdollar⟩)
    · obtain hnone | hne := (h l₁ (hmem hleft hl₁)).2.2.1 r₁ (hmem hright hr₁)
      · exact nomatch hnone.symm.trans hwrite
      · exact hne (hwrite.trans hlook.symm)
    · exact (h r₁ (hmem hright hr₁)).1 hdollar
  · exact Frames.acyclic_of_rank (S := (· ∈ ls)) ls.idxOf (fun l₁ l₂ hl₁ hcall => (h l₁ hl₁).2.2.2 l₂ hcall)
      (h.reaches hline hl)

lemma aliased_self_loops (b : Builtins σ) (hshape : shape s.core l = .aliased l) :
    ¬ Frames.Ends (exec b) (s, [.call l]) := by
  have hcall : Calls s.core l l := calls_aliased hshape
  have honly (l' : CStr) (hl' : Reaches s.core l l') : shape s.core l' = .aliased l := by
    suffices l' = l by rwa [this]
    induction hl' with
    | refl => rfl
    | tail _ hnext ih =>
      rw [ih] at hnext
      unfold Calls callees at hnext
      rw [hshape] at hnext
      exact mem_singleton.mp hnext
  have hsteady : Steady b s.core l := by
    refine ⟨fun l' hl' => ?_, fun l' left right hl' hpipe => nomatch (honly l' hl').symm.trans hpipe⟩
    rw [OpensLines, honly l' hl']
    exact id
  have hquiet : Quiet b s.core l := fun l' cmd a hl' hcmd => nomatch (honly l' hl').symm.trans hcmd
  exact fun hends => acyclic_of_ends hsteady hquiet hends l .refl (.single hcall)

/-- The lines that `alias x=y | ll | grep x` reaches at first, in the order of their calls. -/
def pipeLines : List CStr :=
  [cstr "alias x=y | ll | grep x", cstr "alias x=y ", cstr "ll | grep x", cstr "ll ", cstr "grep x", cstr "ls -la"]

end PigOS.Shell
