import PigOS.Shell.Correctness.Recursion

/-!
# `Shell.Correctness.Pipes` — what the stages of a pipeline read

The stages of a pipeline share one buffer, `pipe_buf`. `vps` and `vpln` write to it while a left
side runs, without a terminator; `grep` without a file reads it as a C string if `grep_pipe_input`
is set, and nothing but such a `grep` unsets that.

`Faithful` is what a pipeline is for: a `grep` reads what the stage before it printed, and outside
of a pipeline nothing. `FedAt` is the condition for one step of any line, and `Clean` the one for a
pipeline of commands, in terms of the pipe before the line and of what the stages print.
-/

namespace PigOS.Shell

open Kernel List

variable {σ : Type} {b : Builtins σ}
variable {out : List Emission} {p : Pipe} {l a : CStr} {c' : Core σ} {events : List Event}
  {s : ShState σ} {x : CStr × CStr} {c : Core σ} {typed : Option CStr}

/-! ## What a pipeline is for -/

/-- What is read through the pipe is what the stage before it printed, and nothing if there is
none. -/
def Event.Carried : Event → Prop
  | .input none got => got = none
  | .input (some text) got => got.getD [] = text
  | .priv .. => True

instance (e : Event) : Decidable e.Carried := by
  unfold Event.Carried
  split <;> infer_instance

def Faithful (b : Builtins σ) (s : ShState σ) (line : CStr) : Prop :=
  Frames.Always (exec b) Event.Carried (s, [.call line])

/-! ## The buffer -/

/-- The text of the calls of `vps` and `vpln`. -/
def lineText (out : List Emission) : CStr :=
  out.flatMap (fun e => match e with | .vpc _ => [] | e => e.text)

/-- Nothing is printed by `vpc`. -/
def PrintsLines (out : List Emission) : Prop := ∀ c, .vpc c ∉ out

lemma PrintsLines.lineText (h : PrintsLines out) : lineText out = printText out := by
  unfold Shell.lineText printText
  refine flatMap_congr (fun e he => ?_)
  cases e with
  | vps s => rfl
  | vpln s => rfl
  | vpc c => exact absurd he (h c)

namespace Pipe

lemma capture_nil (p : Pipe) : p.capture [] = p := by
  unfold capture
  have hbuf : (fun i => if p.len ≤ i ∧ i < p.len + 0 then (([] : CStr).map Subtype.val).getD (i - p.len) 0 else p.buf i)
      = p.buf := by
    funext i
    rw [if_neg (by omega)]
  simp only [length_nil, Nat.zero_min]
  rw [hbuf]
  rfl

lemma capture_append (p : Pipe) (s t : CStr) : (p.capture s).capture t = p.capture (s ++ t) := by
  unfold capture
  dsimp only
  rw [length_append, map_append, ← Nat.sub_sub]
  generalize pipeSize - 1 - p.len = room
  have hsum : min s.length room + min t.length (room - min s.length room) = min (s.length + t.length) room := by omega
  -- what is left of the room is 0, or all of `s` fits
  have hfits : min t.length (room - min s.length room) = 0 ∨ min s.length room = s.length := by omega
  have hle : min s.length room ≤ s.length := Nat.min_le_left _ _
  rw [← hsum]
  generalize min t.length (room - min s.length room) = k' at hfits ⊢
  generalize min s.length room = k at hfits hle ⊢
  refine congrArg₂ (fun buf len => ({ p with buf := buf, len := len } : Pipe)) (funext fun i => ?_) (Nat.add_assoc ..)
  have hlen : (s.map Subtype.val).length = s.length := length_map _
  by_cases hs : p.len ≤ i ∧ i < p.len + k
  · rw [if_neg (by omega), if_pos hs, if_pos (by omega), getD_append _ _ _ _ (by omega)]
  · by_cases ht : p.len ≤ i ∧ i < p.len + (k + k')
    · rw [if_pos (by omega), if_pos ht, getD_append_right _ _ _ _ (by omega), hlen]
      congr 1
      omega
    · rw [if_neg (by omega), if_neg hs, if_neg ht]

lemma foldl_emit (h : p.active = true) (out : List Emission) : out.foldl emit p = p.capture (lineText out) := by
  induction out generalizing p with
  | nil => exact (capture_nil p).symm
  | cons e out ih =>
    rw [foldl_cons]
    cases e with
    | vps s =>
      rw [emit, if_pos h, ih (show (p.capture s).active = true from h), capture_append]
      rfl
    | vpln s =>
      rw [emit, if_pos h, ih (show ((p.capture s).capture [newline]).active = true from h), capture_append,
        capture_append, ← append_assoc]
      rfl
    | vpc c => exact ih h

/-- The pipe after a left side that prints `out`. -/
def after (p : Pipe) (out : List Emission) : Pipe := (out.foldl emit p.start).connect

end Pipe

/-- How much of a text fits into the buffer. -/
def width (out : List Emission) : Nat := min (pipeSize - 1) (printText out).length

/-- What the stage behind one that prints `out` is to read. -/
def feedOf (out : List Emission) : List UInt8 := ((printText out).take (pipeSize - 1)).map Subtype.val

lemma feedOf_length (out : List Emission) : (feedOf out).length = width out := by
  rw [feedOf, length_map, length_take, width]

lemma feedOf_ne_zero (out : List Emission) {c : UInt8} (h : c ∈ feedOf out) : c ≠ 0 := by
  obtain ⟨ch, -, rfl⟩ := mem_map.mp h
  exact ch.2

lemma feedOf_eq_nil : feedOf out = [] ↔ printText out = [] := by
  rw [feedOf, map_eq_nil_iff, take_eq_nil_iff]
  exact or_iff_right (by decide)

lemma width_eq_zero : width out = 0 ↔ printText out = [] := by
  rw [← feedOf_length, length_eq_zero_iff, feedOf_eq_nil]

namespace Pipe

lemma after_buf (h : PrintsLines out) (p : Pipe) (i : Nat) :
    (p.after out).buf i = if i < width out then (feedOf out).getD i 0 else if i = 0 then 0 else p.buf i := by
  unfold after
  rw [foldl_emit rfl, h.lineText]
  show (p.start.capture (printText out)).buf i = _
  unfold capture
  have hk : min (printText out).length (pipeSize - 1 - p.start.len) = width out := by
    rw [width, Nat.min_comm]
    rfl
  have hlen : p.start.len = 0 := rfl
  dsimp only
  rw [hk, hlen, Nat.zero_add, Nat.sub_zero]
  by_cases hi : i < width out
  · rw [if_pos ⟨Nat.zero_le i, hi⟩, if_pos hi, feedOf, map_take, getD_eq_getElem?_getD,
      getD_eq_getElem?_getD, getElem?_take_of_lt]
    exact lt_of_lt_of_le hi (Nat.min_le_left _ _)
  · rw [if_neg (fun hc => hi hc.2), if_neg hi]
    rfl

/-- Behind the first byte, the terminators are those that were there before and are not
overwritten. -/
lemma after_buf_eq_zero (h : PrintsLines out) (p : Pipe) {i : Nat} (hi : 0 < i) :
    (p.after out).buf i = 0 ↔ width out ≤ i ∧ p.buf i = 0 := by
  rw [after_buf h]
  by_cases hlt : i < width out
  · rw [if_pos hlt]
    have hlen : i < (feedOf out).length := by rwa [feedOf_length]
    rw [getD_eq_getElem _ _ hlen]
    constructor
    · exact fun hzero => absurd hzero (feedOf_ne_zero out (getElem_mem hlen))
    · exact fun hc => absurd hc.1 (Nat.not_le.mpr hlt)
  · rw [if_neg hlt, if_neg (Nat.pos_iff_ne_zero.mp hi)]
    exact ⟨fun hzero => ⟨Nat.not_lt.mp hlt, hzero⟩, And.right⟩

/-- A text at the start of the buffer is what is read if and only if a terminator is behind it. -/
lemma textFrom_eq_iff {u : List UInt8} (hbuf : ∀ i < u.length, p.buf i = u.getD i 0)
    (hne : ∀ c ∈ u, c ≠ 0) (hlen : u.length < pipeSize) : p.textFrom 0 = u ↔ p.buf u.length = 0 := by
  have hsplit : List.range' 0 (pipeSize - 0) =
      List.range' 0 u.length ++ u.length :: List.range' (u.length + 1) (pipeSize - u.length - 1) := by
    rw [← range'_succ]
    have h := range'_append_1 (s := 0) (m := u.length) (n := pipeSize - u.length - 1 + 1)
    rw [Nat.zero_add] at h
    rw [h]
    congr 1
    omega
  have hmap : (List.range' 0 u.length).map p.buf = u := by
    refine ext_getElem (by simp) (fun i h₁ h₂ => ?_)
    rw [getElem_map, getElem_range', Nat.zero_add, Nat.one_mul, hbuf i h₂, getD_eq_getElem _ _ h₂]
  unfold textFrom
  rw [hsplit, map_append, hmap, map_cons, takeWhile_append_of_pos (by simpa using hne)]
  by_cases hzero : p.buf u.length = 0
  · rw [takeWhile_cons_of_neg (by simp [hzero]), append_nil]
    exact iff_of_true rfl hzero
  · rw [takeWhile_cons_of_pos (by simp [hzero])]
    refine iff_of_false (fun h => ?_) hzero
    have hlen' := congrArg length h
    rw [length_append, length_cons] at hlen'
    omega

/-- What `grep` reads, if it reads the pipe. -/
def got (p : Pipe) : Option (List UInt8) := if p.ready then some (p.textFrom 0) else none

lemma textFrom_start (p : Pipe) : p.start.textFrom 0 = [] := rfl

lemma got_start (p : Pipe) : p.start.got = if p.ready then some [] else none := by
  unfold got
  rw [textFrom_start]
  rfl

lemma ready_after (p : Pipe) (out : List Emission) : (p.after out).ready = true ↔ (p.after out).textFrom 0 ≠ [] := by
  have hready : (p.after out).ready = decide (0 < ((p.after out).textFrom 0).length) := rfl
  rw [hready, decide_eq_true_iff, length_pos_iff]

lemma got_after (p : Pipe) (out : List Emission) : (p.after out).got.getD [] = (p.after out).textFrom 0 := by
  unfold got
  split
  · rfl
  · rename_i hready
    rw [ready_after, not_not] at hready
    exact hready.symm

/-- **The stage behind one that prints `out` reads it if and only if the buffer ends where the text
does.** -/
theorem textFrom_after_iff (h : PrintsLines out) (p : Pipe) :
    (p.after out).textFrom 0 = feedOf out ↔ printText out = [] ∨ p.buf (width out) = 0 := by
  have hbuf (i : Nat) (hi : i < (feedOf out).length) : (p.after out).buf i = (feedOf out).getD i 0 := by
    rw [feedOf_length] at hi
    rw [after_buf h, if_pos hi]
  have hlen : (feedOf out).length < pipeSize := by
    rw [feedOf_length, width]
    exact lt_of_le_of_lt (Nat.min_le_left _ _) (by decide)
  rw [textFrom_eq_iff hbuf (fun _ => feedOf_ne_zero out) hlen, feedOf_length, after_buf h, if_neg (lt_irrefl _)]
  by_cases hzero : width out = 0
  · rw [if_pos hzero]
    exact iff_of_true rfl (.inl (width_eq_zero.mp hzero))
  · rw [if_neg hzero]
    exact (or_iff_right (fun hnil => hzero (width_eq_zero.mpr hnil))).symm

/-- A left side that prints nothing leaves nothing to read. -/
lemma after_not_ready (p : Pipe) (hnil : printText out = []) : (p.after out).ready = false := by
  have hlines : PrintsLines out := fun c hc => by
    have htext := flatMap_eq_nil_iff.mp hnil (.vpc c) hc
    exact cons_ne_nil _ _ htext
  rw [← Bool.not_eq_true, ready_after, not_not, (textFrom_after_iff hlines p).mpr (.inl hnil), feedOf_eq_nil]
  exact hnil

lemma emit_input (p : Pipe) (e : Emission) : (p.emit e).ready = p.ready := by
  cases e with
  | vps s => rw [emit]; split <;> rfl
  | vpln s => rw [emit]; split <;> rfl
  | vpc c => rfl

lemma foldl_emit_ready (p : Pipe) (out : List Emission) : (out.foldl emit p).ready = p.ready := by
  induction out generalizing p with
  | nil => rfl
  | cons e out ih => exact (ih _).trans (emit_input p e)

/-- Outside of a left side nothing is captured. -/
lemma foldl_emit_of_inactive (h : p.active = false) (out : List Emission) : out.foldl emit p = p := by
  induction out with
  | nil => rfl
  | cons e out ih =>
    have he : p.emit e = p := by cases e <;> simp [emit, h]
    rw [foldl_cons, he, ih]

end Pipe

/-! ## Pipelines of commands -/

/-- The command dispatches nothing. -/
def Simple (x : CStr × CStr) : Prop := builtin x.1 x.2 ∉ [.rok, .htop, .again, .source, .last, .wm]

instance (x : CStr × CStr) : Decidable (Simple x) := inferInstanceAs (Decidable (¬ _))

/-- All that `sh_dispatch` does for a line is to call itself on another one. -/
def HandsOver (c : Core σ) (l l' : CStr) : Prop :=
  shape c l = .aliased l' ∨
    ∃ cmd a, shape c l = .command cmd a ∧ builtin cmd a ≠ .rok ∧ l' ∈ commandCallees c.hist cmd a

/-- A stage of a pipeline: whether it is a `grep` that looks at the pipe, what is printed before it
looks, and what it prints if it finds nothing. -/
structure Stage where
  reads : Bool
  said : List Emission
  out : List Emission
  deriving DecidableEq

/-- The command is a `grep` that looks at the pipe. -/
def looksAtPipe (x : CStr × CStr) : Bool := builtin x.1 x.2 = .grep && readsPipe x.2

/-- What `grep` prints if it finds nothing in the pipe. -/
def grepOut (b : Builtins σ) (c : Core σ) (a : CStr) : List Emission :=
  if a = [] then [.vpln (cstr "usage: grep [-r][-i][-l][-n] <pattern> [file]")]
  else if (grepArgs a).pat = [] then [.vpln (cstr "grep: pattern required")]
  else b.grepFiles (grepArgs a) c.cwd c.rest

/-- A simple command that finds nothing in the pipe: what it prints, and the state after it. -/
def stageRun (b : Builtins σ) (typed : Option CStr) (c : Core σ) (x : CStr × CStr) :
    Option (List Emission × Core σ) :=
  if builtin x.1 x.2 = .grep then some (grepOut b c x.2, c)
  else (leaf b c typed x.1 x.2).map (fun r => (r.1, r.2.1))

/-- What `rok` prints before it dispatches its argument. -/
def rokSays (a : CStr) : List Emission := [.vps (cstr "[rok] "), .vpln a]

/-- A line ends up in a simple command, through aliases and the like and the `rok` of root, and
takes the state to another if it finds nothing in the pipe. -/
inductive Resolves (b : Builtins σ) (typed : Option CStr) : Core σ → CStr → Stage → Core σ → Prop where
  | nothing {c : Core σ} {l : CStr} : shape c l = .nothing → Resolves b typed c l ⟨false, [], []⟩ c
  | command {c c' : Core σ} {l cmd a : CStr} {out : List Emission} : shape c l = .command cmd a → Simple (cmd, a) →
      stageRun b typed c (cmd, a) = some (out, c') → Resolves b typed c l ⟨looksAtPipe (cmd, a), [], out⟩ c'
  | call {c c' : Core σ} {l l' : CStr} {st : Stage} : HandsOver c l l' → Resolves b typed c l' st c' →
      Resolves b typed c l st c'
  | rok {c c' : Core σ} {l cmd a : CStr} {st : Stage} : shape c l = .command cmd a → builtin cmd a = .rok → a ≠ [] →
      c.uid = 0 → Resolves b typed { c with rok := true } a st c' →
      Resolves b typed c l ⟨st.reads, rokSays a ++ st.said, rokSays a ++ st.out⟩ { c' with rok := false }

/-- A line is a pipeline of such commands, or of one. Each starts with the tables that those before
it have left. -/
inductive Pipeline (b : Builtins σ) (typed : Option CStr) : Core σ → CStr → List Stage → Prop where
  | one {c c' : Core σ} {l : CStr} {st : Stage} : Resolves b typed c l st c' → Pipeline b typed c l [st]
  | pipe {c c' : Core σ} {l left right : CStr} {st : Stage} {stages : List Stage} : shape c l = .pipe left right →
      Resolves b typed c left st c' → (st.reads = true → st.said = []) → Pipeline b typed c' right stages →
      Pipeline b typed c l (st :: stages)
  | call {c : Core σ} {l l' : CStr} {stages : List Stage} : HandsOver c l l' → Pipeline b typed c l' stages →
      Pipeline b typed c l stages

lemma Pipeline.ne_nil {stages : List Stage} (h : Pipeline b typed c l stages) : stages ≠ [] := by
  induction h with
  | one _ => exact cons_ne_nil _ _
  | pipe _ _ _ _ _ => exact cons_ne_nil _ _
  | call _ _ ih => exact ih

/-- What a stage reads is carried. -/
def ReadsWell (p : Pipe) (feed : Option (List UInt8)) (reads : Bool) : Prop :=
  reads = true → (Event.input feed p.got).Carried

/-- What the stages read is carried, from a pipe and the text of the stage before. -/
def Carries : Pipe → Option (List UInt8) → List Stage → Prop
  | _, _, [] => True
  | p, feed, [st] => ReadsWell p feed st.reads
  | p, feed, st :: st' :: rest =>
    ReadsWell p.start feed st.reads ∧ Carries (p.after st.out) (some (feedOf st.out)) (st' :: rest)

/-! ## What one step reads -/

/-- If the line is a `grep` that looks at the pipe, it finds there what the stage before it
printed. -/
def FedAt (s : ShState σ) (l : CStr) : Prop :=
  ∀ cmd a, shape s.core l = .command cmd a → ReadsWell s.pipe s.feed (looksAtPipe (cmd, a))

lemma shSu_carried (h : shSu c a = some (out, c', events)) : ∀ e ∈ events, e.Carried := by
  unfold shSu at h
  dsimp only at h
  split at h
  · obtain ⟨-, -, rfl⟩ := h
    exact forall_mem_nil _
  · obtain ⟨r, -, heq⟩ := Option.map_eq_some_iff.mp h
    obtain ⟨-, -, rfl⟩ := heq
    exact forall_mem_singleton.mpr trivial

lemma leaf_carried {cmd : CStr}
    (h : leaf b c typed cmd a = some (out, c', events)) : ∀ e ∈ events, e.Carried := by
  cases leaf_step h with
  | su _ hsu => exact shSu_carried hsu
  | rMinus _ => exact forall_mem_singleton.mpr trivial
  | users _ _ _ => exact forall_mem_nil _
  | vars _ _ => exact forall_mem_nil _
  | aliases _ _ => exact forall_mem_nil _
  | run _ => exact forall_mem_nil _

variable {stages : List Stage} {s' : ShState σ} {es : List Event} {fs : List (Frame b)}

lemma shRok_carried (h : shRok b s a = some (es, s', fs)) : ∀ e ∈ es, e.Carried := by
  unfold shRok at h
  split at h
  · obtain ⟨rfl, -⟩ := h
    exact forall_mem_nil _
  split at h
  · obtain ⟨rfl, -⟩ := h
    exact forall_mem_nil _
  split at h
  · exact nomatch h
  dsimp only at h
  split at h
  · obtain ⟨rfl, -⟩ := h
    exact forall_mem_singleton.mpr trivial
  · obtain ⟨rfl, -⟩ := h
    exact forall_mem_singleton.mpr trivial

lemma fsGrep_of_not_ready (h : readsPipe a = true → s.pipe.ready = false) :
    fsGrep b s a = (if readsPipe a then [.input s.feed none] else [], s.say (grepOut b s.core a)) := by
  unfold fsGrep grepOut
  by_cases ha : a = []
  · rw [if_pos ha, if_pos ha, ha]
    rfl
  · rw [if_neg ha, if_neg ha]
    by_cases hpat : (grepArgs a).pat = []
    · rw [if_pos hpat, if_pos hpat, if_neg (by simp [readsPipe, hpat])]
    · rw [if_neg hpat, if_neg hpat]
      by_cases hfile : (grepArgs a).file = []
      · have hreads : readsPipe a = true := by simp [readsPipe, ha, hpat, hfile]
        rw [if_pos hfile, if_neg (by rw [h hreads]; exact Bool.false_ne_true), if_pos hreads]
      · rw [if_neg hfile, if_neg (by simp [readsPipe, hfile])]

lemma fsGrep_of_ready (hreads : readsPipe a = true) (hready : s.pipe.ready = true) :
    (fsGrep b s a).1 = [.input s.feed (some (s.pipe.textFrom 0))] := by
  simp only [readsPipe, Bool.and_eq_true, decide_eq_true_eq] at hreads
  obtain ⟨⟨ha, hpat⟩, hfile⟩ := hreads
  unfold fsGrep
  rw [if_neg ha]
  rw [if_neg hpat, if_pos hfile, if_pos hready]

/-- `grep` leaves an event that is carried if what it reads is. -/
lemma fsGrep_carried (b : Builtins σ) (s : ShState σ) (a : CStr) :
    (∀ e ∈ (fsGrep b s a).1, e.Carried) ↔ ReadsWell s.pipe s.feed (readsPipe a) := by
  unfold ReadsWell Pipe.got
  by_cases hreads : readsPipe a = true ∧ s.pipe.ready = true
  · rw [fsGrep_of_ready hreads.1 hreads.2, hreads.1, if_pos hreads.2]
    simp
  · rw [fsGrep_of_not_ready (fun hr => Bool.eq_false_iff.mpr (fun hy => hreads ⟨hr, hy⟩))]
    cases hr : readsPipe a with
    | false => simp
    | true =>
      rw [if_neg (fun hy => hreads ⟨hr, hy⟩)]
      simp

lemma command_grep {cmd : CStr} (b : Builtins σ) (s : ShState σ) (hgrep : builtin cmd a = .grep) :
    command b s cmd a = some ((fsGrep b s a).1, (fsGrep b s a).2, []) := by
  unfold command
  rw [hgrep]

/-- **One command.** -/
lemma command_carried {cmd : CStr} (h : command b s cmd a = some (es, s', fs)) :
    (∀ e ∈ es, e.Carried) ↔ ReadsWell s.pipe s.feed (looksAtPipe (cmd, a)) := by
  by_cases hgrep : builtin cmd a = .grep
  · have hlooks : looksAtPipe (cmd, a) = readsPipe a := by simp [looksAtPipe, hgrep]
    rw [hlooks, ← fsGrep_carried b]
    have hevents := (Prod.mk.inj (Option.some.inj ((command_grep b s hgrep).symm.trans h))).1
    rw [hevents]
  · have hlooks : looksAtPipe (cmd, a) = false := by simp [looksAtPipe, hgrep]
    rw [hlooks]
    have hgo {s₁ : ShState σ} {fs₁ : List (Frame b)} (hgo : goOn b s₁ fs₁ = some (es, s', fs)) :
        ∀ e ∈ es, e.Carried := by
      obtain ⟨rfl, -⟩ := hgo
      exact forall_mem_nil _
    refine iff_of_true ?_ nofun
    unfold command at h
    split at h <;> rename_i hb
    · exact shRok_carried h
    · exact hgo h
    · exact hgo h
    · split at h
      · exact hgo h
      · split at h <;> exact hgo h
    · split at h <;> exact hgo h
    · split at h
      · exact nomatch h
      · exact hgo h
    · exact absurd hb hgrep
    · obtain ⟨r, hleaf, heq⟩ := Option.map_eq_some_iff.mp h
      obtain ⟨rfl, -⟩ := heq
      exact leaf_carried hleaf

/-- **The step lemma.** Only a call leaves an event that is not carried, and only if it is not
fed. -/
theorem exec_carried {f : Frame b} (h : exec b s f = some (es, s', fs)) :
    (∀ e ∈ es, e.Carried) ↔ ∀ l, f = .call l → FedAt s l := by
  cases f with
  | call l =>
    have hfed : (∀ l', Frame.call (b := b) l = .call l' → FedAt s l') ↔ FedAt s l :=
      ⟨fun h => h l rfl, fun h l' heq => Frame.call.inj heq ▸ h⟩
    rw [hfed, FedAt]
    cases hshape : shape s.core l with
    | command cmd a =>
      rw [command_carried ((exec_call hshape).symm.trans h)]
      refine ⟨fun hreads cmd' a' heq => ?_, fun hfed => hfed cmd a rfl⟩
      obtain ⟨rfl, rfl⟩ := Shape.command.inj heq
      exact hreads
    | _ =>
      obtain ⟨rfl, -⟩ := (exec_call hshape).symm.trans h
      exact iff_of_true (forall_mem_nil _) nofun
  | _ =>
    refine iff_of_true ?_ nofun
    cases (exec_steps h).1
    all_goals exact forall_mem_nil _

/-- A line is faithful if and only if every `grep` that its run comes to is fed. -/
lemma faithful_iff_fed (line : CStr) : Faithful b s line ↔
    ∀ es s' l k, Frames.Runs (exec b) (s, [.call line]) es (s', .call l :: k) → FedAt s' l := by
  unfold Faithful
  rw [Frames.always_iff]
  constructor
  · intro h es s' l k hrun cmd a hshape hlooks
    have hgrep : builtin cmd a = .grep := by
      simp only [looksAtPipe, Bool.and_eq_true, decide_eq_true_eq] at hlooks
      exact hlooks.1
    have hexec : exec b s' (.call l) = some ((fsGrep b s' a).1, (fsGrep b s' a).2, []) :=
      (exec_call hshape).trans (command_grep b s' hgrep)
    exact (exec_carried hexec).mp (h es s' _ k hrun _ _ _ hexec) l rfl cmd a hshape hlooks
  · intro h es s' f k hrun es' s₁ fs hexec
    refine (exec_carried hexec).mpr (fun l hf => ?_)
    obtain rfl := hf
    exact h es s' l k hrun

/-! ## The run of a pipeline -/

/-- A simple command that is no `grep` is one that calls nothing. -/
lemma command_leaf (hsimple : Simple x) (hgrep : builtin x.1 x.2 ≠ .grep) (s : ShState σ) :
    command b s x.1 x.2 = (leaf b s.core s.typed x.1 x.2).map (fun r => (r.2.2,
      { s with core := r.2.1 }.say r.1, [])) := by
  unfold Simple at hsimple
  unfold command
  split <;> rename_i hb
  case h_7 => exact absurd hb hgrep
  case h_8 => rfl
  all_goals exact absurd (by rw [hb]; decide) hsimple

/-- A simple command does what it does without a pipe, unless it reads one. -/
lemma stage_step (hsimple : Simple x) (h : stageRun b s.typed s.core x = some (out, c')) :
    ∃ es s', command b s x.1 x.2 = some (es, s', []) ∧
      (looksAtPipe x = true ∧ s.pipe.ready = true ∨ s' = { s with core := c' }.say out) := by
  unfold stageRun at h
  by_cases hgrep : builtin x.1 x.2 = .grep
  · rw [if_pos hgrep] at h
    obtain ⟨rfl, rfl⟩ := h
    have hlooks : looksAtPipe x = readsPipe x.2 := by simp [looksAtPipe, hgrep]
    refine ⟨_, _, command_grep b s hgrep, ?_⟩
    rw [hlooks]
    by_cases hreads : readsPipe x.2 = true ∧ s.pipe.ready = true
    · exact .inl hreads
    · rw [fsGrep_of_not_ready (fun hr => Bool.eq_false_iff.mpr (fun hy => hreads ⟨hr, hy⟩))]
      exact .inr rfl
  · rw [if_neg hgrep] at h
    obtain ⟨⟨out₁, c₁, es⟩, hleaf, heq⟩ := Option.map_eq_some_iff.mp h
    obtain ⟨rfl, rfl⟩ := heq
    exact ⟨es, _, by rw [command_leaf hsimple hgrep, hleaf]; rfl, .inr rfl⟩

section Run

variable {l' : CStr} {st : Stage} {k : List (Frame b)}

lemma HandsOver.exec (h : HandsOver s.core l l') : Shell.exec b s (.call l) = some ([], s, [.call l']) := by
  obtain hshape | ⟨cmd, a, hshape, hrok, hmem⟩ := h
  · exact exec_call hshape
  · exact (exec_call hshape).trans (command_calls hrok hmem)

/-- A frame that leaves no event. -/
lemma always_silent {f : Frame b} (h : exec b s f = some ([], s', fs)) :
    Frames.Always (exec b) Event.Carried (s, f :: k) ↔
    Frames.Always (exec b) Event.Carried (s', fs ++ k) :=
  (Frames.always_exec h).trans (and_iff_right (forall_mem_nil _))

lemma say_say (s : ShState σ) (out out' : List Emission) : (s.say out).say out' = s.say (out ++ out') := by
  simp [ShState.say, printText]

lemma exec_rok {cmd : CStr} (hshape : shape s.core l = .command cmd a) (hrok : builtin cmd a = .rok) (ha : a ≠ [])
    (hroot : s.core.uid = 0) : exec b s (.call l) =
      some ([], { s with core := { s.core with rok := true } }.say (rokSays a), [.call a, .endRok s.typed]) := by
  rw [exec_call hshape, dispatchShape, command, hrok]
  dsimp only
  rw [shRok, if_neg ha, if_pos hroot]
  rfl

/-- **One stage** is carried if what it reads is; unless it reads the pipe, it does what it does
without one. -/
theorem Resolves.always (h : Resolves b typed c l st c') (hcore : s.core = c) (htyped : s.typed = typed)
    (k : List (Frame b)) : ∃ s', (Frames.Always (exec b) Event.Carried (s, .call l :: k) ↔
        ReadsWell (st.said.foldl Pipe.emit s.pipe) s.feed st.reads ∧ Frames.Always (exec b) Event.Carried (s', k)) ∧
      (st.reads = true ∧ s.pipe.ready = true ∨ s' = { s with core := c' }.say st.out) := by
  induction h generalizing s k with
  | @nothing c l hshape =>
    subst hcore
    refine ⟨s, (always_silent (exec_call hshape)).trans ?_, .inr ?_⟩
    · exact (and_iff_right (fun h => nomatch h)).symm
    · simp [ShState.say, printText]
  | @command c c' l cmd a out hshape hsimple hstage =>
    subst hcore htyped
    obtain ⟨es, s', hcmd, hstate⟩ := stage_step hsimple hstage
    refine ⟨s', ?_, hstate⟩
    rw [Frames.always_exec ((exec_call hshape).trans hcmd), command_carried hcmd]
    rfl
  | call hhands _ ih =>
    subst hcore
    obtain ⟨s', hiff, hstate⟩ := ih rfl htyped k
    exact ⟨s', (always_silent hhands.exec).trans hiff, hstate⟩
  | @rok c c' l cmd a st hshape hrok ha hroot _ ih =>
    subst hcore htyped
    let s₁ := { s with core := { s.core with rok := true } }.say (rokSays a)
    obtain ⟨s₂, hiff, hstate⟩ := ih (s := s₁) rfl rfl (.endRok s.typed :: k)
    refine ⟨{ s₂ with core := { s₂.core with rok := false }, typed := s.typed }, ?_, ?_⟩
    · rw [always_silent (exec_rok hshape hrok ha hroot), foldl_append]
      exact hiff.trans (and_congr_right (fun _ => always_silent (show exec b s₂ (.endRok s.typed) =
        some ([], _, []) from rfl)))
    · rw [show s₁.pipe.ready = s.pipe.ready from Pipe.foldl_emit_ready _ _] at hstate
      refine hstate.imp id (fun hs₂ => ?_)
      rw [← say_say, hs₂]
      rfl

lemma always_endPipes (s : ShState σ) (feeds : List (Option (List UInt8))) :
    Frames.Always (exec b) Event.Carried (s, feeds.map .endPipe) := by
  induction feeds generalizing s with
  | nil => exact Frames.always_of_stuck rfl
  | cons feed feeds ih => exact (always_silent rfl).mpr (ih _)

/-- The pipe that a left side leaves is empty if it printed nothing. -/
lemma feed_ne_nil_of_ready (p : Pipe) (hready : (p.after out).ready = true) : some (feedOf out) ≠ some [] := by
  intro heq
  have hnil := feedOf_eq_nil.mp (Option.some_inj.mp heq)
  exact Bool.false_ne_true ((Pipe.after_not_ready p hnil).symm.trans hready)

/-- A left side that finds something in the pipe does not read what it should. -/
lemma not_readsWell_start {feed : Option (List UInt8)} (hready : p.ready = true) (hfeed : feed ≠ some []) :
    ¬ ReadsWell p.start feed true := by
  intro h
  have hcarried := h rfl
  rw [Pipe.got_start, if_pos hready] at hcarried
  cases feed with
  | none => exact nomatch hcarried
  | some text => exact hfeed (congrArg some (show [] = text from hcarried).symm)

lemma got_eq_none : p.got = none ↔ p.ready = false := by
  unfold Pipe.got
  cases p.ready <;> simp

/-- What `rok` prints does not come between a last stage and the pipe. -/
lemma readsWell_said {feed : Option (List UInt8)} (hactive : feed ≠ none → p.active = false) (said : List Emission)
    (reads : Bool) : ReadsWell (said.foldl Pipe.emit p) feed reads ↔ ReadsWell p feed reads := by
  cases feed with
  | none =>
    refine imp_congr_right (fun _ => ?_)
    show _ = none ↔ _ = none
    rw [got_eq_none, got_eq_none, Pipe.foldl_emit_ready]
  | some text => rw [Pipe.foldl_emit_of_inactive (hactive nofun)]

lemma exec_pipeRight {printed : CStr} (s : ShState σ) (h : s.printed = printed ++ printText out) (right : CStr) :
    exec b s (.pipeRight right printed.length) =
      some ([], { s with pipe := s.pipe.connect, feed := some (feedOf out) }, [.call right, .endPipe s.feed]) := by
  have hdrop : s.printed.drop printed.length = printText out := by
    rw [h, drop_left]
  unfold exec goOn
  dsimp only
  rw [hdrop]
  rfl

/-- **The run of a pipeline.** The induction is on the stages; each starts with what those before it
left. -/
theorem pipeline_always (hp : Pipeline b typed c l stages) (hcore : s.core = c) (htyped : s.typed = typed)
    (hfeed : s.pipe.ready = true → s.feed ≠ some []) (hactive : s.feed ≠ none → s.pipe.active = false)
    (feeds : List (Option (List UInt8))) :
    Frames.Always (exec b) Event.Carried (s, .call l :: feeds.map .endPipe) ↔ Carries s.pipe s.feed stages := by
  induction hp generalizing s feeds with
  | @one c c' l st hresolves =>
    obtain ⟨s', hiff, -⟩ := hresolves.always hcore htyped (feeds.map .endPipe)
    rw [hiff, readsWell_said hactive]
    exact and_iff_left (always_endPipes s' feeds)
  | @pipe c c' l left right st stages hshape hresolves hsaid hright ih =>
    subst hcore
    obtain ⟨st', stages, rfl⟩ := exists_cons_of_ne_nil hright.ne_nil
    obtain ⟨s₁, hiff, hstate⟩ := hresolves.always (s := { s with pipe := s.pipe.start }) rfl htyped
      (.pipeRight right s.printed.length :: feeds.map .endPipe)
    refine (always_silent (exec_call hshape)).trans (Iff.trans hiff ?_)
    have hstart : ReadsWell (st.said.foldl Pipe.emit s.pipe.start) s.feed st.reads ↔
        ReadsWell s.pipe.start s.feed st.reads :=
      imp_congr_right (fun hreads => by rw [hsaid hreads]; rfl)
    rw [hstart]
    refine and_congr_right (fun hreads => ?_)
    have hready : ¬ (st.reads = true ∧ s.pipe.ready = true) := by
      rintro ⟨hlooks, hready⟩
      rw [hlooks] at hreads
      exact not_readsWell_start hready (hfeed hready) hreads
    obtain rfl := hstate.resolve_left hready
    -- the right side starts with what the left side has printed
    have hexec₂ := exec_pipeRight (b := b) ({ s with pipe := s.pipe.start, core := c' }.say st.out) rfl right
    let s₂ : ShState σ := { ({ s with pipe := s.pipe.start, core := c' }.say st.out) with
      pipe := s.pipe.after st.out, feed := some (feedOf st.out) }
    refine (always_silent hexec₂).trans ?_
    exact ih (s := s₂) rfl htyped (feed_ne_nil_of_ready s.pipe) (fun _ => rfl) (s.feed :: feeds)
  | call hhands _ ih =>
    subst hcore
    exact (always_silent hhands.exec).trans (ih rfl htyped hfeed hactive feeds)

end Run

/-! ## When the stages read what they should -/

/-- Every stage behind the first that looks at the pipe finds that the stage before it printed
nothing; or it is the last one, no earlier stage printed more than the one before it, and the buffer
had a terminator at the end of that text at first. -/
def LaterClean (p : Pipe) (stages : List Stage) : Prop :=
  ∀ pre y x post, stages = pre ++ y :: x :: post → x.reads = true →
    printText y.out = [] ∨ post = [] ∧ (∀ z ∈ pre, width z.out ≤ width y.out) ∧ p.buf (width y.out) = 0

/-- A first stage that looks at the pipe finds nothing, and the later ones find their input. -/
structure Clean (p : Pipe) (stages : List Stage) : Prop where
  first : ∀ x post, stages = x :: post → x.reads = true → p.ready = false
  later : LaterClean p stages

lemma laterClean_single (p : Pipe) (y : Stage) : LaterClean p [y] := by
  intro pre y' x post h
  have hlen := congrArg length h
  simp only [length_append, length_cons, length_nil] at hlen
  omega

lemma laterClean_cons {y : Stage} (hy : PrintsLines y.out) (p : Pipe) (x : Stage) (rest : List Stage) :
    LaterClean p (y :: x :: rest) ↔
      (x.reads = true → printText y.out = [] ∨ rest = [] ∧ p.buf (width y.out) = 0) ∧
        LaterClean (p.after y.out) (x :: rest) := by
  -- a text that is not empty reaches behind the first byte
  have hbuf {y' : Stage} (hne : printText y'.out ≠ []) :
      (p.after y.out).buf (width y'.out) = 0 ↔ width y.out ≤ width y'.out ∧ p.buf (width y'.out) = 0 :=
    Pipe.after_buf_eq_zero hy p (Nat.pos_of_ne_zero (fun h => hne (width_eq_zero.mp h)))
  constructor
  · intro h
    refine ⟨fun hreads => ?_, fun pre y' x' post heq hreads => ?_⟩
    · obtain hnil | ⟨hpost, -, hzero⟩ := h [] y x rest rfl hreads
      · exact .inl hnil
      · exact .inr ⟨hpost, hzero⟩
    · by_cases hne : printText y'.out = []
      · exact .inl hne
      · obtain hnil | ⟨hpost, hpre, hzero⟩ := h (y :: pre) y' x' post (congrArg (y :: ·) heq) hreads
        · exact absurd hnil hne
        · refine .inr ⟨hpost, fun z hz => hpre z (mem_cons_of_mem y hz), (hbuf hne).mpr ⟨?_, hzero⟩⟩
          exact hpre y (mem_cons_self ..)
  · rintro ⟨hfirst, hlater⟩ pre y' x' post heq hreads
    cases pre with
    | nil =>
      obtain ⟨rfl, htail⟩ := cons.inj heq
      obtain ⟨rfl, rfl⟩ := cons.inj htail
      exact (hfirst hreads).imp id (fun h => ⟨h.1, (fun _ hz => nomatch hz), h.2⟩)
    | cons z pre =>
      obtain ⟨rfl, htail⟩ := cons.inj heq
      by_cases hne : printText y'.out = []
      · exact .inl hne
      · obtain hnil | ⟨hpost, hpre, hzero⟩ := hlater pre y' x' post htail hreads
        · exact absurd hnil hne
        · obtain ⟨hwidth, hzero'⟩ := (hbuf hne).mp hzero
          refine .inr ⟨hpost, ?_, hzero'⟩
          rintro z' (_ | ⟨_, hz'⟩)
          · exact hwidth
          · exact hpre z' hz'

lemma carries_after_iff (stages : List Stage) (p : Pipe) (y : Stage)
    (hlines : ∀ st ∈ (y :: stages).dropLast, PrintsLines st.out) :
    Carries (p.after y.out) (some (feedOf y.out)) stages ↔ LaterClean p (y :: stages) := by
  induction stages generalizing p y with
  | nil => exact iff_of_true trivial (laterClean_single p y)
  | cons x rest ih =>
    have hy : PrintsLines y.out := hlines y (mem_cons_self ..)
    rw [laterClean_cons hy]
    cases rest with
    | nil =>
      rw [and_iff_left (laterClean_single _ x)]
      show (x.reads = true → (p.after y.out).got.getD [] = feedOf y.out) ↔ _
      rw [Pipe.got_after, Pipe.textFrom_after_iff hy]
      simp
    | cons x' rest =>
      refine and_congr ?_ (ih (p.after y.out) x (fun st hst => hlines st (mem_cons_of_mem y hst)))
      show (x.reads = true → (p.after y.out).start.got.getD [] = feedOf y.out) ↔ _
      have hgot : (p.after y.out).start.got.getD [] = [] := by
        rw [Pipe.got_start]
        split <;> rfl
      rw [hgot, eq_comm (a := ([] : List UInt8)), feedOf_eq_nil]
      simp

lemma carries_iff_clean (hlines : ∀ st ∈ stages.dropLast, PrintsLines st.out) :
    Carries p none stages ↔ Clean p stages := by
  cases stages with
  | nil =>
    refine iff_of_true trivial ⟨(fun x post h => nomatch h), fun pre y x post h => ?_⟩
    exact absurd h.symm (append_ne_nil_of_right_ne_nil _ (cons_ne_nil _ _))
  | cons x rest =>
    have hfirst : (∀ x' post, x :: rest = x' :: post → x'.reads = true → p.ready = false) ↔
        (x.reads = true → p.ready = false) := by
      refine ⟨fun h => h x rest rfl, fun h x' post heq => ?_⟩
      obtain ⟨rfl, -⟩ := cons.inj heq
      exact h
    have hclean : Clean p (x :: rest) ↔ (x.reads = true → p.ready = false) ∧ LaterClean p (x :: rest) :=
      ⟨fun h => ⟨hfirst.mp h.first, h.later⟩, fun h => ⟨hfirst.mpr h.1, h.2⟩⟩
    rw [hclean]
    cases rest with
    | nil =>
      rw [and_iff_left (laterClean_single p x)]
      exact imp_congr_right (fun _ => got_eq_none)
    | cons x' rest =>
      refine and_congr (imp_congr_right (fun _ => ?_)) (carries_after_iff _ p x hlines)
      exact got_eq_none (p := p.start)

/-! ## The prompt -/

/-- What the stage before is taken to have printed once the frames are done. -/
def feedAfter (feed : Option (List UInt8)) (fs : List (Frame b)) : Option (List UInt8) :=
  fs.foldl (fun feed f => match f with | .endPipe feed' => feed' | _ => feed) feed

lemma feedAfter_of_no_end (feed : Option (List UInt8))
    (h : fs.all (fun f => !f.isEndPipe) = true) : feedAfter feed fs = feed := by
  induction fs with
  | nil => rfl
  | cons f fs ih =>
    rw [all_cons, Bool.and_eq_true] at h
    cases f with
    | endPipe feed' => exact nomatch h.1
    | _ => exact ih h.2

lemma exec_feedAfter {f : Frame b}
    (h : exec b s f = some (es, s', fs)) : feedAfter s'.feed fs = feedAfter s.feed [f] := by
  cases (exec_steps h).1 with
  | silent hf hfeed hfs => rw [feedAfter_of_no_end _ hfs, feedAfter_of_no_end _ (by simp [hf]), hfeed]
  | pipeRight => rfl
  | endPipe => rfl
  | rok _ hfeed hfs => exact (feedAfter_of_no_end _ hfs).trans hfeed
  | grep line a => exact (fsGrep_keeps b s a).2
  | leaf _ => rfl

/-- **At the prompt there is no stage before.** -/
theorem session_feed {s' : ShState σ} {lines : List CStr} (h : Session b s lines events (s', []))
    (hfeed : s.feed = none) : s'.feed = none := by
  have hcalls : (lines.map (Frame.call (b := b))).all (fun f => !f.isEndPipe) = true := by
    rw [all_map]
    exact all_eq_true.mpr (fun _ _ => rfl)
  refine h.invariant (I := fun c => feedAfter c.1.feed c.2 = none) (fun s f k es s' fs hexec hc => ?_) ?_
  · have hstep := exec_feedAfter hexec
    unfold feedAfter at hstep hc ⊢
    rw [foldl_append, hstep]
    exact hc
  · exact (feedAfter_of_no_end _ hcalls).trans hfeed

/-- **What the stages of a pipeline read.** Every `grep` of a line reads what the stage before it
printed, and nothing if there is none, if and only if each one that the run comes to is fed. On a
pipeline of commands that is so if and only if the stages carry what they print; and where they
print lines, if and only if the pipe is clean for them. -/
theorem pipeline_faithful_iff {s : ShState σ} {keys : List Int} {rest : σ} {lines : List CStr} {events : List Event}
    (hhistory : Session b (ShState.boot keys rest) lines events (s, [])) (line : CStr) :
    (Faithful b s line ↔
      ∀ es s' l k, Frames.Runs (exec b) (s, [.call line]) es (s', .call l :: k) → FedAt s' l) ∧
    ∀ stages, Pipeline b s.typed s.core line stages →
      (Faithful b s line ↔ Carries s.pipe none stages) ∧
        ((∀ st ∈ stages.dropLast, PrintsLines st.out) → (Faithful b s line ↔ Clean s.pipe stages)) := by
  refine ⟨faithful_iff_fed line, fun stages hpipe => ?_⟩
  have hprompt : s.feed = none := session_feed hhistory rfl
  have hcarries : Faithful b s line ↔ Carries s.pipe none stages := by
    rw [← hprompt]
    exact pipeline_always hpipe rfl rfl (by rw [hprompt]; exact fun _ => nofun) (absurd hprompt) []
  exact ⟨hcarries, fun hlines => hcarries.trans (carries_iff_clean hlines)⟩

/-- `alias x=y | rok uname | grep pig` as the first line of a session. -/
theorem uname_pipeline_faithful :
    Faithful idleBuiltins (ShState.boot [] ()) (cstr "alias x=y | rok uname | grep pig") := by
  let c := (ShState.boot [] ()).core
  let c₁ := { c with aliases := shAliasSet c.aliases (cstr "x") (cstr "y") }
  let said := aliasSet (cstr "x") (cstr "y")
  let told := rokSays (cstr "uname ") ++ [.vpln (cstr "pigOS")]
  have hline : shape c (cstr "alias x=y | rok uname | grep pig") =
      .pipe (cstr "alias x=y ") (cstr "rok uname | grep pig") := by decide +kernel
  have hrest : shape c₁ (cstr "rok uname | grep pig") = .pipe (cstr "rok uname ") (cstr "grep pig") := by
    decide +kernel
  have halias : shape c (cstr "alias x=y ") = .command (cstr "alias") (cstr "x=y ") := by decide +kernel
  have hrok : shape c₁ (cstr "rok uname ") = .command (cstr "rok") (cstr "uname ") := by decide +kernel
  have huname : shape { c₁ with rok := true } (cstr "uname ") = .command (cstr "uname") [] := by decide +kernel
  have hgrep : shape c₁ (cstr "grep pig") = .command (cstr "grep") (cstr "pig") := by decide +kernel
  have hpipe : Pipeline idleBuiltins none c (cstr "alias x=y | rok uname | grep pig")
      [⟨false, [], said⟩, ⟨false, rokSays (cstr "uname "), told⟩, ⟨true, [], []⟩] :=
    .pipe hline (.command halias (by decide) rfl) nofun
      (.pipe hrest (.rok hrok (by decide) (by decide) rfl (.command huname (by decide) rfl)) nofun
        (.one (.command hgrep (by decide) rfl)))
  have hhistory : Session idleBuiltins (ShState.boot [] ()) [] [] (ShState.boot [] (), []) := .refl _
  have hlines : PrintsLines said ∧ PrintsLines told := by
    refine ⟨fun c hc => ?_, fun c hc => ?_⟩ <;> simp [said, told, aliasSet, rokSays] at hc
  refine (((pipeline_faithful_iff hhistory _).2 _ hpipe).2 ?_).mpr ⟨fun _ _ _ _ => rfl, ?_⟩
  · exact forall_mem_cons.mpr ⟨hlines.1, forall_mem_singleton.mpr hlines.2⟩
  · refine (laterClean_cons hlines.1 _ _ _).mpr ⟨nofun, ?_⟩
    refine (laterClean_cons hlines.2 _ _ _).mpr ⟨fun _ => .inr ⟨rfl, ?_⟩, laterClean_single _ _⟩
    decide +kernel

/-- After `version | true`, the `grep` of `uname | grep larp` reads a line of `version`. -/
theorem uname_pipeline_reads_version :
    (demo [] 8 ["version | true"]).2.2 = [] ∧
      ¬ Faithful idleBuiltins (demo [] 8 ["version | true"]).2.1 (cstr "uname | grep larp") := by
  refine ⟨rfl, fun h => ?_⟩
  have hevents := h _ _ (Frames.run_runs 8 _)
  exact absurd hevents (by decide +kernel)

end PigOS.Shell
