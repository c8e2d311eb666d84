import Mathlib.Data.Fintype.Card

/-!
# `Lib.Frames` — recursive procedures as a machine with a stack of frames

A procedure is given by what one frame does: `exec s f` gives the events that can be observed, the
next state, and the frames that replace `f` on the stack. It is `none` where the frame waits for
something that never comes.

* `Runs`, `Always` — the finite executions, and what holds of every event of each of them;
* `Ends`, `Finishes`, `EndsIn` — an execution ends, in a state that meets a condition, within a
  number of steps;
* `acc_of_acyclic`, `not_ends_of_cycle` — procedures whose calls form a graph without cycles, and
  with one.
-/

namespace Frames

open List

variable {σ φ ε : Type*} (exec : σ → φ → Option (List ε × σ × List φ))
variable {c c' : σ × List φ} {es : List ε} {s : σ} {fs k : List φ} {P : ε → Prop} {f : φ}

/-- A step takes the top frame. -/
def step : σ × List φ → Option (List ε × σ × List φ)
  | (_, []) => none
  | (s, f :: k) => (exec s f).map (fun r => (r.1, r.2.1, r.2.2 ++ k))

/-- At most `n` steps. -/
def run : Nat → σ × List φ → List ε × σ × List φ
  | 0, c => ([], c)
  | n + 1, c =>
    match step exec c with
    | none => ([], c)
    | some (es, c) => (es ++ (run n c).1, (run n c).2)

inductive Runs : σ × List φ → List ε → σ × List φ → Prop where
  | refl (c : σ × List φ) : Runs c [] c
  | head {c c' c'' : σ × List φ} {es es' : List ε} (hstep : step exec c = some (es, c')) (hrest : Runs c' es' c'') :
      Runs c (es ++ es') c''

/-- The execution from `c` comes to an end. -/
def Ends (c : σ × List φ) : Prop := ∃ es c', Runs exec c es c' ∧ step exec c' = none

/-- The execution of `fs` from `s` ends, and in a state that meets `Q` if all of `fs` is
executed. -/
def Finishes (Q : σ → Prop) (s : σ) (fs : List φ) : Prop :=
  ∃ es c, Runs exec (s, fs) es c ∧ step exec c = none ∧ (c.2 = [] → Q c.1)

variable {exec}

lemma run_runs (n : Nat) (c : σ × List φ) : Runs exec c (run exec n c).1 (run exec n c).2 := by
  induction n generalizing c with
  | zero => exact .refl c
  | succ n ih =>
    rw [run]
    cases hstep : step exec c with
    | none => exact .refl c
    | some r => exact .head hstep (ih r.2)

lemma step_cases (h : step exec c = some (es, c')) :
    ∃ s f k s' fs, c = (s, f :: k) ∧ exec s f = some (es, s', fs) ∧ c' = (s', fs ++ k) := by
  obtain ⟨s, fs⟩ := c
  cases fs with
  | nil => exact nomatch h
  | cons f k =>
    obtain ⟨r, hr, heq⟩ := Option.map_eq_some_iff.mp h
    obtain ⟨rfl, rfl⟩ := Prod.mk.inj heq
    exact ⟨s, f, k, r.2.1, r.2.2, rfl, hr, rfl⟩

lemma step_append (h : step exec (s, fs) = some (es, c))
    (k : List φ) : step exec (s, fs ++ k) = some (es, c.1, c.2 ++ k) := by
  obtain ⟨s₁, f, k₁, s', fs', heq, hexec, rfl⟩ := step_cases h
  obtain ⟨rfl, rfl⟩ := Prod.mk.inj heq
  show (exec s f).map _ = some (es, s', (fs' ++ k₁) ++ k)
  rw [hexec, Option.map_some, append_assoc]
  rfl

lemma step_append_none (h : step exec (s, fs) = none) (hne : fs ≠ []) (k : List φ) : step exec (s, fs ++ k) = none := by
  cases fs with
  | nil => exact absurd rfl hne
  | cons f fs => exact Option.map_eq_none_iff.mpr (Option.map_eq_none_iff.mp h)

/-- Frames below the ones that are executed stay where they are. -/
lemma Runs.append (h : Runs exec c es c') (k : List φ) : Runs exec (c.1, c.2 ++ k) es (c'.1, c'.2 ++ k) := by
  induction h with
  | refl c => exact .refl _
  | head hstep _ ih => exact .head (step_append hstep k) ih

lemma Runs.trans {c'' : σ × List φ} {es' : List ε} (h : Runs exec c es c') (h' : Runs exec c' es' c'') :
    Runs exec c (es ++ es') c'' := by
  induction h with
  | refl c => exact h'
  | head hstep _ ih =>
    rw [append_assoc]
    exact .head hstep (ih h')

/-- **The run rule.** What every step keeps holds to the end of a run. -/
theorem Runs.invariant {I : σ × List φ → Prop}
    (hexec : ∀ s f k es s' fs, exec s f = some (es, s', fs) → I (s, f :: k) → I (s', fs ++ k))
    (h : Runs exec c es c') (hc : I c) : I c' := by
  induction h with
  | refl c => exact hc
  | head hstep _ ih =>
    obtain ⟨s, f, k, s', fs, rfl, hf, rfl⟩ := step_cases hstep
    exact ih (hexec s f k _ s' fs hf hc)

/-- What holds of the events of every step holds of all events of a run. -/
lemma Runs.forall_events (hexec : ∀ s f es s' fs, exec s f = some (es, s', fs) → ∀ e ∈ es, P e)
    (h : Runs exec c es c') : ∀ e ∈ es, P e := by
  induction h with
  | refl c => exact forall_mem_nil _
  | head hstep _ ih =>
    obtain ⟨s, f, k, s', fs, -, hf, -⟩ := step_cases hstep
    intro e he
    obtain hmem | hmem := mem_append.mp he
    · exact hexec s f _ s' fs hf e hmem
    · exact ih e hmem

/-! ## Every execution -/

variable (exec) in
/-- `P` holds of all events, however far the execution from `c` has come. -/
def Always (P : ε → Prop) (c : σ × List φ) : Prop := ∀ es c', Runs exec c es c' → ∀ e ∈ es, P e

lemma always_of_stuck (h : step exec c = none) : Always exec P c := by
  intro es c' hrun
  cases hrun with
  | refl => exact forall_mem_nil _
  | head hstep _ => exact nomatch h.symm.trans hstep

/-- The top frame is executed: its events, and then the rest. -/
lemma always_exec {s' : σ} (h : exec s f = some (es, s', fs)) :
    Always exec P (s, f :: k) ↔ (∀ e ∈ es, P e) ∧ Always exec P (s', fs ++ k) := by
  have hstep : step exec (s, f :: k) = some (es, s', fs ++ k) := by
    rw [step, h, Option.map_some]
  constructor
  · intro halways
    refine ⟨fun e he => ?_, fun es' c' hrun e he => ?_⟩
    · exact halways _ _ (.head hstep (.refl _)) e (mem_append_left _ he)
    · exact halways _ _ (.head hstep hrun) e (mem_append_right _ he)
  · rintro ⟨hes, hrest⟩ es' c' hrun
    cases hrun with
    | refl => exact forall_mem_nil _
    | head hs hrun =>
      obtain ⟨rfl, rfl⟩ := Prod.mk.inj (Option.some_inj.mp (hs.symm.trans hstep))
      intro e he
      obtain hmem | hmem := mem_append.mp he
      · exact hes e hmem
      · exact hrest _ _ hrun e hmem

/-- It is enough to look at the steps that the execution takes. -/
lemma always_iff : Always exec P c ↔ ∀ es s f k, Runs exec c es (s, f :: k) →
    ∀ es' s' fs, exec s f = some (es', s', fs) → ∀ e ∈ es', P e := by
  constructor
  · intro h es s f k hrun es' s' fs hexec e he
    have hstep : step exec (s, f :: k) = some (es', s', fs ++ k) := by
      rw [step, hexec, Option.map_some]
    exact h _ _ (hrun.trans (.head hstep (.refl _))) e (mem_append_right _ (mem_append_left _ he))
  · intro h es c' hrun
    induction hrun with
    | refl c => exact forall_mem_nil _
    | head hstep hrest ih =>
      obtain ⟨s, f, k, s', fs, rfl, hexec, rfl⟩ := step_cases hstep
      refine forall_mem_append.mpr ⟨h [] s f k (.refl _) _ s' fs hexec, ih ?_⟩
      exact fun es₁ s₁ f₁ k₁ hrun₁ => h _ s₁ f₁ k₁ (.head hstep hrun₁)

/-! ## Executions that end -/

variable {Q : σ → Prop}

lemma Finishes.ends (h : Finishes exec Q s fs) : Ends exec (s, fs) := by
  obtain ⟨es, c, hrun, hnone, -⟩ := h
  exact ⟨es, c, hrun, hnone⟩

lemma Finishes.nil (h : Q s) : Finishes exec Q s [] :=
  ⟨[], (s, []), .refl _, rfl, fun _ => h⟩

/-- A frame waits, or it is executed by what replaces it. -/
lemma Finishes.of_exec
    (h : ∀ es s' fs, exec s f = some (es, s', fs) → Finishes exec Q s' fs) : Finishes exec Q s [f] := by
  cases hexec : exec s f with
  | none =>
    refine ⟨[], (s, [f]), .refl _, ?_, nofun⟩
    rw [step, hexec]
    rfl
  | some r =>
    obtain ⟨es, c, hrun, hnone, hQ⟩ := h r.1 r.2.1 r.2.2 hexec
    have hstep : step exec (s, [f]) = some r := by
      rw [step, hexec, Option.map_some, append_nil]
    exact ⟨r.1 ++ es, c, .head hstep hrun, hnone, hQ⟩

lemma Finishes.append {R : σ → Prop} (h : Finishes exec Q s fs)
    (hk : ∀ s', Q s' → Finishes exec R s' k) : Finishes exec R s (fs ++ k) := by
  obtain ⟨es, ⟨s₁, fs₁⟩, hrun, hnone, hQ⟩ := h
  have hrun' := hrun.append k
  cases fs₁ with
  | nil =>
    obtain ⟨es', c, hrun'', hnone', hR⟩ := hk s₁ (hQ rfl)
    exact ⟨es ++ es', c, hrun'.trans hrun'', hnone', hR⟩
  | cons f fs₁ =>
    -- the stack is stuck above `k`
    exact ⟨es, _, hrun', step_append_none hnone (cons_ne_nil f fs₁) k, nofun⟩

lemma Finishes.cons {R : σ → Prop} (h : Finishes exec Q s [f]) (hk : ∀ s', Q s' → Finishes exec R s' k) :
    Finishes exec R s (f :: k) :=
  h.append hk

/-! ## The length of an execution -/

variable (exec) in
/-- The execution from `c` ends within `n` steps. -/
def EndsIn : Nat → σ × List φ → Prop
  | 0, c => step exec c = none
  | n + 1, c => ∀ es c', step exec c = some (es, c') → EndsIn n c'

lemma Ends.endsIn (h : Ends exec c) : ∃ n, EndsIn exec n c := by
  obtain ⟨es, c', hrun, hnone⟩ := h
  induction hrun with
  | refl c => exact ⟨0, hnone⟩
  | head hstep _ ih =>
    obtain ⟨n, hn⟩ := ih hnone
    refine ⟨n + 1, fun es₁ c₁ h₁ => ?_⟩
    obtain ⟨-, rfl⟩ := Prod.mk.inj (Option.some_inj.mp (hstep.symm.trans h₁))
    exact hn

lemma EndsIn.of_exec {n : Nat} {s' : σ} (h : EndsIn exec n (s, f :: k))
    (hexec : exec s f = some (es, s', fs)) : ∃ m < n, EndsIn exec m (s', fs ++ k) := by
  have hstep : step exec (s, f :: k) = some (es, s', fs ++ k) := by
    rw [step, hexec, Option.map_some]
  cases n with
  | zero => exact nomatch (show step exec (s, f :: k) = none from h).symm.trans hstep
  | succ n => exact ⟨n, Nat.lt_succ_self n, h _ _ hstep⟩

/-- Frames that cannot wait are executed before the ones below them. -/
lemma EndsIn.drop_frames {I : σ → List φ → Prop}
    (hexec : ∀ s f fs, I s (f :: fs) → ∃ es s' fs', exec s f = some (es, s', fs') ∧ I s' (fs' ++ fs))
    {n : Nat} (hs : I s fs) (h : EndsIn exec n (s, fs ++ k)) :
    ∃ m ≤ n, ∃ s', I s' [] ∧ EndsIn exec m (s', k) := by
  induction n using Nat.strong_induction_on generalizing s fs with
  | _ n ih =>
    cases fs with
    | nil => exact ⟨n, le_rfl, s, hs, h⟩
    | cons f fs =>
      obtain ⟨es, s₁, fs₁, hf, hs₁⟩ := hexec s f fs hs
      obtain ⟨m, hm, hends⟩ := EndsIn.of_exec (k := fs ++ k) h hf
      rw [← append_assoc] at hends
      obtain ⟨m', hm', hrest⟩ := ih m hm hs₁ hends
      exact ⟨m', hm'.trans hm.le, hrest⟩

/-! ## Call graphs -/

section Graph

variable {α : Type*} {r : α → α → Prop} {a : α}

/-- Calls can be inducted on when finitely many are reached and none of them is reached from
itself. -/
lemma acc_of_acyclic (hfin : {b | Relation.ReflTransGen r a b}.Finite)
    (hacyclic : ∀ b, Relation.ReflTransGen r a b → ¬ Relation.TransGen r b b) : Acc (flip r) a := by
  let Reached := { b // Relation.ReflTransGen r a b }
  let below (x y : Reached) : Prop := Relation.TransGen r y.1 x.1
  have : Finite Reached := hfin.to_subtype
  have : IsTrans Reached below := ⟨fun _ _ _ hxy hyz => hyz.trans hxy⟩
  have : Std.Irrefl below := ⟨fun x hx => hacyclic x.1 x.2 hx⟩
  have hwf : WellFounded below := Finite.wellFounded_of_trans_of_irrefl below
  suffices h : ∀ x : Reached, Acc (flip r) x.1 from h ⟨a, .refl⟩
  intro x
  induction x using hwf.induction with
  | _ x ih => exact .intro _ (fun y hy => ih ⟨y, x.2.tail hy⟩ (.single hy))

/-- A number that grows from call to call excludes cycles. -/
lemma acyclic_of_rank {S : α → Prop} (rank : α → Nat) (hrank : ∀ b c, S b → r b c → S c ∧ rank b < rank c) {b : α}
    (hb : S b) : ¬ Relation.TransGen r b b := by
  have hlt : ∀ c, Relation.TransGen r b c → S c ∧ rank b < rank c := by
    intro c hc
    induction hc with
    | single h => exact hrank _ _ hb h
    | tail _ h ih =>
      obtain ⟨hS, hless⟩ := hrank _ _ ih.1 h
      exact ⟨hS, ih.2.trans hless⟩
  exact fun h => lt_irrefl _ (hlt b h).2

end Graph

section Cycle

variable {ι : Type*} {r : ι → ι → Prop} {call : ι → φ} {Q : ι → σ → Prop} {i j : ι}

/-- An execution of `i`, with other frames below it, has a shorter one of `j` in it. -/
def Contains (exec : σ → φ → Option (List ε × σ × List φ)) (Q : ι → σ → Prop) (call : ι → φ)
    (i j : ι) : Prop :=
  ∀ n s k, Q i s → EndsIn exec n (s, call i :: k) →
    ∃ m < n, ∃ s' k', Q j s' ∧ EndsIn exec m (s', call j :: k')

lemma Contains.trans {k : ι} (h : Contains exec Q call i j) (h' : Contains exec Q call j k) :
    Contains exec Q call i k := by
  intro n s fs hs hn
  obtain ⟨m, hm, s₁, fs₁, hs₁, hends⟩ := h n s fs hs hn
  obtain ⟨m', hm', hrest⟩ := h' m s₁ fs₁ hs₁ hends
  exact ⟨m', hm'.trans hm, hrest⟩

lemma contains_of_transGen
    (hcalls : ∀ j k, Relation.ReflTransGen r i j → r j k → Contains exec Q call j k)
    (hreach : Relation.ReflTransGen r i j) {k : ι} (hpath : Relation.TransGen r j k) :
    Contains exec Q call j k := by
  induction hpath with
  | single h => exact hcalls _ _ hreach h
  | tail hpath h ih => exact ih.trans (hcalls _ _ (hreach.trans hpath.to_reflTransGen) h)

/-- **The cycle rule.** If every call that is reached makes the calls of the graph, one that is
reached from itself has no end. -/
theorem not_ends_of_cycle
    (hcalls : ∀ j k, Relation.ReflTransGen r i j → r j k → Contains exec Q call j k)
    (hreach : Relation.ReflTransGen r i j) (hcycle : Relation.TransGen r j j) (hs : Q i s) :
    ¬ Ends exec (s, [call i]) := by
  -- an execution of `j` has a shorter one in it
  have hnever : ∀ n s k, Q j s → ¬ EndsIn exec n (s, call j :: k) := by
    intro n
    induction n using Nat.strong_induction_on with
    | _ n ih =>
      intro s k hs hn
      obtain ⟨m, hm, s', k', hs', hends⟩ :=
        contains_of_transGen hcalls hreach hcycle n s k hs hn
      exact ih m hm s' k' hs' hends
  intro hends
  obtain ⟨n, hn⟩ := hends.endsIn
  obtain rfl | hpath := Relation.reflTransGen_iff_eq_or_transGen.mp hreach
  · exact hnever n s [] hs hn
  · obtain ⟨m, -, s', k', hs', hm⟩ := contains_of_transGen hcalls .refl hpath n s [] hs hn
    exact hnever m s' k' hs' hm

end Cycle

end Frames
