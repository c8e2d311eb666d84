import Mathlib.Data.List.Basic

/-!
# `Lib.Machine` — runs of a deterministic machine with outputs

A machine is a step function `σ → ι → ω × σ`. `exec` is the state that a list of inputs leads to,
and `events` is what an observer of the run sees. The induction is proved once: `exec_invariant`,
`events_invariant`, and `events_invariant_iff` for a property that only some steps preserve. `Along`
is for a machine that may have no next state.
-/

namespace Machine

open List

/-- One step of a run, as an observer sees it. -/
structure Event (σ ι ω : Type*) where
  before : σ
  input : ι
  output : ω
  after : σ
  deriving DecidableEq

variable {σ ι ω : Type*} (step : σ → ι → ω × σ)

/-- The state reached by feeding a list of inputs. -/
def exec (s : σ) : List ι → σ
  | [] => s
  | i :: is => exec (step s i).2 is

/-- The steps of the run that a list of inputs makes from `s`, in order. -/
def events (s : σ) : List ι → List (Event σ ι ω)
  | [] => []
  | i :: is => ⟨s, i, (step s i).1, (step s i).2⟩ :: events (step s i).2 is

@[simp] lemma exec_nil (s : σ) : exec step s [] = s := rfl

@[simp] lemma exec_cons (s : σ) (i : ι) (is : List ι) :
    exec step s (i :: is) = exec step (step s i).2 is := rfl

@[simp] lemma events_nil (s : σ) : events step s [] = [] := rfl

@[simp] lemma events_cons (s : σ) (i : ι) (is : List ι) :
    events step s (i :: is) = ⟨s, i, (step s i).1, (step s i).2⟩ :: events step (step s i).2 is := rfl

variable {step} {is : List ι}

lemma exec_append (s : σ) (is js : List ι) : exec step s (is ++ js) = exec step (exec step s is) js := by
  induction is generalizing s with
  | nil => rfl
  | cons i is ih => exact ih _

lemma mem_events {s : σ} {e : Event σ ι ω} (he : e ∈ events step s is) :
    step e.before e.input = (e.output, e.after) := by
  induction is generalizing s with
  | nil => exact absurd he not_mem_nil
  | cons i is ih =>
    rw [events_cons, mem_cons] at he
    rcases he with rfl | he
    · rfl
    · exact ih he

variable (Inv : σ → Prop)

/-- **The run rule.** A property that every step preserves holds at the end of every run. -/
theorem exec_invariant (hstep : ∀ s i, Inv s → Inv (step s i).2) {s : σ} (hs : Inv s) (is : List ι) :
    Inv (exec step s is) := by
  induction is generalizing s with
  | nil => exact hs
  | cons i is ih => exact ih (hstep s i hs)

/-- **The run rule, all along a run** whose steps meet the condition that keeps the property. -/
theorem events_invariant {Ok : σ → ι → Prop} (hstep : ∀ s i, Inv s → Ok s i → Inv (step s i).2) {s : σ} (hs : Inv s)
    {is : List ι} (hok : ∀ e ∈ events step s is, Ok e.before e.input) :
    ∀ e ∈ events step s is, Inv e.before ∧ Inv e.after := by
  induction is generalizing s with
  | nil => exact fun e he => absurd he not_mem_nil
  | cons i is ih =>
    rw [events_cons, forall_mem_cons] at hok ⊢
    have hnext : Inv (step s i).2 := hstep s i hs hok.1
    exact ⟨⟨hs, hnext⟩, ih hnext hok.2⟩

lemma exec_of_events {s : σ} (hs : Inv s) (h : ∀ e ∈ events step s is, Inv e.after) : Inv (exec step s is) := by
  induction is generalizing s with
  | nil => exact hs
  | cons i is ih =>
    rw [events_cons, forall_mem_cons] at h
    exact ih h.1 h.2

/-- **The first bad step.** If steps that meet `Ok` keep `Wf`, and any other step from `Wf` breaks
`Inv` at once, then `Inv` holds along a run exactly when every step meets `Ok`. -/
theorem events_invariant_iff {Wf : σ → Prop} {Ok : σ → ι → Prop} (hweak : ∀ s, Wf s → Inv s)
    (hok : ∀ s i, Wf s → Ok s i → Wf (step s i).2) (hbad : ∀ s i, Wf s → ¬ Ok s i → ¬ Inv (step s i).2)
    {s : σ} (hs : Wf s) (is : List ι) :
    (∀ e ∈ events step s is, Inv e.after) ↔ ∀ e ∈ events step s is, Ok e.before e.input := by
  induction is generalizing s with
  | nil => simp
  | cons i is ih =>
    rw [events_cons, forall_mem_cons, forall_mem_cons]
    constructor
    · rintro ⟨hinv, hrest⟩
      have hi : Ok s i := by
        by_contra hni
        exact hbad s i hs hni hinv
      exact ⟨hi, (ih (hok s i hs hi)).mp hrest⟩
    · rintro ⟨hi, hrest⟩
      have hs' := hok s i hs hi
      exact ⟨hweak _ hs', (ih hs').mpr hrest⟩

/-! ## Machines that can fail -/

section Partial

variable {next : σ → ι → Option σ} {P Q : σ → ι → Prop}

/-- Every input is fed in a state in which it is as `P` says. -/
def Along (next : σ → ι → Option σ) (P : σ → ι → Prop) : σ → List ι → Prop
  | _, [] => True
  | s, i :: is => P s i ∧ ∀ s', next s i = some s' → Along next P s' is

/-- **Two conditions** that agree where the steps of the first lead hold along the same runs. -/
theorem along_iff (heq : ∀ s i, Inv s → (P s i ↔ Q s i)) (hstep : ∀ s i s', Inv s → P s i → next s i = some s' → Inv s')
    {s : σ} (hs : Inv s) (is : List ι) : Along next P s is ↔ Along next Q s is := by
  induction is generalizing s with
  | nil => exact Iff.rfl
  | cons i is ih =>
    constructor
    · rintro ⟨hp, halong⟩
      exact ⟨(heq s i hs).mp hp, fun s' hs' => (ih (hstep s i s' hs hp hs')).mp (halong s' hs')⟩
    · rintro ⟨hq, halong⟩
      have hp := (heq s i hs).mpr hq
      exact ⟨hp, fun s' hs' => (ih (hstep s i s' hs hp hs')).mpr (halong s' hs')⟩

end Partial

end Machine
