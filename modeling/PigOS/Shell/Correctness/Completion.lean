import Mathlib.Data.List.TakeWhile
import PigOS.Shell.Correctness.Lash
import PigOS.Shell.Rpk

/-!
# `Shell.Correctness.Completion` — the candidates of a Tab

`lash_find_completions` compares a word with a command as far as both go, so that a word also finds
the commands it begins with: behind `lsx` the list has `ls`. Every command is there once, since the
database of the package manager keeps the list of installed commands free of repetitions (`RpkOk`).
-/

namespace PigOS.Shell

open List

variable {r : RpkState} {c : CStr}
namespace Lash

open Kernel

/-! ## Installed commands -/

/-- What `rpk install` and `rpk remove` can lead to. -/
inductive InstallHistory : RpkState → Prop where
  | initial : InstallHistory initialRpk
  | install {r : RpkState} (h : InstallHistory r) (fs : Pigfs) (pkg : CStr) : InstallHistory (rpkInstall r fs pkg).1
  | remove {r : RpkState} (h : InstallHistory r) (pkg : CStr) : InstallHistory (rpkRemove r pkg)

/-- Every installed command is there once, and its package has the flag. -/
structure RpkOk (r : RpkState) : Prop where
  nodup : r.cmds.Nodup
  flagged : ∀ c ∈ r.cmds, ∃ i, rpkFindPkg c = some i ∧ r.installed i = true

lemma rpkDb_of_find {n : CStr} {i : Nat} (h : rpkFindPkg n = some i) : rpkDb[i]? = some n := by
  obtain ⟨hlt, heq, -⟩ := findIdx?_eq_some_iff_getElem.mp h
  rw [getElem?_eq_getElem hlt, ksc_eq_zero.mp (of_decide_eq_true heq)]

lemma find_inj {n m : CStr} {i : Nat} (hn : rpkFindPkg n = some i) (hm : rpkFindPkg m = some i) : n = m :=
  Option.some.inj ((rpkDb_of_find hn).symm.trans (rpkDb_of_find hm))

lemma RpkOk.install (h : RpkOk r) (fs : Pigfs) (pkg : CStr) : RpkOk (rpkInstall r fs pkg).1 := by
  unfold rpkInstall
  cases hfind : rpkFindPkg pkg with
  | none => exact h
  | some idx =>
    dsimp only
    by_cases hflag : r.installed idx = true
    · rw [if_pos hflag]
      exact h
    rw [if_neg hflag]
    have hnew : pkg ∉ r.cmds := by
      intro hmem
      obtain ⟨i, hi, hins⟩ := h.flagged pkg hmem
      obtain rfl := Option.some.inj (hfind.symm.trans hi)
      exact hflag hins
    have hkept : ∀ c ∈ r.cmds, ∃ i, rpkFindPkg c = some i ∧ (r.setInstalled idx true).installed i = true := by
      intro c hc
      obtain ⟨i, hi, hins⟩ := h.flagged c hc
      refine ⟨i, hi, ?_⟩
      dsimp only [RpkState.setInstalled]
      split
      · rfl
      · exact hins
    split
    · refine ⟨nodup_append.mpr ⟨h.nodup, nodup_singleton pkg, ?_⟩, ?_⟩
      · rintro c hc d hd rfl
        exact hnew (mem_singleton.mp hd ▸ hc)
      · intro c hc
        rcases mem_append.mp hc with hc | hc
        · exact hkept c hc
        · rw [mem_singleton.mp hc]
          exact ⟨idx, hfind, if_pos rfl⟩
    · exact ⟨h.nodup, hkept⟩

lemma RpkOk.remove (h : RpkOk r) (pkg : CStr) : RpkOk (rpkRemove r pkg) := by
  unfold rpkRemove
  cases hfind : rpkFindPkg pkg with
  | none => exact h
  | some idx =>
    dsimp only
    split
    · exact h
    split
    · exact h
    · refine ⟨h.nodup.erase pkg, fun c hc => ?_⟩
      obtain ⟨hne, hmem⟩ := h.nodup.mem_erase_iff.mp hc
      obtain ⟨i, hi, hins⟩ := h.flagged c hmem
      -- the flag that goes down is another package's
      have hidx : i ≠ idx := by
        rintro rfl
        exact hne (find_inj hi hfind)
      refine ⟨i, hi, ?_⟩
      dsimp only [RpkState.setInstalled]
      rw [if_neg hidx]
      exact hins

lemma InstallHistory.ok (h : InstallHistory r) : RpkOk r := by
  induction h with
  | initial => exact ⟨nodup_nil, fun c hc => absurd hc not_mem_nil⟩
  | install _ fs pkg ih => exact ih.install fs pkg
  | remove _ pkg ih => exact ih.remove pkg

lemma RpkOk.length_le (h : RpkOk r) : r.cmds.length ≤ rpkDb.length := by
  refine (h.nodup.subperm fun c hc => ?_).length_le
  obtain ⟨i, hi, -⟩ := h.flagged c hc
  exact mem_of_getElem? (rpkDb_of_find hi)

/-! ## Candidates -/

section Candidates

variable {cmds : List CStr} {word : CStr}

/-- An installed command that is none of the built-in completions. -/
def addedCommand (c : CStr) : Bool := !lashCompletions.any (fun l => l = c)

/-- The commands in the order of the tables. -/
def allCommands (cmds : List CStr) : List CStr := lashCompletions ++ cmds.filter addedCommand

/-- The candidates that a word is to have. -/
def completionsOf (cmds : List CStr) (word : CStr) : List CStr :=
  ((allCommands cmds).filter (word <+: ·)).take tabCompleteMax

lemma agrees_iff {w : CStr} : agrees c w = true ↔ c <+: w ∨ w <+: c := by
  induction c generalizing w with
  | nil => exact iff_of_true rfl (Or.inl nil_prefix)
  | cons a c ih =>
    cases w with
    | nil => exact iff_of_true rfl (Or.inr nil_prefix)
    | cons b w =>
      rw [agrees, Bool.and_eq_true, decide_eq_true_eq, ih, cons_prefix_cons, cons_prefix_cons, eq_comm (a := b),
        and_or_left]

lemma addedCommand_iff : addedCommand c = true ↔ c ∉ lashCompletions := by
  rw [addedCommand, Bool.not_eq_true', ← Bool.not_eq_true, any_eq_true]
  refine not_congr ⟨?_, fun hmem => ⟨c, hmem, decide_eq_true rfl⟩⟩
  rintro ⟨l, hl, heq⟩
  exact of_decide_eq_true heq ▸ hl

lemma lashFindCompletions_eq (hne : word ≠ []) :
    lashFindCompletions cmds word = ((allCommands cmds).filter (agrees · word)).take tabCompleteMax := by
  have hinstalled : cmds.filter (fun c => !lashCompletions.any (fun l => ksc l c = 0) && agrees c word) =
      (cmds.filter addedCommand).filter (agrees · word) := by
    rw [filter_filter]
    refine filter_congr fun c _ => ?_
    rw [Bool.and_comm, addedCommand]
    simp only [ksc_eq_zero]
  unfold lashFindCompletions allCommands
  rw [if_neg hne]
  dsimp only
  rw [hinstalled, filter_append, take_append, length_take]
  congr 2
  omega

-- the tables are compared as numbers, which is faster than letter by letter

/-- The first byte of a string. -/
def firstByte (c : CStr) : Nat := c.head?.elim 0 (fun x => x.val.toNat)

/-- What is needed of the table, in one evaluation: decoding it takes longer than the tests. -/
lemma lashCompletions_tested : (∀ x ∈ lashCompletions.map firstByte, (lashCompletions.map firstByte).count x ≤ 32) ∧
      (lashCompletions.map byteCode).Nodup ∧ ∀ c ∈ lashCompletions, c ≠ [] := by
  decide +kernel

lemma nodup_lashCompletions : lashCompletions.Nodup := List.Nodup.of_map byteCode lashCompletions_tested.2.1

lemma completions_ne_nil : ∀ c ∈ lashCompletions, c ≠ [] := lashCompletions_tested.2.2

lemma length_agreeing_le (hne : word ≠ []) : (lashCompletions.filter (agrees · word)).length ≤ 32 := by
  obtain ⟨p, ps, rfl⟩ := exists_cons_of_ne_nil hne
  have hheads : lashCompletions.countP (agrees · (p :: ps)) ≤ (lashCompletions.map firstByte).count p.val.toNat := by
    rw [List.count, countP_map]
    refine countP_mono_left fun c hc hagree => ?_
    obtain ⟨a, as, rfl⟩ := exists_cons_of_ne_nil (completions_ne_nil c hc)
    rw [agrees, Bool.and_eq_true, decide_eq_true_eq] at hagree
    rw [Function.comp_apply, hagree.1]
    exact beq_self_eq_true _
  rw [← countP_eq_length_filter]
  refine hheads.trans ?_
  by_cases hmem : p.val.toNat ∈ lashCompletions.map firstByte
  · exact lashCompletions_tested.1 _ hmem
  · rw [count_eq_zero_of_not_mem hmem]
    exact Nat.zero_le _

lemma length_candidates_le (hcmds : cmds.length ≤ rpkDb.length) (hne : word ≠ []) :
    ((allCommands cmds).filter (agrees · word)).length ≤ tabCompleteMax := by
  have hdb : rpkDb.length = 27 := rfl
  have hmax : tabCompleteMax = 64 := rfl
  have hown := length_agreeing_le hne
  have hinstalled : ((cmds.filter addedCommand).filter (agrees · word)).length ≤ cmds.length :=
    (length_filter_le ..).trans (length_filter_le ..)
  rw [allCommands, filter_append, length_append]
  omega

lemma nodup_allCommands (h : cmds.Nodup) : (allCommands cmds).Nodup := by
  refine nodup_append.mpr ⟨nodup_lashCompletions, h.filter _, ?_⟩
  rintro c hc d hd rfl
  exact addedCommand_iff.mp (mem_filter.mp hd).2 hc

lemma mem_allCommands : c ∈ allCommands cmds ↔ c ∈ lashCompletions ∨ c ∈ cmds := by
  rw [allCommands, mem_append, mem_filter, addedCommand_iff]
  constructor
  · rintro (hc | hc)
    · exact Or.inl hc
    · exact Or.inr hc.1
  · rintro (hc | hc)
    · exact Or.inl hc
    · by_cases hown : c ∈ lashCompletions
      · exact Or.inl hown
      · exact Or.inr ⟨hc, hown⟩

end Candidates

/-- **The candidates of a word** are the commands that begin with it, each once, in the order of the
tables, exactly where no command is a proper beginning of the word. -/
theorem completions_iff {r : RpkState} (hr : InstallHistory r) {word : CStr} (hne : word ≠ []) (hspace : space ∉ word) :
    (lashFindCompletionsAll r.cmds word = completionsOf r.cmds word ∧ (lashFindCompletionsAll r.cmds word).Nodup) ↔
      ∀ c, c ∈ lashCompletions ∨ c ∈ r.cmds → c <+: word → c = word := by
  have hok := hr.ok
  have hlist : lashFindCompletionsAll r.cmds word = (allCommands r.cmds).filter (agrees · word) := by
    rw [lashFindCompletionsAll, if_neg hne, if_neg hspace, lashFindCompletions_eq hne,
      take_of_length_le (length_candidates_le hok.length_le hne)]
  have hnodup : ((allCommands r.cmds).filter (agrees · word)).Nodup := (nodup_allCommands hok.nodup).filter _
  have hsub : ((allCommands r.cmds).filter (word <+: ·)).length ≤ tabCompleteMax := by
    refine Nat.le_trans ?_ (length_candidates_le hok.length_le hne)
    rw [← countP_eq_length_filter, ← countP_eq_length_filter]
    exact countP_mono_left fun c _ hc => agrees_iff.mpr (Or.inr (of_decide_eq_true hc))
  rw [hlist, and_iff_left hnodup, completionsOf, take_of_length_le hsub]
  constructor
  · intro heq c hc hbegin
    have hmem : c ∈ (allCommands r.cmds).filter (agrees · word) :=
      mem_filter.mpr ⟨mem_allCommands.mpr hc, agrees_iff.mpr (Or.inl hbegin)⟩
    rw [heq] at hmem
    have hback : word <+: c := of_decide_eq_true (mem_filter.mp hmem).2
    exact hbegin.eq_of_length_le hback.length_le
  · intro hproper
    refine filter_congr fun c hc => ?_
    rw [Bool.eq_iff_iff, agrees_iff, decide_eq_true_eq, or_iff_right_of_imp]
    intro hbegin
    rw [hproper c (mem_allCommands.mp hc) hbegin]

/-- A file system without files. -/
def bareFs : Pigfs := ⟨[], [], ⟨0, 0, fun _ => []⟩⟩

/-- After the installation of `btop` the word `b` has the candidates `bg` and `btop`. -/
theorem completions_b :
    lashFindCompletionsAll (rpkInstall initialRpk bareFs (cstr "btop")).1.cmds (cstr "b") =
      [cstr "bg", cstr "btop"] := by
  have hcmds : (rpkInstall initialRpk bareFs (cstr "btop")).1.cmds = [cstr "btop"] := by decide +kernel
  have hproper : ∀ c, c ∈ lashCompletions ∨ c ∈ [cstr "btop"] → c <+: cstr "b" → c = cstr "b" := by
    intro c hc hbegin
    have hne : c ≠ [] := hc.elim (completions_ne_nil c) (fun hc => mem_singleton.mp hc ▸ by decide)
    exact hbegin.eq_of_length_le (length_pos_iff.mpr hne)
  have hb := (completions_iff (.install .initial bareFs (cstr "btop")) (show cstr "b" ≠ [] by decide)
    (show space ∉ cstr "b" by decide)).mpr
  rw [hcmds] at hb ⊢
  exact (hb hproper).1.trans (by decide +kernel)

/-- The word `lsx` begins no command, and has the candidate `ls`. -/
theorem completions_lsx :
    lashFindCompletionsAll initialRpk.cmds (cstr "lsx") = [cstr "ls"] ∧
      completionsOf initialRpk.cmds (cstr "lsx") = [] := by
  decide +kernel

end Lash
end PigOS.Shell
