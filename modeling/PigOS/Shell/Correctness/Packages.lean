import PigOS.Shell.Correctness.Completion

/-!
# `Shell.Correctness.Packages` — what `rpk` keeps in step

The flags of the packages and the list of commands are written apart from each other. `Listed` says
that they agree, and `rpk_refines` that together they are the packages that are installed, in the
order in which they were.
-/

namespace PigOS.Shell

open Kernel List Lash

variable {r : RpkState}

/-- The packages that a history leaves installed, in order. The newest command comes first. -/
def installedBy : List CStr → List CStr
  | [] => []
  | args :: older =>
    if rpkSub args = cstr "install" ∨ rpkSub args = cstr "on" then
      if rpkFindPkg (rpkPkg args) = none ∨ (installedBy older).contains (rpkPkg args) then installedBy older
      else installedBy older ++ [rpkPkg args]
    else if rpkSub args = cstr "remove" then (installedBy older).filter (· != rpkPkg args)
    else installedBy older

/-- The state after a history. -/
def rpkRun (fs : Pigfs) (history : List CStr) : RpkState × Pigfs := history.foldr cmdRpk (initialRpk, fs)

/-- A package that has the flag is in the list, too. -/
structure Listed (r : RpkState) : Prop where
  ok : RpkOk r
  listed : ∀ p i, rpkFindPkg p = some i → r.installed i = true → p ∈ r.cmds

lemma Listed.flag_iff (h : Listed r) {p : CStr} {i : Nat} (hfind : rpkFindPkg p = some i) :
    r.installed i = true ↔ p ∈ r.cmds := by
  refine ⟨h.listed p i hfind, fun hmem => ?_⟩
  obtain ⟨j, hj, hset⟩ := h.ok.flagged p hmem
  rwa [Option.some.inj (hfind.symm.trans hj)]

lemma Listed.install (h : Listed r) (fs : Pigfs) (p : CStr) : Listed (rpkInstall r fs p).1 ∧
    (rpkInstall r fs p).1.cmds = if rpkFindPkg p = none ∨ r.cmds.contains p then r.cmds else r.cmds ++ [p] := by
  have hok := h.ok.install fs p
  have hlen : r.cmds.length < rpkInstalledCmds := h.ok.length_le.trans_lt (by decide)
  unfold rpkInstall at hok ⊢
  cases hfind : rpkFindPkg p with
  | none => exact ⟨h, (if_pos (.inl rfl)).symm⟩
  | some i =>
    by_cases hflag : r.installed i = true
    · simp only [hflag, if_true]
      exact ⟨h, (if_pos (.inr (contains_iff_mem.mpr (h.listed p i hfind hflag)))).symm⟩
    · have hnew : p ∉ r.cmds := mt (h.flag_iff hfind).mpr hflag
      simp only [hfind, hflag, RpkState.setInstalled, hlen, if_true, Bool.false_eq_true, if_false] at hok ⊢
      refine ⟨⟨hok, fun q j hj hset => ?_⟩, by simp [hnew]⟩
      rw [mem_append, mem_singleton]
      dsimp only at hset
      split at hset
      next hji => exact .inr (find_inj hj (hji ▸ hfind))
      next => exact .inl (h.listed q j hj hset)

lemma not_essential {p : CStr} {i : Nat} (h : rpkFindPkg p = some i) :
    p ∉ List.map cstr ["larpshell", "poing", "rpk"] := by
  intro hmem
  have hnone : ∀ q ∈ List.map cstr ["larpshell", "poing", "rpk"], rpkFindPkg q = none := by decide
  exact Option.some_ne_none i (h.symm.trans (hnone p hmem))

lemma Listed.remove (h : Listed r) (p : CStr) :
    Listed (rpkRemove r p) ∧ (rpkRemove r p).cmds = r.cmds.filter (· != p) := by
  have hok := h.ok.remove p
  have hsame : p ∉ r.cmds → r.cmds = r.cmds.filter (· != p) := by
    intro hnot
    rw [← h.ok.nodup.erase_eq_filter, erase_of_not_mem hnot]
  unfold rpkRemove at hok ⊢
  cases hfind : rpkFindPkg p with
  | none =>
    refine ⟨h, hsame fun hmem => ?_⟩
    obtain ⟨i, hi, -⟩ := h.ok.flagged p hmem
    exact absurd (hfind.symm.trans hi) (by simp)
  | some i =>
    by_cases hflag : r.installed i = true
    · simp only [hfind, hflag, not_essential hfind, RpkState.setInstalled, Bool.not_true,
        Bool.false_eq_true, if_false] at hok ⊢
      refine ⟨⟨hok, fun q j hj hset => ?_⟩, h.ok.nodup.erase_eq_filter p⟩
      dsimp only at hset ⊢
      split at hset
      next => cases hset
      next hji =>
        have hne : q ≠ p := fun heq => hji (Option.some.inj (hj.symm.trans (heq ▸ hfind)))
        exact (mem_erase_of_ne hne).mpr (h.listed q j hj hset)
    · simp only [hflag, Bool.not_false, if_true]
      exact ⟨h, hsame (mt (h.flag_iff hfind).mpr hflag)⟩

lemma rpkRun_listed (fs : Pigfs) (history : List CStr) :
    Listed (rpkRun fs history).1 ∧ (rpkRun fs history).1.cmds = installedBy history := by
  induction history with
  | nil => exact ⟨⟨InstallHistory.initial.ok, nofun⟩, rfl⟩
  | cons args older ih =>
    obtain ⟨hlisted, hcmds⟩ := ih
    rw [rpkRun, foldr_cons, ← rpkRun, cmdRpk, installedBy, ← hcmds]
    split
    · exact hlisted.install _ _
    split
    · exact hlisted.remove _
    · exact ⟨hlisted, rfl⟩

/-- **The list of commands** holds the packages that are installed, those with the flag, each once
and in the order of installation; they are at most 32. -/
theorem rpk_refines (fs : Pigfs) (history : List CStr) :
    let r := (rpkRun fs history).1
    r.cmds = installedBy history ∧ (∀ p, p ∈ r.cmds ↔ ∃ i, rpkDb[i]? = some p ∧ r.installed i = true) ∧ r.cmds.Nodup ∧
      r.cmds.length ≤ rpkInstalledCmds := by
  intro r
  obtain ⟨h, hcmds⟩ := rpkRun_listed fs history
  have hdb : ∀ i < rpkDb.length, rpkFindPkg (rpkDb.getD i []) = some i := by decide +kernel
  refine ⟨hcmds, fun p => ⟨fun hp => ?_, ?_⟩, h.ok.nodup, h.ok.length_le.trans (by decide)⟩
  · obtain ⟨i, hi, hset⟩ := h.ok.flagged p hp
    exact ⟨i, rpkDb_of_find hi, hset⟩
  · rintro ⟨i, hi, hset⟩
    have hfind := hdb i (List.getElem?_eq_some_iff.mp hi).1
    rw [getD_eq_getElem?_getD, hi, Option.getD_some] at hfind
    exact h.listed p i hfind hset

end PigOS.Shell
