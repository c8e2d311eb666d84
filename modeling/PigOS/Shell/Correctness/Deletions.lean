import PigOS.Kernel.Correctness.Pigfs
import PigOS.Shell.FsCommands

/-!
# `Shell.Correctness.Deletions` — tombstones over whole sessions

`fsStep_effect` says once what a command can do to the file system; every result about sessions is a
case split on it. The mirror is the list of the tombstones set so far, reboots included
(`deleted_eq_tombstones`).
-/

namespace PigOS.Shell

open Kernel Relation List

variable {fs : Pigfs} {p : CStr} {store : DelStore} {r : Report}

/-! ## The effect of one command -/

/-- `rm` frees a slot by clearing its flag. -/
def MemFile.free (m : MemFile) : MemFile := { m with used := 0 }

/-- What the command `c` can do to the file system, with what it reports. -/
inductive Effect (fs : Pigfs) : Cmd → Report → Pigfs → Prop where
  | files {c : Cmd} {r : Report} {fs' : Pigfs} : MemSteps fs fs' → r.removed = none → Effect fs c r fs'
  | rmFile {c : Cmd} {p : CStr} {i : Nat} : memfsFind fs p = some i →
      Effect fs c (.rm (.removed p)) (fs.modifyFile i MemFile.free)
  | rmNode {c : Cmd} {p : CStr} : memfsFind fs p = none → fsFindVnode fs p ≠ none →
      isCriticalPath p = false → Effect fs c (.rm (.removed p)) (fsMarkDeleted fs p)
  | rmdir {c : Cmd} {p : CStr} {i : Nat} : memfsFind fs p = some i →
      Effect fs c (.rmdir (.removed p)) (fs.modifyFile i MemFile.rmdir)
  | log (len : Nat) (text : Content) : Effect fs (.rtldebug len text) .silent (rtldebugSave fs len text)
  | reboot : Effect fs .reboot .silent (boot fs.store).fs

lemma Effect.nothing {c : Cmd} (hr : r.removed = none) : Effect fs c r fs :=
  Effect.files ReflTransGen.refl hr

lemma saveFile_steps (fs : Pigfs) (path : CStr) (text : Content) : MemSteps fs (saveFile fs path text) := by
  unfold saveFile
  split
  · exact ReflTransGen.single (MemStep.rewrite _ (keepsSlot_write text))
  · exact createWith_steps fs path (keepsSlot_write text)

lemma shMkdir_effect (fs : Pigfs) (cwd a : CStr) (c : Cmd) :
    Effect fs c (.mkdir (shMkdir fs cwd a).1) (shMkdir fs cwd a).2 := by
  refine Effect.files ?_ rfl
  have hc := memfsCreate_steps fs (fsResolve cwd a 256)
  unfold shMkdir
  split
  · exact ReflTransGen.refl
  · simp only
    split
    · exact ReflTransGen.refl
    · split <;> rename_i heq <;> rw [heq] at hc
      · exact hc.tail (MemStep.rewrite _ keepsSlot_mkDir)
      · exact hc

lemma shRmdir_effect (fs : Pigfs) (cwd a : CStr) (c : Cmd) :
    Effect fs c (.rmdir (shRmdir fs cwd a).1) (shRmdir fs cwd a).2 := by
  unfold shRmdir
  split
  · exact Effect.nothing rfl
  · simp only
    split
    · exact Effect.nothing rfl
    · rename_i i hi
      split
      · exact Effect.rmdir hi
      · exact Effect.nothing rfl

lemma rpkInstall_steps (r : RpkState) (fs : Pigfs) (pkg : CStr) : MemSteps fs (rpkInstall r fs pkg).2 := by
  unfold rpkInstall
  split
  · exact ReflTransGen.refl
  · split
    · exact ReflTransGen.refl
    · exact createWith_steps fs _ (keepsSlot_write installedText)

/-- The checks of `rm` end in a report that is not a removal, or a path that one of the tables
has. -/
lemma rmTarget_cases (fs : Pigfs) (cwd arg : CStr) :
    (∃ r, rmTarget fs cwd arg = .error r ∧ (Report.rm r).removed = none) ∨
    ∃ p, rmTarget fs cwd arg = .ok p ∧ (fsFindVnode fs p ≠ none ∨ memfsFind fs p ≠ none) := by
  unfold rmTarget
  simp only
  split
  · exact Or.inl ⟨_, rfl, rfl⟩
  · split
    · exact Or.inl ⟨_, rfl, rfl⟩
    · split
      · exact Or.inl ⟨_, rfl, rfl⟩
      · rename_i hnone
        split
        · exact Or.inl ⟨_, rfl, rfl⟩
        · refine Or.inr ⟨_, rfl, ?_⟩
          simp only [Bool.and_eq_true, Option.isNone_iff_eq_none, not_and_or] at hnone
          rcases hnone with hv | hm
          · exact Or.inl hv
          · refine Or.inr (fun hfind => hm ?_)
            rw [hfind]
            rfl

lemma fsRm_effect (fs : Pigfs) (cwd arg : CStr) (c : Cmd) :
    Effect fs c (.rm (fsRm fs cwd arg).1) (fsRm fs cwd arg).2 := by
  unfold fsRm
  rcases rmTarget_cases fs cwd arg with ⟨r, ht, hr⟩ | ⟨p, ht, hfound⟩
  · rw [ht]
    exact Effect.nothing hr
  · rw [ht]
    simp only
    split
    · exact Effect.nothing rfl
    · rename_i hcrit
      split
      · rename_i i hi
        exact Effect.rmFile hi
      · rename_i hnone
        have hv := hfound.resolve_right (fun h => h hnone)
        exact Effect.rmNode hnone hv (Bool.not_eq_true _ ▸ hcrit)

/-- **What one command does to the file system.** -/
theorem fsStep_effect (s : Sys) (c : Cmd) : Effect s.fs c (fsStep s c).1 (fsStep s c).2.fs := by
  unfold fsStep
  split
  · exact Effect.nothing rfl
  cases c with
  | touch cwd arg => exact Effect.files (fsTouch_steps s.fs cwd arg) rfl
  | mkdir cwd arg => exact shMkdir_effect s.fs cwd arg _
  | rm cwd arg =>
    have h := fsRm_effect s.fs cwd arg (.rm cwd arg)
    simp only
    split <;> rename_i heq <;> rw [heq] at h <;> exact h
  | rmdir cwd arg => exact shRmdir_effect s.fs cwd arg _
  | pnano cwd f text => exact Effect.files (saveFile_steps s.fs _ text) rfl
  | pi cwd f text => exact Effect.files (saveFile_steps s.fs _ text) rfl
  | menuconfig text => exact Effect.files (saveFile_steps s.fs _ text) rfl
  | adduser n => exact Effect.files (cmdAdduser_steps s.users s.fs n) rfl
  | deluser n => exact Effect.nothing rfl
  | rpkInstall pkg => exact Effect.files (rpkInstall_steps s.rpk s.fs pkg) rfl
  | rpkRemove pkg => exact Effect.nothing rfl
  | rtldebug len text => exact Effect.log len text
  | reboot => exact Effect.reboot

/-! ## The deletion tables over a session -/

/-- Some live slot has the path `p`. -/
def liveFile (fs : Pigfs) (p : CStr) : Bool := fs.memfs.any (fun m => decide (m.used ≠ 0 ∧ m.cpath = p))

lemma liveFile_of_memfsFind {i : Nat} (h : memfsFind fs p = some i) : liveFile fs p = true := by
  obtain ⟨-, ⟨m, hm, hu, hp⟩, -⟩ := memfsFind_eq_some_iff.mp h
  exact any_eq_true.mpr ⟨m, mem_of_getElem? hm, decide_eq_true ⟨hu, hp⟩⟩

lemma not_liveFile_of_memfsFind (hd : fsIsDeleted fs p = false) (h : memfsFind fs p = none) :
    liveFile fs p = false := by
  rcases memfsFind_eq_none_iff.mp h with hdel | hnone
  · exact absurd hdel (by rw [hd]; simp)
  · refine any_eq_false.mpr (fun m hm hc => ?_)
    obtain ⟨hu, hp⟩ := of_decide_eq_true hc
    obtain ⟨j, hj⟩ := getElem?_of_mem hm
    exact hnone j m hj hu hp

/-- The tombstone that a step sets: the path `rm` reports as removed when no live slot had it. -/
def tombstone (e : Machine.Event Sys Cmd Report) : Option CStr :=
  match e.output with
  | .rm (.removed p) => if liveFile e.before.fs p then none else some p
  | _ => none

lemma tombstone_eq_some_iff {e : Machine.Event Sys Cmd Report} :
    tombstone e = some p ↔ e.output = .rm (.removed p) ∧ liveFile e.before.fs p = false := by
  unfold tombstone
  split
  · rename_i q hq
    rw [hq]
    simp only [Report.rm.injEq, RmReport.removed.injEq]
    split
    · rename_i hl
      refine ⟨fun h => absurd h (by simp), ?_⟩
      rintro ⟨rfl, hp⟩
      exact absurd hl (by rw [hp]; simp)
    · rename_i hl
      simp only [Option.some.injEq]
      constructor
      · rintro rfl
        exact ⟨rfl, by simpa using hl⟩
      · exact fun h => h.1
  · rename_i hne
    refine ⟨fun h => absurd h (by simp), ?_⟩
    rintro ⟨hout, -⟩
    exact absurd hout (hne p)

lemma boot_sameDeletions (store : DelStore) : SameDeletions (delSyncFromStore ⟨[], [], store⟩) (boot store).fs :=
  (usersInitFiles_steps _).sameDeletions

lemma rtldebugSave_sameDeletions (fs : Pigfs) (len : Nat) (text : Content) :
    SameDeletions fs (rtldebugSave fs len text) := by
  have hc := (memfsCreate_steps fs (cstr "/var/log/netdebug.log")).sameDeletions
  unfold rtldebugSave createWith
  split <;> rename_i heq <;> rw [heq] at hc
  · exact hc.trans (sameDeletions_modifyFile _ _ _)
  · exact hc

/-- What an effect does to the deletion tables: nothing, or one new tombstone. -/
lemma Effect.deletions {fs' : Pigfs} {c : Cmd} (h : Effect fs c r fs') (hinv : DelInv fs) :
    (SameDeletions fs fs' ∧ ∀ p, r = .rm (.removed p) → liveFile fs p = true) ∨
    ∃ p, r = .rm (.removed p) ∧ liveFile fs p = false ∧ p ∈ deletable ∧ p ∉ fs.deleted ∧
      fs' = fsMarkDeleted fs p := by
  cases h with
  | files hsteps hr =>
    refine Or.inl ⟨hsteps.sameDeletions, ?_⟩
    rintro p rfl
    exact absurd hr (by simp [Report.removed])
  | rmFile hi =>
    refine Or.inl ⟨sameDeletions_modifyFile _ _ _, ?_⟩
    intro q hq
    cases hq
    exact liveFile_of_memfsFind hi
  | rmNode hnone hv hcrit =>
    rename_i p
    obtain ⟨hlive, hmem⟩ := fsFindVnode_ne_none_iff.mp hv
    exact Or.inr ⟨p, rfl, not_liveFile_of_memfsFind hlive hnone, mem_deletable.mpr ⟨hmem, hcrit⟩,
      hinv.not_mem_of_not_deleted hlive, rfl⟩
  | rmdir hi => exact Or.inl ⟨sameDeletions_modifyFile _ _ _, fun _ hq => absurd hq (by simp)⟩
  | log len text => exact Or.inl ⟨rtldebugSave_sameDeletions fs len text, fun _ hq => absurd hq (by simp)⟩
  | reboot =>
    exact Or.inl ⟨(hinv.reboot []).trans (boot_sameDeletions fs.store), fun _ hq => absurd hq (by simp)⟩

/-- The step lemma: the invariant is kept, and the mirror grows by the tombstone set. -/
lemma fsStep_deletions (s : Sys) (c : Cmd) (hinv : DelInv s.fs) : DelInv (fsStep s c).2.fs ∧ (fsStep s c).2.fs.deleted =
      s.fs.deleted ++ (tombstone ⟨s, c, (fsStep s c).1, (fsStep s c).2⟩).toList := by
  rcases (fsStep_effect s c).deletions hinv with ⟨hsame, hlive⟩ | ⟨p, hr, hlive, hdel, hnew, hfs⟩
  · have hnone : tombstone ⟨s, c, (fsStep s c).1, (fsStep s c).2⟩ = none := by
      rw [Option.eq_none_iff_forall_ne_some]
      intro p hp
      obtain ⟨hout, hp⟩ := tombstone_eq_some_iff.mp hp
      rw [hlive p hout] at hp
      exact absurd hp (by simp)
    refine ⟨hinv.congr hsame, ?_⟩
    rw [hnone, hsame.deleted, Option.toList_none, append_nil]
  · have hsome : tombstone ⟨s, c, (fsStep s c).1, (fsStep s c).2⟩ = some p :=
      tombstone_eq_some_iff.mpr ⟨hr, hlive⟩
    rw [hsome, hfs]
    exact ⟨hinv.fsMarkDeleted hdel hnew, hinv.fsMarkDeleted_deleted p⟩

lemma boot_deletions (h : store.magic ≠ delMagic) : DelInv (boot store).fs ∧ (boot store).fs.deleted = [] := by
  obtain ⟨hinv, hdel⟩ := delInv_of_fresh_store h []
  have hsame := boot_sameDeletions store
  exact ⟨hinv.congr hsame, hsame.deleted.trans hdel⟩

lemma delInv_exec (h : store.magic ≠ delMagic) (cs : List Cmd) : DelInv (Machine.exec fsStep (boot store) cs).fs :=
  Machine.exec_invariant (fun s => DelInv s.fs) (fun s c hs => (fsStep_deletions s c hs).1)
    (boot_deletions h).1 cs

/-- The run lemma: the mirror at the end is the one at first, followed by the run's tombstones. -/
lemma deleted_exec {s : Sys} (hinv : DelInv s.fs) (cs : List Cmd) : (Machine.exec fsStep s cs).fs.deleted =
      s.fs.deleted ++ (Machine.events fsStep s cs).filterMap tombstone := by
  induction cs generalizing s with
  | nil => simp
  | cons c cs ih =>
    obtain ⟨hinv', hdel⟩ := fsStep_deletions s c hinv
    rw [Machine.exec_cons, Machine.events_cons, ih hinv', hdel, append_assoc, filterMap_cons]
    cases tombstone ⟨s, c, (fsStep s c).1, (fsStep s c).2⟩ <;> rfl

/-- **The mirror is the list of the tombstones set since power-on**, whatever reboots lie
between. -/
theorem deleted_eq_tombstones (h : store.magic ≠ delMagic) (cs : List Cmd) :
    (Machine.exec fsStep (boot store) cs).fs.deleted = (Machine.events fsStep (boot store) cs).filterMap tombstone := by
  obtain ⟨hinv, hdel⟩ := boot_deletions h
  rw [deleted_exec hinv, hdel, nil_append]

/-- A node that is in the read-only table is hidden exactly when its path is in the mirror. -/
lemma vnode_hidden_iff (hinv : DelInv fs) {v : VNode} (hv : v ∈ vfs) :
    fsFindVnode fs v.path = none ↔ v.path ∈ fs.deleted := by
  rw [fsFindVnode_eq_none_iff, hinv.fsIsDeleted_iff]
  have hmem : v.path ∈ vfs.map (·.path) := mem_map_of_mem hv
  exact ⟨fun h => h.resolve_right (not_not_intro hmem), Or.inl⟩

/-- An `rm` that has passed its checks on a critical path panics and halts the machine. -/
lemma rm_critical_halts {s : Sys} (hrun : s.halted = false) {cwd arg : CStr}
    (ht : rmTarget s.fs cwd arg = .ok p) (hp : AtOrBelowCritical p) :
    fsStep s (.rm cwd arg) = (.rm (.panic p), { s with halted := true }) := by
  have hrm : fsRm s.fs cwd arg = (.panic p, s.fs) := by
    unfold fsRm
    rw [ht]
    simp only [(isCriticalPath_iff p).mpr hp, if_true]
  unfold fsStep
  simp only [hrun, Bool.false_and, Bool.false_eq_true, if_false, hrm]

/-- **Deletions persist and protect.** In every session from a store without the magic value: a node
of the read-only table is hidden exactly when some `rm`, run while no live slot had its path,
reported it as removed; the mirror lists these paths in order and never fills up; the store holds
the same list; and no node at or below a critical path is hidden. -/
theorem deletions_persist (store : DelStore) (hmagic : store.magic ≠ delMagic) (cs : List Cmd) :
    let s := Machine.exec fsStep (boot store) cs
    let es := Machine.events fsStep (boot store) cs
    (∀ v ∈ vfs, fsFindVnode s.fs v.path = none ↔
      ∃ e ∈ es, e.output = .rm (.removed v.path) ∧ liveFile e.before.fs v.path = false) ∧
    s.fs.deleted = es.filterMap tombstone ∧ s.fs.deleted.length < deletedMax ∧
    s.fs.store.magic = delMagic ∧ s.fs.store.entries = s.fs.deleted ∧
    (∀ v ∈ vfs, AtOrBelowCritical v.path → fsFindVnode s.fs v.path ≠ none) ∧
    (∀ cwd arg p, s.halted = false → rmTarget s.fs cwd arg = .ok p → AtOrBelowCritical p →
      fsStep s (.rm cwd arg) = (.rm (.panic p), { s with halted := true })) := by
  intro s es
  have hinv : DelInv s.fs := delInv_exec hmagic cs
  have hdel : s.fs.deleted = es.filterMap tombstone := deleted_eq_tombstones hmagic cs
  refine ⟨?_, hdel, hinv.length_lt, hinv.magic, hinv.entries_eq, ?_, ?_⟩
  · intro v hv
    rw [vnode_hidden_iff hinv hv, hdel, mem_filterMap]
    simp only [tombstone_eq_some_iff]
  · intro v hv hcrit hnone
    have hmem := hinv.deletable _ ((vnode_hidden_iff hinv hv).mp hnone)
    have hncrit := (mem_deletable.mp hmem).2
    rw [(isCriticalPath_iff v.path).mpr hcrit] at hncrit
    exact absurd hncrit (by simp)
  · intro cwd arg p hrun ht hp
    exact rm_critical_halts hrun ht hp

/-- Memory that was never written. -/
def zeroStore : DelStore := ⟨0, 0, fun _ => []⟩

/-- A removed read-only file stays hidden after a reboot. -/
theorem deletions_persist_readme :
    zeroStore.magic ≠ delMagic ∧
    fsFindVnode (Machine.exec fsStep (boot zeroStore)
      [.rm (cstr "/") (cstr "/README.txt"), .reboot]).fs (cstr "/README.txt") = none := by
  have hv : (⟨cstr "/README.txt", false⟩ : VNode) ∈ vfs := by decide +kernel
  refine ⟨by decide, ((deletions_persist zeroStore (by decide) _).1 _ hv).mpr ?_⟩
  exact ⟨_, mem_cons_self, by rfl, by decide +kernel⟩

end PigOS.Shell
