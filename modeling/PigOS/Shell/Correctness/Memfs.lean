import PigOS.Shell.Correctness.Deletions

/-!
# `Shell.Correctness.Memfs` — removing and creating files over whole sessions

* **Removal.** `rm` of a path that a live slot has frees that slot and nothing else: a read-only
  node of the same path, or a second slot, becomes visible again.
* **Creation.** A slot returned by `memfs_create` is found again until its path is removed, exactly
  when the path fits its array and is not tombstoned. The run lemma is `memfsFind_exec`.
* **Capacity.** The counter `memfs_n` never goes down (`full_exec`).
-/

namespace PigOS.Shell

open Kernel Relation List

variable {fs fs' : Pigfs} {p : CStr} {i : Nat} {f : MemFile → MemFile} {r : Report}

lemma Reachable.delInv {s : Sys} (h : Reachable s) : DelInv s.fs := by
  obtain ⟨store, cs, hmagic, rfl⟩ := h
  exact delInv_exec hmagic cs

/-! ## Removal -/

/-- A live slot with path `p` is all there is at `p`: no read-only node, and no second live slot. -/
def SoleBacking (fs : Pigfs) (p : CStr) : Prop :=
  ∀ i, memfsFind fs p = some i →
    fsFindVnode fs p = none ∧
    ∀ (j : Nat) (m : MemFile), fs.memfs[j]? = some m → m.used ≠ 0 → m.cpath = p → j = i

lemma fsRm_removed {cwd arg : CStr} (h : (fsRm fs cwd arg).1 = .removed p) :
    (∃ i, memfsFind fs p = some i ∧ (fsRm fs cwd arg).2 = fs.modifyFile i MemFile.free) ∨
    (memfsFind fs p = none ∧ fsFindVnode fs p ≠ none ∧ (fsRm fs cwd arg).2 = fsMarkDeleted fs p) := by
  have heff := fsRm_effect fs cwd arg .reboot
  generalize (fsRm fs cwd arg).2 = fs' at heff ⊢
  rw [h] at heff
  cases heff with
  | files _ hr => exact absurd hr (by simp [Report.removed])
  | rmFile hi => exact Or.inl ⟨_, hi, rfl⟩
  | rmNode hnone hv _ => exact Or.inr ⟨hnone, hv, rfl⟩

/-- After slot `i` was freed the path is gone exactly when no other live slot has it. -/
lemma memfsFind_free (h : memfsFind fs p = some i) : memfsFind (fs.modifyFile i MemFile.free) p = none ↔
      ∀ (j : Nat) (m : MemFile), fs.memfs[j]? = some m → m.used ≠ 0 → m.cpath = p → j = i := by
  have hd : fsIsDeleted fs p = false := (memfsFind_eq_some_iff.mp h).1
  rw [memfsFind_eq_none_iff, (sameDeletions_modifyFile fs i MemFile.free).fsIsDeleted, hd]
  simp only [Bool.false_eq_true, false_or]
  constructor
  · intro hall j m hm hu hp
    by_contra hne
    exact hall j m (modifyFile_getElem?.mpr ⟨m, hm, if_neg (Ne.symm hne)⟩) hu hp
  · intro hsole j m' hm' hu hp
    obtain ⟨m, hm, rfl⟩ := modifyFile_getElem?.mp hm'
    by_cases hij : i = j
    · rw [if_pos hij] at hu
      exact hu rfl
    · rw [if_neg hij] at hu hp
      exact hij (hsole j m hm hu hp).symm

/-- **When removal is effective.** After an `rm` that reports `p` as removed neither table shows
anything at `p`, exactly when a live slot at `p`, if there was one, was all there was. -/
theorem fsRm_effective_iff {s : Sys} (hs : Reachable s) {cwd arg p : CStr} (h : (fsRm s.fs cwd arg).1 = .removed p) :
    (memfsFind (fsRm s.fs cwd arg).2 p = none ∧ fsFindVnode (fsRm s.fs cwd arg).2 p = none) ↔
      SoleBacking s.fs p := by
  rcases fsRm_removed h with ⟨i, hi, hfs⟩ | ⟨hnone, hv, hfs⟩
  · rw [hfs, memfsFind_free hi, (sameDeletions_modifyFile s.fs i MemFile.free).fsFindVnode]
    unfold SoleBacking
    constructor
    · rintro ⟨hsole, hv⟩ j hj
      rw [hi, Option.some.injEq] at hj
      exact hj ▸ ⟨hv, hsole⟩
    · intro hsole
      exact (hsole i hi).symm
  · -- a tombstone hides the path from both tables
    have hinv := hs.delInv
    have hdel : fsIsDeleted (fsMarkDeleted s.fs p) p = true := by
      unfold fsIsDeleted
      rw [hinv.fsMarkDeleted_deleted]
      simp
    rw [hfs]
    refine ⟨fun _ i hi => absurd hi (by rw [hnone]; simp), fun _ => ⟨?_, ?_⟩⟩
    · exact memfsFind_eq_none_iff.mpr (Or.inl hdel)
    · exact (fsFindVnode_eq_none_iff _ p).mpr (Or.inl hdel)

/-- Removing a read-only file that was never edited. -/
theorem fsRm_effective_readme :
    memfsFind (fsRm (boot zeroStore).fs (cstr "/") (cstr "/README.txt")).2 (cstr "/README.txt") = none ∧
    fsFindVnode (fsRm (boot zeroStore).fs (cstr "/") (cstr "/README.txt")).2 (cstr "/README.txt") = none := by
  have hs : Reachable (boot zeroStore) := ⟨zeroStore, [], by decide, rfl⟩
  refine (fsRm_effective_iff hs (by decide +kernel)).mpr ?_
  intro i hi
  exact absurd hi (by rw [show memfsFind (boot zeroStore).fs (cstr "/README.txt") = none by decide +kernel]; simp)

/-- The session that saves a new text over a read-only file. -/
def editReadme : List Cmd := [.pnano (cstr "/") (cstr "/README.txt") ⟨cstr "oink", by decide⟩]

/-- `rm` reports the edited file as removed, and the read-only one is still found under its path. -/
theorem fsRm_leaves_readme :
    let s := Machine.exec fsStep (boot zeroStore) editReadme
    let fs := (fsRm s.fs (cstr "/") (cstr "/README.txt")).2
    Reachable s ∧ (fsRm s.fs (cstr "/") (cstr "/README.txt")).1 = .removed (cstr "/README.txt") ∧
    fsFindVnode fs (cstr "/README.txt") = some ⟨cstr "/README.txt", false⟩ := by
  refine ⟨⟨zeroStore, editReadme, by decide, rfl⟩, ?_⟩
  decide +kernel

/-! ## Creation -/

/-- For a path that fits the path array, what a slot holds after the path does not matter. -/
lemma MemFile.cpath_eq_iff {m : MemFile} (hp : p.length < pathField) : m.cpath = p ↔ m.path = p := by
  constructor
  · intro h
    have hlt := MemFile.path_length_of_cpath (h ▸ hp)
    rw [← MemFile.cpath_of_lt hlt, h]
  · rintro rfl
    exact MemFile.cpath_of_lt hp

lemma memfsFind_short_iff (hp : p.length < pathField) : memfsFind fs p = some i ↔
      fsIsDeleted fs p = false ∧ (∃ m, fs.memfs[i]? = some m ∧ m.used ≠ 0 ∧ m.path = p) ∧
      ∀ j < i, ∀ m, fs.memfs[j]? = some m → m.used ≠ 0 → m.path ≠ p := by
  rw [memfsFind_eq_some_iff]
  simp only [MemFile.cpath_eq_iff hp, ne_eq]

/-- A write that keeps all paths, makes no free slot live and does not free slot `i` keeps what is
found there. -/
lemma memfsFind_modifyFile {j : Nat} (hp : p.length < pathField) (hpath : ∀ m, (f m).path = m.path)
    (hfree : ∀ m, m.used = 0 → (f m).used = 0) (hlive : j = i → ∀ m, (f m).used = m.used)
    (h : memfsFind fs p = some i) : memfsFind (fs.modifyFile j f) p = some i := by
  rw [memfsFind_short_iff hp] at h ⊢
  obtain ⟨hd, ⟨m, hm, hu, hmp⟩, hfirst⟩ := h
  refine ⟨?_, ?_, ?_⟩
  · rw [(sameDeletions_modifyFile fs j f).fsIsDeleted]
    exact hd
  · refine ⟨_, modifyFile_getElem?.mpr ⟨m, hm, rfl⟩, ?_, ?_⟩
    · split
      · rename_i hij
        rw [hlive hij]
        exact hu
      · exact hu
    · split
      · rw [hpath]
        exact hmp
      · exact hmp
  · intro k hk m' hm' hu'
    obtain ⟨m, hm, rfl⟩ := modifyFile_getElem?.mp hm'
    split at hu' <;> rename_i hjk
    · rw [if_pos hjk, hpath]
      exact hfirst k hk m hm (fun h0 => hu' (hfree m h0))
    · rw [if_neg hjk]
      exact hfirst k hk m hm hu'

lemma memfsFind_append (m : MemFile) (h : memfsFind fs p = some i) :
    memfsFind { fs with memfs := fs.memfs ++ [m] } p = some i := by
  rw [memfsFind_eq_some_iff] at h ⊢
  obtain ⟨hd, ⟨n, hn, hu, hnp⟩, hfirst⟩ := h
  have hi : i < fs.memfs.length := (List.getElem?_eq_some_iff.mp hn).1
  refine ⟨hd, ⟨n, ?_, hu, hnp⟩, ?_⟩
  · rw [getElem?_append_left hi]
    exact hn
  · intro j hj n' hn'
    refine hfirst j hj n' ?_
    rwa [getElem?_append_left (Nat.lt_trans hj hi)] at hn'

lemma MemStep.memfsFind (hp : p.length < pathField)
    (h : MemStep fs fs') (hfind : memfsFind fs p = some i) : Kernel.memfsFind fs' p = some i := by
  cases h with
  | create _ _ => exact memfsFind_append _ hfind
  | rewrite j hf =>
    exact memfsFind_modifyFile hp hf.path (fun m h0 => (hf.used m).trans h0) (fun _ => hf.used) hfind

lemma MemSteps.memfsFind (hp : p.length < pathField)
    (h : MemSteps fs fs') (hfind : memfsFind fs p = some i) : Kernel.memfsFind fs' p = some i := by
  induction h with
  | refl => exact hfind
  | tail _ hstep ih => exact MemStep.memfsFind hp hstep ih

lemma memfsFind_inj {q : CStr} (hp : memfsFind fs p = some i) (hq : memfsFind fs q = some i) : p = q := by
  obtain ⟨-, ⟨m, hm, -, hmp⟩, -⟩ := memfsFind_eq_some_iff.mp hp
  obtain ⟨-, ⟨n, hn, -, hnq⟩, -⟩ := memfsFind_eq_some_iff.mp hq
  rw [hm, Option.some.injEq] at hn
  rw [← hmp, ← hnq, hn]

/-- Freeing the slot of another path does not change what is found at `p`. -/
lemma memfsFind_freeing {q : CStr} {j : Nat}
    (hp : p.length < pathField) (hpath : ∀ m, (f m).path = m.path) (hfree : ∀ m, (f m).used = 0)
    (hj : memfsFind fs q = some j) (hne : q ≠ p) (h : memfsFind fs p = some i) :
    memfsFind (fs.modifyFile j f) p = some i := by
  refine memfsFind_modifyFile hp hpath (fun m _ => hfree m) ?_ h
  rintro rfl
  exact absurd (memfsFind_inj hj h) hne

/-- The commands a session is made of, a reboot and the log of `rtldebug` apart. -/
def Cmd.onFiles : Cmd → Bool
  | .reboot => false
  | .rtldebug _ _ => false
  | _ => true

/-- The step lemma: a command that does not remove `p` leaves it in its slot. -/
lemma Effect.memfsFind {c : Cmd}
    (hp : p.length < pathField) (hinv : DelInv fs) (h : Effect fs c r fs') (hc : c.onFiles = true)
    (hr : r.removed ≠ some p) (hfind : memfsFind fs p = some i) : Kernel.memfsFind fs' p = some i := by
  cases h with
  | files hsteps _ => exact MemSteps.memfsFind hp hsteps hfind
  | rmFile hj =>
    exact memfsFind_freeing hp (fun _ => rfl) (fun _ => rfl) hj (fun hq => hr (congrArg some hq)) hfind
  | rmdir hj =>
    exact memfsFind_freeing hp (fun _ => rfl) (fun _ => rfl) hj (fun hq => hr (congrArg some hq)) hfind
  | rmNode hnone hv hcrit =>
    obtain ⟨hlive, hmem⟩ := fsFindVnode_ne_none_iff.mp hv
    have hinv' := hinv.fsMarkDeleted (mem_deletable.mpr ⟨hmem, hcrit⟩) (hinv.not_mem_of_not_deleted hlive)
    rw [memfsFind_eq_some_iff, fsMarkDeleted_memfs]
    obtain ⟨hd, hslot, hfirst⟩ := memfsFind_eq_some_iff.mp hfind
    refine ⟨?_, hslot, hfirst⟩
    rw [← Bool.not_eq_true, hinv'.fsIsDeleted_iff, hinv.fsMarkDeleted_deleted, mem_append,
      mem_singleton, not_or, ← hinv.fsIsDeleted_iff, hd]
    exact ⟨by simp, fun hpq => hr (congrArg some hpq.symm)⟩
  | log => exact absurd hc (by simp [Cmd.onFiles])
  | reboot => exact absurd hc (by simp [Cmd.onFiles])

/-- The run lemma. -/
lemma memfsFind_exec (hp : p.length < pathField) (cs : List Cmd) (s : Sys)
    (hinv : DelInv s.fs) (hcs : ∀ c ∈ cs, c.onFiles = true)
    (hr : ∀ e ∈ Machine.events fsStep s cs, e.output.removed ≠ some p) (hfind : memfsFind s.fs p = some i) :
    memfsFind (Machine.exec fsStep s cs).fs p = some i := by
  induction cs generalizing s with
  | nil => exact hfind
  | cons c cs ih =>
    rw [Machine.events_cons, forall_mem_cons] at hr
    rw [forall_mem_cons] at hcs
    exact ih _ (fsStep_deletions s c hinv).1 hcs.2 hr.2
      ((fsStep_effect s c).memfsFind hp hinv hcs.1 hr.1 hfind)

/-- From `s` on, slot `i` is what is found at `p`, now and until a command reports `p` as
removed. -/
def Keeps (s : Sys) (p : CStr) (i : Nat) : Prop :=
  ∀ cs : List Cmd, (∀ c ∈ cs, c.onFiles = true) →
    (∀ e ∈ Machine.events fsStep s cs, e.output.removed ≠ some p) →
    memfsFind (Machine.exec fsStep s cs).fs p = some i

/-- A new slot for a path that fits and is not tombstoned is found at once. -/
lemma memfsFind_memfsCreate (hc : memfsCreate fs p = (some i, fs'))
    (hp : p.length < pathField) (hd : fsIsDeleted fs p = false) : memfsFind fs' p = some i := by
  rcases memfsCreate_eq_some hc with ⟨hfind, rfl⟩ | ⟨hnone, -, rfl, rfl⟩
  · exact hfind
  · have hother := (memfsFind_eq_none_iff.mp hnone).resolve_left (by rw [hd]; simp)
    rw [memfsFind_eq_some_iff]
    refine ⟨hd, ⟨MemFile.create p, ?_, Nat.one_ne_zero, ?_⟩, ?_⟩
    · exact getElem?_concat_length
    · rw [MemFile.cpath_eq_iff hp]
      exact take_of_length_le (Nat.le_of_lt hp)
    · intro j hj m hm
      refine hother j m ?_
      rwa [getElem?_append_left hj] at hm

lemma fileText_modifyFile (hp : p.length < pathField) (text : Content)
    (h : memfsFind fs p = some i) : fileText (fs.modifyFile i (MemFile.write text)) p = some text.val := by
  have hfind : memfsFind (fs.modifyFile i (MemFile.write text)) p = some i :=
    memfsFind_modifyFile hp (fun _ => rfl) (fun _ h0 => h0) (fun _ _ => rfl) h
  obtain ⟨-, ⟨m, hm, -, -⟩, -⟩ := memfsFind_eq_some_iff.mp h
  have hslot : (fs.modifyFile i (MemFile.write text)).memfs[i]? = some (MemFile.write text m) :=
    modifyFile_getElem?.mpr ⟨m, hm, if_pos rfl⟩
  rw [fileText, hfind, Option.bind_some, hslot]
  rfl

lemma saveFile_eq (hc : memfsCreate fs p = (some i, fs')) (text : Content) :
    saveFile fs p text = fs'.modifyFile i (MemFile.write text) := by
  rcases memfsCreate_eq_some hc with ⟨hfind, rfl⟩ | ⟨hnone, -⟩
  · unfold saveFile
    rw [hfind]
  · unfold saveFile createWith
    rw [hnone, hc]

/-- The slot that `memfs_create` returns: a live one, whose path array holds what fits of the
path. -/
lemma slot_of_memfsCreate (hc : memfsCreate fs p = (some i, fs')) :
    ∃ m, fs'.memfs[i]? = some m ∧ m.used ≠ 0 ∧ m.path = p.take pathField := by
  rcases memfsCreate_eq_some hc with ⟨hfind, rfl⟩ | ⟨-, -, rfl, rfl⟩
  · obtain ⟨-, ⟨m, hm, hused, hpath⟩, -⟩ := memfsFind_eq_some_iff.mp hfind
    refine ⟨m, hm, hused, ?_⟩
    rw [← hpath]
    by_cases hlt : m.path.length < pathField
    · rw [MemFile.cpath_of_lt hlt, take_of_length_le (Nat.le_of_lt hlt)]
    · have hfull : m.path.length = pathField := Nat.le_antisymm m.path_le (Nat.le_of_not_lt hlt)
      rw [MemFile.cpath_of_full hlt, ← hfull, take_left]
  · exact ⟨_, getElem?_concat_length, Nat.one_ne_zero, rfl⟩

/-- **What is saved is what is read**, for a path that fits and is not tombstoned, if there is a
slot. -/
theorem fileText_saveFile (hp : p.length < pathField) (hd : fsIsDeleted fs p = false)
    (hslot : (memfsCreate fs p).1.isSome = true) (text : Content) :
    fileText (saveFile fs p text) p = some text.val := by
  unfold saveFile
  split
  · rename_i i hi
    exact fileText_modifyFile hp text hi
  · unfold createWith
    split
    · rename_i i fs' hc
      exact fileText_modifyFile hp text (memfsFind_memfsCreate hc hp hd)
    · rename_i fs' hc
      rw [hc] at hslot
      exact absurd hslot (by simp)

/-- A path that does not fit is lost when its file gets another text, which the slot is found
under. -/
lemma saveFile_loses_long_path (hp : ¬ p.length < pathField)
    (hfind : memfsFind fs p = some i) : ∃ text, memfsFind (saveFile fs p text) p ≠ some i := by
  obtain ⟨-, ⟨m, hm, -, hmp⟩, -⟩ := memfsFind_eq_some_iff.mp hfind
  have hfull : ¬ m.path.length < pathField := by
    intro hlt
    rw [MemFile.cpath_of_lt hlt] at hmp
    exact hp (hmp ▸ hlt)
  rw [MemFile.cpath_of_full hfull] at hmp
  -- a text that the slot does not hold now
  obtain ⟨text, htext⟩ : ∃ text : Content, text.val ≠ m.content.val := by
    by_cases hempty : m.content.val = []
    · exact ⟨⟨[slash], by decide⟩, by rw [hempty]; simp⟩
    · exact ⟨Content.empty, fun h => hempty h.symm⟩
  refine ⟨text, fun hfound => ?_⟩
  unfold saveFile at hfound
  rw [hfind] at hfound
  obtain ⟨-, ⟨m', hm', -, hmp'⟩, -⟩ := memfsFind_eq_some_iff.mp hfound
  obtain ⟨n, hn, rfl⟩ := modifyFile_getElem?.mp hm'
  rw [hm, Option.some.injEq] at hn
  subst hn
  rw [if_pos rfl, MemFile.cpath_of_full (m := MemFile.write text m) hfull] at hmp'
  exact htext (append_cancel_left (hmp'.trans hmp.symm))

/-- Every resolved path is the path that the editor opens for some argument. -/
lemma exists_editorPath (cwd path : CStr) : ∃ f, editorPath cwd f = fsResolve cwd path 256 := by
  by_cases hpath : path = []
  · refine ⟨[dot], ?_⟩
    unfold editorPath fsResolve
    simp [hpath]
  · exact ⟨path, by unfold editorPath; rw [if_neg hpath]⟩

/-- A slot that `memfs_find` can still return: in use, and its path not tombstoned. -/
def MemFile.live (fs : Pigfs) (m : MemFile) : Bool := decide (m.used ≠ 0) && !fsIsDeleted fs m.cpath

/-- The number of entries that are live now. -/
def liveSlots (fs : Pigfs) : Nat := fs.memfs.countP (MemFile.live fs)

/-- `fs'` has at least the slots of `fs`, and not more than the table holds. -/
structure Grows (fs fs' : Pigfs) : Prop where
  le : fs.memfs.length ≤ fs'.memfs.length
  bounded : fs.memfs.length ≤ memfsMax → fs'.memfs.length ≤ memfsMax

lemma Grows.of_length_eq (h : fs'.memfs.length = fs.memfs.length) : Grows fs fs' :=
  ⟨Nat.le_of_eq h.symm, fun hmax => h ▸ hmax⟩

lemma Grows.trans {fs₁ fs₂ fs₃ : Pigfs} (h₁ : Grows fs₁ fs₂) (h₂ : Grows fs₂ fs₃) : Grows fs₁ fs₃ :=
  ⟨Nat.le_trans h₁.le h₂.le, fun hmax => h₂.bounded (h₁.bounded hmax)⟩

lemma grows_modifyFile (fs : Pigfs) (i : Nat) (f : MemFile → MemFile) : Grows fs (fs.modifyFile i f) :=
  Grows.of_length_eq (length_modify ..)

lemma MemStep.grows (h : MemStep fs fs') : Grows fs fs' := by
  cases h with
  | create _ hlt =>
    refine ⟨?_, fun _ => ?_⟩
    · rw [length_append]
      exact Nat.le_add_right _ _
    · rw [length_append, length_singleton]
      exact hlt
  | rewrite i _ => exact grows_modifyFile fs i _

lemma MemSteps.grows (h : MemSteps fs fs') : Grows fs fs' := by
  induction h with
  | refl => exact Grows.of_length_eq rfl
  | tail _ hstep ih => exact ih.trans (MemStep.grows hstep)

lemma rtldebugSave_grows (fs : Pigfs) (len : Nat) (text : Content) : Grows fs (rtldebugSave fs len text) := by
  have hc := MemSteps.grows (memfsCreate_steps fs (cstr "/var/log/netdebug.log"))
  unfold rtldebugSave createWith
  split <;> rename_i heq <;> rw [heq] at hc
  · exact hc.trans (grows_modifyFile _ _ _)
  · exact hc

/-- The step lemma: only a reboot gives a slot back, and no more are taken than the table holds. -/
lemma Effect.length {c : Cmd} (h : Effect fs c r fs') :
    (c.isReboot = false → fs.memfs.length ≤ fs'.memfs.length) ∧
      (fs.memfs.length ≤ memfsMax → fs'.memfs.length ≤ memfsMax) := by
  have hgrows : ∀ {fs'}, Grows fs fs' → (c.isReboot = false → fs.memfs.length ≤ fs'.memfs.length) ∧
      (fs.memfs.length ≤ memfsMax → fs'.memfs.length ≤ memfsMax) := fun h => ⟨fun _ => h.le, h.bounded⟩
  cases h with
  | files hsteps _ => exact hgrows (MemSteps.grows hsteps)
  | rmFile _ => exact hgrows (grows_modifyFile _ _ _)
  | rmdir _ => exact hgrows (grows_modifyFile _ _ _)
  | rmNode _ _ _ =>
    -- a tombstone is not written into the slots at all
    exact hgrows (Grows.of_length_eq (by rw [fsMarkDeleted_memfs]))
  | log len text => exact hgrows (rtldebugSave_grows fs len text)
  | reboot =>
    have hboot := MemSteps.grows (usersInitFiles_steps (delSyncFromStore ⟨[], [], fs.store⟩))
    exact ⟨fun h => absurd h (by simp [Cmd.isReboot]), fun _ => hboot.bounded (Nat.zero_le _)⟩

lemma Reachable.memfs_length_le {s : Sys} (hs : Reachable s) : s.fs.memfs.length ≤ memfsMax := by
  obtain ⟨store, cs, -, rfl⟩ := hs
  refine Machine.exec_invariant (fun s => s.fs.memfs.length ≤ memfsMax)
    (fun s c => (fsStep_effect s c).length.2) ?_ cs
  exact (MemSteps.grows (usersInitFiles_steps (delSyncFromStore ⟨[], [], store⟩))).bounded (Nat.zero_le _)

/-- The run lemma: a full table stays full until the machine is rebooted, whatever is removed. -/
lemma full_exec (cs : List Cmd) (s : Sys) (hcs : ∀ c ∈ cs, c.isReboot = false)
    (hfull : memfsMax ≤ s.fs.memfs.length) : memfsMax ≤ (Machine.exec fsStep s cs).fs.memfs.length := by
  induction cs generalizing s with
  | nil => exact hfull
  | cons c cs ih =>
    rw [forall_mem_cons] at hcs
    exact ih _ hcs.2 (Nat.le_trans hfull ((fsStep_effect s c).length.1 hcs.1))

lemma memfsCreate_eq_none_iff : (memfsCreate fs p).1 = none ↔ memfsFind fs p = none ∧ memfsMax ≤ fs.memfs.length := by
  unfold memfsCreate
  split
  · rename_i hfind
    simp [hfind]
  · rename_i hnone
    by_cases hfull : memfsMax ≤ fs.memfs.length
    · simp [hnone, hfull]
    · simp [hfull]

/-- **When a refusal means that the table is live throughout.** `memfs_create` refuses `p` only if
64 entries are live, exactly when it finds `p`, or there is a slot never used, or no slot has been
given up. From a full table on, every path that is not found is refused, until the next reboot. -/
theorem memfsCreate_refuses_only_when_live_iff {s : Sys} (hs : Reachable s) (p : CStr) :
    (((memfsCreate s.fs p).1 = none → liveSlots s.fs = memfsMax) ↔
      memfsFind s.fs p ≠ none ∨ s.fs.memfs.length < memfsMax ∨ ∀ m ∈ s.fs.memfs, MemFile.live s.fs m = true) ∧
    (s.fs.memfs.length = memfsMax → ∀ cs : List Cmd, (∀ c ∈ cs, c.isReboot = false) → ∀ q,
      memfsFind (Machine.exec fsStep s cs).fs q = none → (memfsCreate (Machine.exec fsStep s cs).fs q).1 = none) := by
  have hle := hs.memfs_length_le
  constructor
  · rw [memfsCreate_eq_none_iff]
    constructor
    · intro h
      by_cases hfind : memfsFind s.fs p = none
      · rcases Nat.lt_or_ge s.fs.memfs.length memfsMax with hlt | hfull
        · exact Or.inr (Or.inl hlt)
        · refine Or.inr (Or.inr (countP_eq_length.mp ?_))
          exact (h ⟨hfind, hfull⟩).trans (Nat.le_antisymm hfull hle)
      · exact Or.inl hfind
    · rintro h ⟨hnone, hfull⟩
      rcases h with hfind | hlt | hlive
      · exact absurd hnone hfind
      · exact absurd hfull (Nat.not_le_of_lt hlt)
      · exact (countP_eq_length.mpr hlive).trans (Nat.le_antisymm hle hfull)
  · intro hfull cs hcs q hnone
    exact memfsCreate_eq_none_iff.mpr ⟨hnone, full_exec cs s hcs (Nat.le_of_eq hfull.symm)⟩

/-- A session that makes `n` files, each with a letter for its name. -/
def makeFiles (n : Nat) : List Cmd :=
  (range n).map (fun i => Cmd.touch (cstr "/") [slash, chr (Char.ofNat (65 + i))])

/-- Three files of the start and 61 more are 64 live entries: the next path is refused. -/
theorem memfsCreate_refuses_only_when_live_full :
    let s := Machine.exec fsStep (boot zeroStore) (makeFiles 61)
    (memfsCreate s.fs (cstr "/pig")).1 = none ∧ liveSlots s.fs = memfsMax := by
  intro s
  have hrun : (memfsCreate s.fs (cstr "/pig")).1 = none ∧ ∀ m ∈ s.fs.memfs, MemFile.live s.fs m = true := by
    decide +kernel
  have hs : Reachable s := ⟨zeroStore, makeFiles 61, by decide, rfl⟩
  exact ⟨hrun.1, (memfsCreate_refuses_only_when_live_iff hs (cstr "/pig")).1.mpr (.inr (.inr hrun.2)) hrun.1⟩

/-- A session that makes one file and removes it, `n` times over. -/
def makeAndRemove (n : Nat) : List Cmd :=
  (replicate n [Cmd.touch (cstr "/") (cstr "/a"), Cmd.rm (cstr "/") (cstr "/a")]).flatten

/-- After 61 files were made and removed again, three entries are live and no file can be made. -/
theorem memfsCreate_refuses_after_removals :
    let s := Machine.exec fsStep (boot zeroStore) (makeAndRemove 61)
    Reachable s ∧ liveSlots s.fs = 3 ∧ (memfsCreate s.fs (cstr "/a")).1 = none := by
  refine ⟨⟨zeroStore, _, by decide, rfl⟩, ?_⟩
  decide +kernel

end PigOS.Shell
