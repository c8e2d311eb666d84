import Mathlib.Data.List.Nodup
import Mathlib.Data.List.Perm.Subperm
import PigOS.Kernel.Users

/-!
# `Kernel.Correctness.Pigfs` — what the file-system operations do to the two tables

* **Lookup.** `memfsFind` returns the first live slot of a path; `fsIsDeleted` depends on the
  deletion tables only.
* **Memory steps.** A command that removes nothing is a sequence of fillings of a new slot and
  rewritings of a slot in place (`MemStep`).
* **Deletion.** `DelInv` ties mirror, store and read-only table together.
-/

namespace PigOS.Kernel

open Relation List

variable {fs fs' : Pigfs} {p : CStr} {i : Nat} {m : MemFile} {f : MemFile → MemFile}

/-! ## The read-only table -/

lemma forall_vfs {P : CStr → Prop} (hdirs : ∀ s ∈ vfsDirs, P (cstr s)) (hfiles : ∀ s ∈ vfsFiles, P (cstr s)) :
    ∀ n ∈ vfs, P n.path := by
  intro n hn
  rcases mem_append.mp hn with hn | hn
  · obtain ⟨s, hs, rfl⟩ := mem_map.mp hn
    exact hdirs s hs
  · obtain ⟨s, hs, rfl⟩ := mem_map.mp hn
    exact hfiles s hs

/-! ## Lookup -/

lemma memfsFind_eq_some_iff : memfsFind fs p = some i ↔
      fsIsDeleted fs p = false ∧ (∃ m, fs.memfs[i]? = some m ∧ m.used ≠ 0 ∧ m.cpath = p) ∧
      ∀ j < i, ∀ m, fs.memfs[j]? = some m → m.used ≠ 0 → m.cpath ≠ p := by
  unfold memfsFind
  rw [findIdx?_eq_some_iff_getElem]
  simp only [Bool.and_eq_true, decide_eq_true_eq, ksc_eq_zero, Bool.not_eq_true']
  constructor
  · rintro ⟨hi, ⟨⟨hu, hp⟩, hd⟩, hfirst⟩
    rw [hp] at hd
    refine ⟨hd, ⟨fs.memfs[i], getElem?_eq_getElem hi, hu, hp⟩, ?_⟩
    intro j hj m hm hmu hmp
    have hlt : j < fs.memfs.length := Nat.lt_trans hj hi
    rw [getElem?_eq_getElem hlt] at hm
    have hm' : fs.memfs[j] = m := Option.some.inj hm
    refine hfirst j hj ⟨⟨?_, ?_⟩, ?_⟩
    · rw [hm']; exact hmu
    · rw [hm']; exact hmp
    · rw [hm', hmp]; exact hd
  · rintro ⟨hd, ⟨m, hm, hu, hp⟩, hfirst⟩
    obtain ⟨hi, hmi⟩ := List.getElem?_eq_some_iff.mp hm
    refine ⟨hi, ⟨⟨?_, ?_⟩, ?_⟩, ?_⟩
    · rw [hmi]; exact hu
    · rw [hmi]; exact hp
    · rw [hmi, hp]; exact hd
    · rintro j hj ⟨⟨hju, hjp⟩, -⟩
      exact hfirst j hj _ (getElem?_eq_getElem (Nat.lt_trans hj hi)) hju hjp

lemma memfsFind_eq_none_iff : memfsFind fs p = none ↔
      fsIsDeleted fs p = true ∨ ∀ (j : Nat) (m : MemFile), fs.memfs[j]? = some m → m.used ≠ 0 → m.cpath ≠ p := by
  unfold memfsFind
  rw [findIdx?_eq_none_iff]
  constructor
  · intro h
    by_cases hd : fsIsDeleted fs p = true
    · exact Or.inl hd
    · refine Or.inr (fun j m hm hu hp => ?_)
      have hmem : m ∈ fs.memfs := mem_of_getElem? hm
      have hfalse := h m hmem
      rw [Bool.not_eq_true] at hd
      simp only [hp, hd, ksc_eq_zero, decide_true, Bool.and_true, Bool.not_false] at hfalse
      exact hu (of_not_not (of_decide_eq_false hfalse))
  · intro h m hmem
    by_contra hc
    simp only [Bool.not_eq_false, Bool.and_eq_true, decide_eq_true_eq, ksc_eq_zero,
      Bool.not_eq_true'] at hc
    obtain ⟨⟨hu, hp⟩, hd⟩ := hc
    rcases h with hdel | hnone
    · rw [← hp, hd] at hdel
      exact absurd hdel (by simp)
    · obtain ⟨j, hj⟩ := getElem?_of_mem hmem
      exact hnone j m hj hu hp

/-- A slot whose path array has room for a terminator is found under that path. -/
lemma MemFile.cpath_of_lt (h : m.path.length < pathField) : m.cpath = m.path := by
  unfold MemFile.cpath
  rw [if_pos h]

/-- A slot whose path array is full is found under a string of at least that many bytes. -/
lemma MemFile.cpath_of_full (h : ¬ m.path.length < pathField) : m.cpath = m.path ++ m.content.val := by
  unfold MemFile.cpath
  rw [if_neg h]

lemma MemFile.path_length_of_cpath (h : m.cpath.length < pathField) : m.path.length < pathField := by
  by_contra hc
  rw [MemFile.cpath_of_full hc, length_append] at h
  omega

/-! ## Frames: operations that leave the deletion tables alone -/

/-- `fs'` has the deletion tables of `fs`. -/
structure SameDeletions (fs fs' : Pigfs) : Prop where
  deleted : fs'.deleted = fs.deleted
  store : fs'.store = fs.store

lemma SameDeletions.refl (fs : Pigfs) : SameDeletions fs fs := ⟨rfl, rfl⟩

lemma SameDeletions.trans {fs₁ fs₂ fs₃ : Pigfs} (h₁ : SameDeletions fs₁ fs₂)
    (h₂ : SameDeletions fs₂ fs₃) : SameDeletions fs₁ fs₃ :=
  ⟨h₂.deleted.trans h₁.deleted, h₂.store.trans h₁.store⟩

lemma SameDeletions.fsIsDeleted (h : SameDeletions fs fs') (p : CStr) : fsIsDeleted fs' p = fsIsDeleted fs p := by
  unfold Kernel.fsIsDeleted
  rw [h.deleted, h.store]

lemma SameDeletions.fsFindVnode (h : SameDeletions fs fs') (p : CStr) : fsFindVnode fs' p = fsFindVnode fs p := by
  unfold Kernel.fsFindVnode
  rw [h.fsIsDeleted]

lemma sameDeletions_modifyFile (fs : Pigfs) (i : Nat) (f : MemFile → MemFile) :
    SameDeletions fs (fs.modifyFile i f) := ⟨rfl, rfl⟩

lemma modifyFile_getElem? {j : Nat} {m' : MemFile} : (fs.modifyFile i f).memfs[j]? = some m' ↔
      ∃ m, fs.memfs[j]? = some m ∧ (if i = j then f m else m) = m' := by
  show (fs.memfs.modify i f)[j]? = some m' ↔ _
  rw [getElem?_modify]
  exact Option.map_eq_some_iff

/-! ## Memory steps -/

/-- A rewrite of a slot that neither moves it nor frees it. -/
structure KeepsSlot (f : MemFile → MemFile) : Prop where
  path : ∀ m, (f m).path = m.path
  used : ∀ m, (f m).used = m.used

lemma keepsSlot_write (c : Content) : KeepsSlot (MemFile.write c) := ⟨fun _ => rfl, fun _ => rfl⟩

lemma keepsSlot_mkDir : KeepsSlot MemFile.mkDir := ⟨fun _ => rfl, fun _ => rfl⟩

/-- The primitive steps of the commands that remove nothing. -/
inductive MemStep : Pigfs → Pigfs → Prop where
  | create {fs : Pigfs} {p : CStr} : memfsFind fs p = none → fs.memfs.length < memfsMax →
      MemStep fs { fs with memfs := fs.memfs ++ [MemFile.create p] }
  | rewrite {fs : Pigfs} {f : MemFile → MemFile} (i : Nat) : KeepsSlot f → MemStep fs (fs.modifyFile i f)

/-- A sequence of memory steps. -/
abbrev MemSteps : Pigfs → Pigfs → Prop := ReflTransGen MemStep

lemma MemStep.sameDeletions (h : MemStep fs fs') : SameDeletions fs fs' := by
  cases h with
  | create _ _ => exact ⟨rfl, rfl⟩
  | rewrite _ _ => exact ⟨rfl, rfl⟩

lemma MemSteps.sameDeletions (h : MemSteps fs fs') : SameDeletions fs fs' := by
  induction h with
  | refl => exact SameDeletions.refl fs
  | tail _ hstep ih => exact ih.trans hstep.sameDeletions

lemma memfsCreate_eq_some (h : memfsCreate fs p = (some i, fs')) : (memfsFind fs p = some i ∧ fs' = fs) ∨
    (memfsFind fs p = none ∧ fs.memfs.length < memfsMax ∧ i = fs.memfs.length ∧
      fs' = { fs with memfs := fs.memfs ++ [MemFile.create p] }) := by
  unfold memfsCreate at h
  split at h
  · rename_i j hj
    simp only [Prod.mk.injEq, Option.some.injEq] at h
    obtain ⟨rfl, rfl⟩ := h
    exact Or.inl ⟨hj, rfl⟩
  · rename_i hnone
    split at h
    · exact absurd (congrArg Prod.fst h) (by simp)
    · rename_i hlt
      simp only [Prod.mk.injEq, Option.some.injEq] at h
      obtain ⟨rfl, rfl⟩ := h
      exact Or.inr ⟨hnone, Nat.lt_of_not_le hlt, rfl, rfl⟩

lemma memfsCreate_steps (fs : Pigfs) (p : CStr) : MemSteps fs (memfsCreate fs p).2 := by
  unfold memfsCreate
  split
  · exact ReflTransGen.refl
  · rename_i hnone
    split
    · exact ReflTransGen.refl
    · rename_i hlt
      exact ReflTransGen.single (MemStep.create hnone (Nat.lt_of_not_le hlt))

lemma createWith_steps (fs : Pigfs) (p : CStr) (hf : KeepsSlot f) :
    MemSteps fs (createWith fs p f) := by
  have hc := memfsCreate_steps fs p
  unfold createWith
  split
  · rename_i i fs' heq
    rw [heq] at hc
    exact hc.tail (MemStep.rewrite i hf)
  · rename_i fs' heq
    rw [heq] at hc
    exact hc

lemma copySkel_steps (fs : Pigfs) (src dst : CStr) : MemSteps fs (copySkel fs src dst) := by
  unfold copySkel
  split
  · exact createWith_steps fs dst (keepsSlot_write _)
  · exact ReflTransGen.refl

lemma adduserFiles_steps (fs : Pigfs) (home : CStr) : MemSteps fs (adduserFiles fs home) := by
  unfold adduserFiles
  exact ((createWith_steps fs home keepsSlot_mkDir).trans (copySkel_steps _ _ _)).trans
    (copySkel_steps _ _ _)

lemma cmdAdduser_steps (db : UserDb) (fs : Pigfs) (n : UserName) : MemSteps fs (cmdAdduser db fs n).2.2 := by
  unfold cmdAdduser
  split
  · exact ReflTransGen.refl
  · split
    · exact ReflTransGen.refl
    · split
      · exact ReflTransGen.refl
      · exact adduserFiles_steps fs _

lemma usersInitFiles_steps (fs : Pigfs) : MemSteps fs (usersInitFiles fs) := by
  unfold usersInitFiles
  exact ((createWith_steps fs _ keepsSlot_mkDir).trans (createWith_steps _ _ (keepsSlot_write _))).trans
    (createWith_steps _ _ (keepsSlot_write _))

lemma fsTouch_steps (fs : Pigfs) (cwd arg : CStr) : MemSteps fs (fsTouch fs cwd arg).2 := by
  have hc := memfsCreate_steps fs (fsResolve cwd arg 256)
  unfold fsTouch
  split
  · exact ReflTransGen.refl
  · simp only
    split
    · exact ReflTransGen.refl
    · split
      · exact ReflTransGen.refl
      · split <;> rename_i heq <;> rw [heq] at hc <;> exact hc

/-! ## The critical paths -/

/-- `p` is a critical path or lies below one. The root entry protects the root alone. -/
def AtOrBelowCritical (p : CStr) : Prop :=
  p ∈ criticalPaths ∨ ∃ c ∈ criticalPaths, c ≠ [slash] ∧ c ++ [slash] <+: p

lemma criticalPaths_absolute : ∀ c ∈ criticalPaths, c.head? = some slash := by decide +kernel

lemma slash_mem_criticalPaths : [slash] ∈ criticalPaths := by decide +kernel

/-- The entry `c` together with the byte that follows it in `p`: a whole path component ends
there. -/
lemma isComponentPrefix_iff (p c : CStr) :
    (c <+: p ∧ (p[c.length]? = none ∨ p[c.length]? = some slash)) ↔ p = c ∨ c ++ [slash] <+: p := by
  constructor
  · rintro ⟨⟨t, rfl⟩, hend⟩
    rw [getElem?_append_right (Nat.le_refl _), Nat.sub_self] at hend
    cases t with
    | nil => exact Or.inl (append_nil c)
    | cons x t =>
      rcases hend with hnone | hslash
      · simp at hnone
      · rw [getElem?_cons_zero, Option.some.injEq] at hslash
        exact Or.inr ⟨t, by rw [hslash, append_assoc, singleton_append]⟩
  · rintro (rfl | ⟨t, rfl⟩)
    · exact ⟨prefix_refl p, Or.inl (getElem?_eq_none (Nat.le_refl _))⟩
    · refine ⟨⟨slash :: t, by rw [append_assoc, singleton_append]⟩, Or.inr ?_⟩
      rw [append_assoc, getElem?_append_right (Nat.le_refl _), Nat.sub_self]
      rfl

/-- The test of one entry of the table, as the loop of `is_critical_path` makes it. -/
lemma criticalEntry_iff (p c : CStr) :
    (!(decide (c.length = 1) && decide (c.head? = some slash)) && decide (ksnc p c c.length = 0) &&
      decide (p[c.length]? = none ∨ p[c.length]? = some slash)) = true ↔
    c ≠ [slash] ∧ (p = c ∨ c ++ [slash] <+: p) := by
  have hroot : (c.length = 1 ∧ c.head? = some slash) ↔ c = [slash] := by
    constructor
    · rintro ⟨hlen, hhead⟩
      obtain ⟨x, rfl⟩ := length_eq_one_iff.mp hlen
      simpa using hhead
    · rintro rfl
      exact ⟨rfl, rfl⟩
  rw [← isComponentPrefix_iff, ← ksnc_eq_zero]
  simp only [Bool.and_eq_true, Bool.not_eq_true', Bool.and_eq_false_iff, decide_eq_true_eq,
    decide_eq_false_iff_not, ← not_and_or, hroot, and_assoc, ne_eq]

/-- **`is_critical_path` is exact**: it accepts the entries of the table and what lies below
them. -/
theorem isCriticalPath_iff (p : CStr) : isCriticalPath p = true ↔ AtOrBelowCritical p := by
  unfold isCriticalPath AtOrBelowCritical
  by_cases hroot : p = [slash]
  · rw [if_pos hroot, hroot]
    exact ⟨fun _ => Or.inl slash_mem_criticalPaths, fun _ => rfl⟩
  rw [if_neg hroot]
  -- what matches an entry starts with a slash, as every entry does
  have hhead : ∀ c ∈ criticalPaths, (p = c ∨ c ++ [slash] <+: p) → p.head? = some slash := by
    rintro c hc (rfl | ⟨t, rfl⟩)
    · exact criticalPaths_absolute p hc
    · have hcs := criticalPaths_absolute c hc
      cases c with
      | nil => exact absurd hcs (by simp)
      | cons x c => simpa using hcs
  split
  · rename_i hne
    refine ⟨fun h => absurd h (by simp), ?_⟩
    rintro (hmem | ⟨c, hc, -, hpre⟩)
    · exact absurd (hhead p hmem (Or.inl rfl)) hne
    · exact absurd (hhead c hc (Or.inr hpre)) hne
  · rw [any_eq_true]
    simp only [criticalEntry_iff]
    constructor
    · rintro ⟨c, hc, hcr, rfl | hpre⟩
      · exact Or.inl hc
      · exact Or.inr ⟨c, hc, hcr, hpre⟩
    · rintro (hmem | ⟨c, hc, hcr, hpre⟩)
      · exact ⟨p, hmem, hroot, Or.inl rfl⟩
      · exact ⟨c, hc, hcr, Or.inr hpre⟩

/-! ## The deletion tables -/

/-- The paths of the read-only table that `rm` can tombstone. -/
def deletable : List CStr := (vfs.map (·.path)).filter (fun p => !isCriticalPath p)

lemma mem_deletable : p ∈ deletable ↔ p ∈ vfs.map (·.path) ∧ isCriticalPath p = false := by
  unfold deletable
  rw [mem_filter, Bool.not_eq_true']

lemma deletable_length : deletable.length < deletedMax := by decide +kernel

lemma fsFindVnode_eq_none_iff (fs : Pigfs) (p : CStr) :
    fsFindVnode fs p = none ↔ fsIsDeleted fs p = true ∨ p ∉ vfs.map (·.path) := by
  unfold fsFindVnode
  split
  · rename_i hd
    exact ⟨fun _ => Or.inl hd, fun _ => rfl⟩
  · rename_i hd
    rw [find?_eq_none]
    simp only [decide_eq_true_eq, ksc_eq_zero, mem_map, not_exists, not_and]
    exact ⟨fun h => Or.inr h, fun h => h.resolve_left hd⟩

lemma fsFindVnode_ne_none_iff : fsFindVnode fs p ≠ none ↔ fsIsDeleted fs p = false ∧ p ∈ vfs.map (·.path) := by
  rw [ne_eq, fsFindVnode_eq_none_iff, not_or, not_not, Bool.not_eq_true]

lemma fsMarkDeleted_memfs (fs : Pigfs) (p : CStr) : (fsMarkDeleted fs p).memfs = fs.memfs := by
  unfold fsMarkDeleted delSyncToStore
  split <;> rfl

/-- **The deletion invariant.** The store holds the mirror, and the mirror lists deletable paths,
each once. -/
structure DelInv (fs : Pigfs) : Prop where
  magic : fs.store.magic = delMagic
  count : fs.store.count = fs.deleted.length
  paths : ∀ i p, fs.deleted[i]? = some p → fs.store.paths i = p
  nodup : fs.deleted.Nodup
  deletable : ∀ p ∈ fs.deleted, p ∈ deletable

section Inv

variable (h : DelInv fs)

include h

lemma DelInv.congr (hs : SameDeletions fs fs') : DelInv fs' := by
  obtain ⟨hdel, hstore⟩ := hs
  refine ⟨?_, ?_, ?_, ?_, ?_⟩
  · rw [hstore]; exact h.magic
  · rw [hstore, hdel]; exact h.count
  · rw [hstore, hdel]; exact h.paths
  · rw [hdel]; exact h.nodup
  · rw [hdel]; exact h.deletable

lemma DelInv.length_lt : fs.deleted.length < deletedMax :=
  Nat.lt_of_le_of_lt (subperm_of_subset h.nodup h.deletable).length_le deletable_length

lemma DelInv.range_paths : (range fs.deleted.length).map fs.store.paths = fs.deleted := by
  apply ext_getElem?
  intro i
  rw [getElem?_map]
  by_cases hi : i < fs.deleted.length
  · have hget := getElem?_eq_getElem hi
    rw [getElem?_range hi, Option.map_some, h.paths i _ hget, hget]
  · rw [getElem?_eq_none (by simpa using hi), getElem?_eq_none (by simpa using hi)]
    rfl

/-- **The mirror and the store agree.** -/
theorem DelInv.entries_eq : fs.store.entries = fs.deleted := by
  unfold DelStore.entries
  rw [h.count, Nat.min_eq_left (Nat.le_of_lt h.length_lt)]
  exact h.range_paths

lemma DelInv.delStoreInit_eq : delStoreInit fs.store = fs.store := by
  unfold delStoreInit
  rw [if_neg (not_not_intro h.magic)]

lemma DelInv.fsIsDeleted_iff (p : CStr) : fsIsDeleted fs p = true ↔ p ∈ fs.deleted := by
  unfold Kernel.fsIsDeleted
  rw [h.delStoreInit_eq, h.entries_eq, Bool.or_self, any_eq_true]
  simp only [ksc_eq_zero, decide_eq_true_eq]
  constructor
  · rintro ⟨q, hq, rfl⟩
    exact hq
  · exact fun hp => ⟨p, hp, rfl⟩

lemma DelInv.not_mem_of_not_deleted (hp : fsIsDeleted fs p = false) : p ∉ fs.deleted := by
  rw [← h.fsIsDeleted_iff, hp]
  exact Bool.false_ne_true

/-- Under the invariant a tombstone is never dropped: it goes to the end of the mirror. -/
lemma DelInv.fsMarkDeleted_deleted (p : CStr) : (fsMarkDeleted fs p).deleted = fs.deleted ++ [p] := by
  unfold fsMarkDeleted delSyncToStore
  rw [if_pos h.length_lt]

lemma DelInv.fsMarkDeleted (hp : p ∈ Kernel.deletable) (hnew : p ∉ fs.deleted) : DelInv (fsMarkDeleted fs p) := by
  have hdel := h.fsMarkDeleted_deleted p
  have hstore : (Kernel.fsMarkDeleted fs p).store = { fs.store with
      count := (fs.deleted ++ [p]).length
      paths := fun i => ((fs.deleted ++ [p])[i]?).getD (fs.store.paths i) } := by
    unfold Kernel.fsMarkDeleted delSyncToStore
    rw [if_pos h.length_lt]
    simp only [h.delStoreInit_eq]
  refine ⟨?_, ?_, ?_, ?_, ?_⟩
  · rw [hstore]; exact h.magic
  · rw [hstore, hdel]
  · intro i q hq
    rw [hdel] at hq
    rw [hstore]
    show ((fs.deleted ++ [p])[i]?).getD (fs.store.paths i) = q
    rw [hq, Option.getD_some]
  · rw [hdel, nodup_append]
    refine ⟨h.nodup, nodup_singleton p, ?_⟩
    intro a ha b hb hab
    rw [mem_singleton.mp hb] at hab
    exact hnew (hab ▸ ha)
  · intro q hq
    rw [hdel, mem_append, mem_singleton] at hq
    rcases hq with hq | rfl
    · exact h.deletable q hq
    · exact hp

end Inv

lemma delInv_of_fresh_store {store : DelStore} (h : store.magic ≠ delMagic) (memfs : List MemFile) :
    DelInv (delSyncFromStore ⟨memfs, [], store⟩) ∧
      (delSyncFromStore ⟨memfs, [], store⟩).deleted = [] := by
  have hinit : delStoreInit store = ⟨delMagic, 0, fun _ => []⟩ := by
    unfold delStoreInit
    rw [if_pos h]
  have hdel : (delSyncFromStore ⟨memfs, [], store⟩).deleted = [] := by
    simp [delSyncFromStore, hinit]
  have hstore : (delSyncFromStore ⟨memfs, [], store⟩).store = ⟨delMagic, 0, fun _ => []⟩ := hinit
  refine ⟨⟨?_, ?_, ?_, ?_, ?_⟩, hdel⟩
  · rw [hstore]
  · rw [hstore, hdel]; rfl
  · intro i p hp
    rw [hdel] at hp
    exact absurd hp (by simp)
  · rw [hdel]; exact nodup_nil
  · rw [hdel]; simp

/-- **A soft reboot brings the mirror back**: it is read from the store the last run left. -/
theorem DelInv.reboot (h : DelInv fs) (memfs : List MemFile) :
    SameDeletions fs (delSyncFromStore ⟨memfs, [], fs.store⟩) := by
  have hlt := h.length_lt
  have hsmall : fs.deleted.length < 2 ^ 31 := Nat.lt_trans hlt (by decide)
  refine ⟨?_, ?_⟩
  · simp only [delSyncFromStore, h.delStoreInit_eq, h.count, if_pos hsmall,
      Nat.min_eq_left (Nat.le_of_lt hlt)]
    exact h.range_paths
  · exact h.delStoreInit_eq

end PigOS.Kernel
