import PigOS.Shell.Correctness.Memfs

/-!
# `Shell.Correctness.Directories` — what removing a directory leaves behind

Nothing links a directory to what lies below it but the text of the paths. `rm -r` and `rmdir`
remove the one entry they are given (`removal_frame`), so that a removed directory leaves orphans
exactly when it was not empty.
-/

namespace PigOS.Shell

open Kernel List

variable {fs : Pigfs} {d q : CStr}

/-! ## Below a directory -/

/-- A path with the separator after which the names of its entries begin. -/
def asDir (d : CStr) : CStr := if d.getLast? = some slash then d else d ++ [slash]

/-- `q` continues the path `e`, which ends with a separator. -/
def StrictlyBelow (e q : CStr) : Prop := e <+: q ∧ q ≠ e

instance (e q : CStr) : Decidable (StrictlyBelow e q) := inferInstanceAs (Decidable (_ ∧ _))

/-- Neither table shows anything below `e`. -/
def EmptyBelow (fs : Pigfs) (e : CStr) : Prop :=
  ∀ q, StrictlyBelow e q → memfsFind fs q = none ∧ fsFindVnode fs q = none

lemma emptyBelow_iff (fs : Pigfs) (e : CStr) : EmptyBelow fs e ↔
      (∀ m ∈ fs.memfs, m.used ≠ 0 → fsIsDeleted fs m.cpath = false → ¬ StrictlyBelow e m.cpath) ∧
      ∀ v ∈ vfs, fsIsDeleted fs v.path = false → ¬ StrictlyBelow e v.path := by
  constructor
  · intro h
    refine ⟨fun m hm hu hd hbelow => ?_, fun v hv hd hbelow => ?_⟩
    · obtain ⟨j, hj⟩ := getElem?_of_mem hm
      rcases memfsFind_eq_none_iff.mp (h _ hbelow).1 with hdel | hnone
      · exact absurd hdel (by rw [hd]; exact Bool.false_ne_true)
      · exact hnone j m hj hu rfl
    · have hfound : fsFindVnode fs v.path ≠ none :=
        fsFindVnode_ne_none_iff.mpr ⟨hd, mem_map_of_mem hv⟩
      exact hfound (h _ hbelow).2
  · rintro ⟨hmem, hvfs⟩ q hbelow
    refine ⟨?_, ?_⟩
    · rw [memfsFind_eq_none_iff]
      by_cases hd : fsIsDeleted fs q = true
      · exact Or.inl hd
      · refine Or.inr (fun j m hj hu hq => ?_)
        subst hq
        exact hmem m (mem_of_getElem? hj) hu (Bool.eq_false_iff.mpr hd) hbelow
    · by_contra hfound
      obtain ⟨hd, hmem'⟩ := fsFindVnode_ne_none_iff.mp hfound
      obtain ⟨v, hv, rfl⟩ := mem_map.mp hmem'
      exact hvfs v hv hd hbelow

instance (fs : Pigfs) (e : CStr) : Decidable (EmptyBelow fs e) := decidable_of_iff _ (emptyBelow_iff fs e).symm

/-! ## The frame of a removal -/

/-- Freeing the slot found at `d` does not change what is found elsewhere. -/
lemma memfsFind_freed_iff {i : Nat} {f : MemFile → MemFile}
    (hfree : ∀ m, (f m).used = 0) (hi : memfsFind fs d = some i) (hne : q ≠ d) :
    memfsFind (fs.modifyFile i f) q = none ↔ memfsFind fs q = none := by
  obtain ⟨-, ⟨n, hn, -, hnd⟩, -⟩ := memfsFind_eq_some_iff.mp hi
  rw [memfsFind_eq_none_iff, memfsFind_eq_none_iff, (sameDeletions_modifyFile fs i f).fsIsDeleted]
  refine or_congr_right ⟨fun h j m hm hu hq => ?_, fun h j m' hm' hu hq => ?_⟩
  · by_cases hij : i = j
    · subst hij
      rw [hn, Option.some.injEq] at hm
      exact hne (hq.symm.trans (hm ▸ hnd))
    · exact h j m (modifyFile_getElem?.mpr ⟨m, hm, if_neg hij⟩) hu hq
  · obtain ⟨m, hm, rfl⟩ := modifyFile_getElem?.mp hm'
    by_cases hij : i = j
    · rw [if_pos hij] at hu
      exact hu (hfree m)
    · rw [if_neg hij] at hu hq
      exact h j m hm hu hq

lemma DelInv.fsIsDeleted_marked (hinv : DelInv fs) (hd : d ∈ deletable)
    (hnew : d ∉ fs.deleted) (hne : q ≠ d) : fsIsDeleted (fsMarkDeleted fs d) q = fsIsDeleted fs q := by
  rw [Bool.eq_iff_iff, (hinv.fsMarkDeleted hd hnew).fsIsDeleted_iff, hinv.fsMarkDeleted_deleted,
    hinv.fsIsDeleted_iff, mem_append, mem_singleton]
  exact or_iff_left hne

/-- **The frame of a removal** of `d`: everything that is found at other paths. -/
theorem removal_frame {s : Sys} (hs : Reachable s) {c : Cmd} (h : (fsStep s c).1.removed = some d) (hne : q ≠ d) :
    (memfsFind (fsStep s c).2.fs q = none ↔ memfsFind s.fs q = none) ∧
      fsFindVnode (fsStep s c).2.fs q = fsFindVnode s.fs q := by
  have heff := fsStep_effect s c
  generalize (fsStep s c).2.fs = fs' at heff ⊢
  generalize (fsStep s c).1 = r at heff h
  have hinv := hs.delInv
  cases heff with
  | files _ hr =>
    rw [hr] at h
    exact absurd h (by simp)
  | rmFile hi =>
    cases h
    exact ⟨memfsFind_freed_iff (fun _ => rfl) hi hne, (sameDeletions_modifyFile _ _ _).fsFindVnode q⟩
  | rmdir hi =>
    cases h
    exact ⟨memfsFind_freed_iff (fun _ => rfl) hi hne, (sameDeletions_modifyFile _ _ _).fsFindVnode q⟩
  | rmNode hnone hv hcrit =>
    cases h
    obtain ⟨hlive, hmem⟩ := fsFindVnode_ne_none_iff.mp hv
    have hdel := DelInv.fsIsDeleted_marked hinv (mem_deletable.mpr ⟨hmem, hcrit⟩)
      (hinv.not_mem_of_not_deleted hlive) hne
    refine ⟨?_, ?_⟩
    · rw [memfsFind_eq_none_iff, memfsFind_eq_none_iff, hdel, fsMarkDeleted_memfs]
    · unfold fsFindVnode
      rw [hdel]
  | log => exact absurd h (by simp [Report.removed])
  | reboot => exact absurd h (by simp [Report.removed])

/-- **When a removed directory leaves no orphans.** Nothing is found below `d` afterwards exactly
when nothing was found there before: under names that follow `d` and a slash, and that follow `d` if
it ends with a slash itself. -/
theorem removal_leaves_no_orphans_iff {s : Sys} (hs : Reachable s) {c : Cmd} {d : CStr}
    (h : (fsStep s c).1.removed = some d) {e : CStr} (he : e = d ++ [slash] ∨ e = asDir d) :
    EmptyBelow (fsStep s c).2.fs e ↔ EmptyBelow s.fs e := by
  have hpre : d <+: e := by
    rcases he with rfl | rfl
    · exact prefix_append d [slash]
    · unfold asDir
      split
      · exact prefix_refl d
      · exact prefix_append d [slash]
  have hother : ∀ q, StrictlyBelow e q → q ≠ d := by
    rintro q ⟨hq, hne⟩ rfl
    exact hne (List.IsPrefix.eq_of_length hpre (Nat.le_antisymm hpre.length_le hq.length_le))
  unfold EmptyBelow
  refine forall_congr' (fun q => forall_congr' (fun hq => ?_))
  obtain ⟨hmem, hvnode⟩ := removal_frame hs h (hother q hq)
  rw [hmem, hvnode]

/-- The session that makes a directory. -/
def makeSty : List Cmd := [.mkdir (cstr "/") (cstr "/sty")]

/-- An empty directory is removed without a trace. -/
theorem rmdir_empty_sty :
    let s := Machine.exec fsStep (boot zeroStore) makeSty
    (fsStep s (.rmdir (cstr "/") (cstr "/sty"))).1.removed = some (cstr "/sty") ∧
    EmptyBelow (fsStep s (.rmdir (cstr "/") (cstr "/sty"))).2.fs (cstr "/sty/") := by
  intro s
  have hs : Reachable s := ⟨zeroStore, makeSty, by decide, rfl⟩
  have hrem : (fsStep s (.rmdir (cstr "/") (cstr "/sty"))).1.removed = some (cstr "/sty") := by decide +kernel
  refine ⟨hrem, (removal_leaves_no_orphans_iff hs hrem (Or.inl (by decide))).mpr ?_⟩
  decide +kernel

/-- A file in a removed directory is still found; so is what lies below a read-only one. -/
theorem rmdir_orphans_hay :
    let s := Machine.exec fsStep (boot zeroStore) (makeSty ++ [.touch (cstr "/sty") (cstr "hay")])
    let rmdir := fsStep s (.rmdir (cstr "/") (cstr "/sty"))
    let rm := fsStep s (.rm (cstr "/") (cstr "-r /usr"))
    Reachable s ∧ rmdir.1 = .rmdir (.removed (cstr "/sty")) ∧
    memfsFind rmdir.2.fs (cstr "/sty/hay") = some 4 ∧
    rm.1 = .rm (.removed (cstr "/usr")) ∧ fsFindVnode rm.2.fs (cstr "/usr/bin") = some ⟨cstr "/usr/bin", true⟩ := by
  refine ⟨⟨zeroStore, _, by decide, rfl⟩, ?_⟩
  decide +kernel

end PigOS.Shell
