import PigOS.Kernel.Correctness.Resolve
import PigOS.Kernel.Correctness.UserDb
import PigOS.Shell.Correctness.Deletions
import PigOS.Shell.Navigation

/-!
# `Shell.Correctness.Navigation` — where `cd` goes

Home directories are stored with a slash behind their path. `cd` looks for both spellings and stores
the one it has found (`DirPath`).

* **One `cd`** goes to the directory that its argument leads to, if there is one; otherwise a
  relative argument is tried once more from the root, in the read-only table only (`CdLaw`).
* **A session** keeps the form of `sh_cwd`, as long as user names are components and the arguments
  of `cd` are resolved as walks (`Orderly`). It also keeps `sh_cwd` short (`Bounded`).

From a directory with a slash at its end `..` only takes the slash off, and `cd` finds the directory
it came from again.
-/

namespace PigOS.Shell

open Kernel Components List

variable {p cwd a : CStr} {fs : Pigfs} {r : CdReport}
variable {d : List Name} {m : MemFile} {f : MemFile → MemFile} {fs' : Pigfs} {s : NavState} {cwd' : CStr} {n : VNode}

/-! ## Directories and their spellings -/

/-- There is a directory under the path `p`. -/
def IsDir (fs : Pigfs) (p : CStr) : Prop := memfsDir fs p = true ∨ (fsFindVnode fs p).any (·.isDir) = true

/-- `p` is a path of the directory `d`: the canonical one, or that with a slash behind it. -/
def Spells (d : List Name) (p : CStr) : Prop := p = render d ∨ d ≠ [] ∧ p = render d ++ [slash]

/-- The directory `d` exists. -/
def DirExists (fs : Pigfs) (d : List Name) : Prop := ∃ p, Spells d p ∧ IsDir fs p

/-- A canonical path, but for a slash at its end. -/
def DirPath (p : CStr) : Prop := ∃ d, Spells d p

lemma Spells.walk (h : Spells d p) : walk [] p = d := by
  rcases h with rfl | ⟨-, rfl⟩
  · exact walk_render d
  · rw [walk_append_slash, walk_nil, walk_render]

lemma lacksSlash_render (d : List Name) : LacksSlash (render d) ↔ d ≠ [] := by
  constructor
  · rintro h rfl
    exact absurd h (by decide)
  · intro hd
    refine ⟨?_, render_getLast? hd⟩
    obtain ⟨d, n, rfl⟩ := (eq_nil_or_concat d).resolve_left hd
    have hpos : 0 < n.val.length := length_pos_iff.mpr n.property.1
    rw [concat_eq_append, render_concat, length_append, length_cons]
    omega

/-! ## The read-only table -/

lemma mem_vfs_of_fsFindVnode (h : fsFindVnode fs p = some n) : n ∈ vfs ∧ n.path = p := by
  unfold fsFindVnode at h
  split at h
  · exact absurd h (by simp)
  · refine ⟨mem_of_find?_eq_some h, ?_⟩
    have hpath := find?_some h
    rwa [decide_eq_true_eq, ksc_eq_zero] at hpath

lemma vfs_canonical : ∀ n ∈ vfs, render (walk [] n.path) = n.path ∧ n.path.length ≤ 128 := by
  refine forall_vfs (P := fun p => render (walk [] p) = p ∧ p.length ≤ 128) ?_ ?_
  · unfold vfsDirs
    repeat refine forall_cstr_cons (P := fun p => render (walk [] p) = p ∧ p.length ≤ 128) (by decide +kernel) ?_
    exact forall_mem_nil _
  · unfold vfsFiles
    repeat refine forall_cstr_cons (P := fun p => render (walk [] p) = p ∧ p.length ≤ 128) (by decide +kernel) ?_
    exact forall_mem_nil _

lemma fsFindVnode_render_slash (fs : Pigfs) (hd : d ≠ []) : fsFindVnode fs (render d ++ [slash]) = none := by
  cases hfind : fsFindVnode fs (render d ++ [slash]) with
  | none => rfl
  | some n =>
    exfalso
    obtain ⟨hmem, hpath⟩ := mem_vfs_of_fsFindVnode hfind
    have hwalk : walk [] (render d ++ [slash]) = d := Spells.walk (.inr ⟨hd, rfl⟩)
    have hcanon := (vfs_canonical n hmem).1
    rw [hpath, hwalk] at hcanon
    exact absurd hcanon.symm (by simp)

/-! ## One `cd` -/

/-- Where an argument leads from a working directory. -/
def cdTarget (cwd a : CStr) : List Name := if a.head? = some slash then walk [] a else walk (walk [] cwd) a

/-- A relative argument that leads nowhere is looked up from the root, in the read-only table. -/
def Fallback (fs : Pigfs) (cwd a : CStr) : Prop :=
  a.head? ≠ some slash ∧ fsFindVnode fs (render (cdTarget cwd a)) = none ∧
    (fsFindVnode fs (cdAbs a)).any (·.isDir) = true

/-- What `cd a` does, from the working directory `cwd` to `cwd'`. -/
structure CdLaw (fs : Pigfs) (cwd a : CStr) (r : CdReport) (cwd' : CStr) : Prop where
  /-- without an argument, and for `~`, it goes to the root -/
  home : a = [] ∨ a = cstr "~" → r = .entered (cstr "/") ∧ cwd' = cstr "/"
  /-- it goes to the directory that the argument leads to, if that exists -/
  found : a ≠ [] → a ≠ cstr "~" → DirExists fs (cdTarget cwd a) →
    r = .entered cwd' ∧ Spells (cdTarget cwd a) cwd' ∧ IsDir fs cwd'
  retry : a ≠ [] → a ≠ cstr "~" → ¬ DirExists fs (cdTarget cwd a) → Fallback fs cwd a →
    r = .entered cwd' ∧ cwd' = cdAbs a
  /-- otherwise it stays and prints an error -/
  error : a ≠ [] → a ≠ cstr "~" → ¬ DirExists fs (cdTarget cwd a) → ¬ Fallback fs cwd a →
    (r = .noSuchFile a ∨ r = .notDirectory a) ∧ cwd' = cwd

/-- `cd` with an argument that is resolved to the canonical path of where it leads. -/
lemma fsCd_law (fs : Pigfs) (hne : a ≠ []) (htilde : a ≠ cstr "~") (hlen : a.length ≤ 254)
    (hpath : fsResolve cwd a 256 = render (cdTarget cwd a)) (hshort : (render (cdTarget cwd a)).length ≤ 254) :
    (DirExists fs (cdTarget cwd a) →
      ∃ p, fsCd fs cwd a = .entered p ∧ Spells (cdTarget cwd a) p ∧ IsDir fs p) ∧
    (¬ DirExists fs (cdTarget cwd a) → Fallback fs cwd a → fsCd fs cwd a = .entered (cdAbs a)) ∧
    (¬ DirExists fs (cdTarget cwd a) → ¬ Fallback fs cwd a →
      fsCd fs cwd a = .noSuchFile a ∨ fsCd fs cwd a = .notDirectory a) := by
  unfold Fallback fsCd
  rw [if_neg hne, if_neg (fun h => htilde (ksc_eq_zero.mp h))]
  simp only [hpath]
  generalize cdTarget cwd a = d at hshort
  by_cases hmem : memfsDir fs (render d) = true
  · have hdir : DirExists fs d := ⟨_, .inl rfl, .inl hmem⟩
    rw [if_pos hmem]
    exact ⟨fun _ => ⟨_, rfl, .inl rfl, .inl hmem⟩, fun h => absurd hdir h, fun h => absurd hdir h⟩
  rw [if_neg hmem, if_neg (fun h => absurd h.2 (by omega))]
  simp only [lacksSlash_render]
  by_cases hslash : d ≠ [] ∧ memfsDir fs (render d ++ [slash]) = true
  · have hdir : DirExists fs d := ⟨_, .inr ⟨hslash.1, rfl⟩, .inl hslash.2⟩
    rw [if_pos hslash]
    exact ⟨fun _ => ⟨_, rfl, .inr ⟨hslash.1, rfl⟩, .inl hslash.2⟩, fun h => absurd hdir h, fun h => absurd hdir h⟩
  rw [if_neg hslash]
  -- what is left of the two spellings is the canonical one in the read-only table
  have hdir : DirExists fs d ↔ (fsFindVnode fs (render d)).any (·.isDir) = true := by
    constructor
    · rintro ⟨p, rfl | ⟨hd, rfl⟩, hin | hin⟩
      · exact absurd hin hmem
      · exact hin
      · exact absurd ⟨hd, hin⟩ hslash
      · rw [fsFindVnode_render_slash fs hd] at hin
        exact absurd hin Bool.false_ne_true
    · exact fun h => ⟨_, .inl rfl, .inr h⟩
  rw [hdir]
  cases hnode : fsFindVnode fs (render d) with
  | some n =>
    rw [Option.any_some]
    simp only
    by_cases hisDir : n.isDir = true
    · have hIsDir : IsDir fs (render d) := .inr (by rw [hnode, Option.any_some, hisDir])
      rw [if_pos hisDir]
      exact ⟨fun _ => ⟨_, rfl, .inl rfl, hIsDir⟩, fun h => absurd hisDir h, fun h => absurd hisDir h⟩
    · rw [if_neg hisDir]
      exact ⟨fun h => absurd h hisDir, fun _ h => absurd h.2.1 (by simp), fun _ _ => .inr rfl⟩
  | none =>
    have htry : fsFindVnode fs (if d ≠ [] then render d ++ [slash] else render d) = none := by
      by_cases hd : d ≠ []
      · rw [if_pos hd, fsFindVnode_render_slash fs hd]
      · rw [if_neg hd, hnode]
    simp only [htry, Option.any_none]
    refine ⟨fun h => absurd h Bool.false_ne_true, fun _ hfall => ?_, fun _ hfall => .inl ?_⟩
    · rw [if_neg hfall.1, if_neg (by omega), if_pos hfall.2.2]
    · by_cases habs : a.head? = some slash
      · rw [if_pos habs]
      · have hno : ¬ (fsFindVnode fs (cdAbs a)).any (·.isDir) = true := fun h => hfall ⟨habs, trivial, h⟩
        rw [if_neg habs, if_neg (by omega), if_neg hno]

/-- The arguments that are resolved as a walk: they fit the buffers, an absolute one is plain, and a
relative one does not go up from a directory with a slash at its end. -/
structure CleanArg (cwd a : CStr) : Prop where
  short : a.length ≤ 254
  absolute : a.head? = some slash → NoDots a ∧ (EndsDouble a → ∀ b ∈ a, b = slash)
  relative : a.head? ≠ some slash → Fits (walk [] cwd) a ∧ (¬ Canonical cwd → ¬ StartsUp a)

lemma CleanArg.resolve (hcwd : DirPath cwd) (h : CleanArg cwd a) (htilde : a ≠ cstr "~") :
    fsResolve cwd a 256 = render (cdTarget cwd a) ∧ (render (cdTarget cwd a)).length ≤ 254 := by
  have hlen := h.short
  unfold cdTarget
  by_cases habs : a.head? = some slash
  · have heq := (fsResolve_absolute_iff cwd habs (by omega)).mpr (h.absolute habs)
    obtain ⟨p, rfl⟩ : ∃ p, a = slash :: p := head?_eq_some_iff.mp habs
    rw [if_pos habs, ← heq]
    refine ⟨rfl, ?_⟩
    rw [fsResolve_absolute_eq cwd (by omega)]
    exact Nat.le_trans (length_pathNormalize_le _) hlen
  · obtain ⟨hfits, hup⟩ := h.relative habs
    rw [if_neg habs]
    refine ⟨?_, Nat.le_trans hfits.walk_length (by decide)⟩
    obtain ⟨d, hd⟩ := hcwd
    rw [hd.walk] at hfits ⊢
    rcases hd with rfl | ⟨hne, rfl⟩
    · exact fsResolve_relative_eq habs htilde hfits
    · refine fsResolve_trailing hne habs htilde hfits (hup (fun hcanon => ?_))
      have hwalk : walk [] (render d ++ [slash]) = d := Spells.walk (.inr ⟨hne, rfl⟩)
      have heq := hcanon.render_walk
      rw [hwalk] at heq
      exact absurd heq.symm (by simp)

/-- **Where one `cd` goes**, from a directory of the usual form and for an argument that is a
walk. -/
theorem cd_law (fs : Pigfs) (hcwd : DirPath cwd) (h : CleanArg cwd a) :
    CdLaw fs cwd a (fsCd fs cwd a) (cdCwd cwd (fsCd fs cwd a)) := by
  have hhome : a = [] ∨ a = cstr "~" → fsCd fs cwd a = .entered (cstr "/") := by
    unfold fsCd
    rintro (rfl | rfl)
    · exact if_pos rfl
    · rw [if_neg (by decide), if_pos (by decide)]
  refine ⟨fun ha => ?_, fun hne htilde hdir => ?_, fun hne htilde hdir hfall => ?_, fun hne htilde hdir hfall => ?_⟩
  · rw [hhome ha]
    exact ⟨rfl, rfl⟩
  all_goals
    obtain ⟨hpath, hshort⟩ := h.resolve hcwd htilde
    obtain ⟨hfound, hretry, herror⟩ := fsCd_law fs hne htilde h.short hpath hshort
  · obtain ⟨p, hp, hspells, hisDir⟩ := hfound hdir
    rw [hp]
    exact ⟨rfl, hspells, hisDir⟩
  · rw [hretry hdir hfall]
    exact ⟨rfl, rfl⟩
  · rcases herror hdir hfall with hr | hr
    · rw [hr]
      exact ⟨.inl rfl, rfl⟩
    · rw [hr]
      exact ⟨.inr rfl, rfl⟩

/-- What `cd a` can report, whatever the argument is. -/
inductive CdOutcome (fs : Pigfs) (a : CStr) : CdReport → Prop where
  | root : CdOutcome fs a (.entered (cstr "/"))
  | dir {p : CStr} : IsDir fs p → CdOutcome fs a (.entered p)
  | noSuchFile : CdOutcome fs a (.noSuchFile a)
  | notDirectory : CdOutcome fs a (.notDirectory a)
  | overflow : CdOutcome fs a .overflow

lemma isDir_of_vnode (hn : fsFindVnode fs p = some n) (hdir : n.isDir = true) : IsDir fs p := by
  refine .inr ?_
  rw [hn, Option.any_some, hdir]

lemma fsCd_outcome (fs : Pigfs) (cwd a : CStr) : CdOutcome fs a (fsCd fs cwd a) := by
  unfold fsCd
  split
  · exact .root
  split
  · exact .root
  simp only
  split
  · rename_i hdir
    exact .dir (.inl hdir)
  split
  · exact .overflow
  split
  · rename_i hdir
    exact .dir (.inl hdir.2)
  split
  · rename_i n hn
    split
    · rename_i hdir
      exact .dir (isDir_of_vnode hn hdir)
    · exact .notDirectory
  split
  · rename_i n hn
    split
    · rename_i hdir
      exact .dir (isDir_of_vnode hn hdir)
    · exact .notDirectory
  split
  · exact .noSuchFile
  split
  · exact .overflow
  split
  · rename_i hdir
    exact .dir (.inr hdir)
  · exact .noSuchFile

/-! ## Sessions: no path is long -/

/-- The longest path a slot can have: a full path array, and the text of a directory behind it. -/
def pathBound : Nat := pathField + 5

def ShortPaths (fs : Pigfs) : Prop := ∀ m ∈ fs.memfs, m.cpath.length ≤ pathBound

lemma length_cpath_of_lt (h : m.path.length < pathField) : m.cpath.length ≤ pathBound := by
  rw [MemFile.cpath_of_lt h]
  exact Nat.le_trans m.path_le (Nat.le_add_right _ _)

lemma length_cpath_mkDir (m : MemFile) : m.mkDir.cpath.length ≤ pathBound := by
  have hle : m.mkDir.path.length ≤ pathField := m.path_le
  by_cases h : m.mkDir.path.length < pathField
  · exact length_cpath_of_lt h
  · rw [MemFile.cpath_of_full h, length_append]
    exact Nat.add_le_add_right hle 5

lemma length_cpath_create (p : CStr) : (MemFile.create p).cpath.length ≤ pathBound := by
  by_cases h : (MemFile.create p).path.length < pathField
  · exact length_cpath_of_lt h
  · have hle := (MemFile.create p).path_le
    have hempty : (MemFile.create p).content.val.length = 0 := rfl
    rw [MemFile.cpath_of_full h, length_append, hempty]
    exact Nat.le_trans hle (Nat.le_add_right _ _)

/-- The slot that `memfs_create` returns for a path that fits its array. -/
lemma memfsCreate_slot {i : Nat} (hp : p.length < pathField)
    (hc : memfsCreate fs p = (some i, fs')) (hm : fs'.memfs[i]? = some m) : m.path.length < pathField := by
  rcases memfsCreate_eq_some hc with ⟨hfind, rfl⟩ | ⟨-, -, rfl, rfl⟩
  · obtain ⟨-, ⟨m', hm', -, hcpath⟩, -⟩ := memfsFind_eq_some_iff.mp hfind
    rw [hm] at hm'
    obtain rfl := Option.some.inj hm'
    exact MemFile.path_length_of_cpath (hcpath ▸ hp)
  · rw [getElem?_concat_length] at hm
    rw [← Option.some.inj hm]
    exact Nat.lt_of_le_of_lt (length_take_le' _ _) hp

section Short

variable (h : ShortPaths fs)

include h

lemma ShortPaths.modifyFile {i : Nat}
    (hf : ∀ m, fs.memfs[i]? = some m → (f m).cpath.length ≤ pathBound) : ShortPaths (fs.modifyFile i f) := by
  intro m hm
  obtain ⟨j, hj⟩ := getElem?_of_mem hm
  obtain ⟨m₀, hm₀, rfl⟩ := modifyFile_getElem?.mp hj
  split
  · rename_i hij
    exact hf m₀ (hij ▸ hm₀)
  · exact h m₀ (mem_of_getElem? hm₀)

lemma ShortPaths.append (p : CStr) :
    ShortPaths { fs with memfs := fs.memfs ++ [MemFile.create p] } := by
  intro m hm
  rcases mem_append.mp hm with hm | hm
  · exact h m hm
  · rw [mem_singleton.mp hm]
    exact length_cpath_create p

lemma ShortPaths.memfsCreate {i : Option Nat} (hc : memfsCreate fs p = (i, fs')) : ShortPaths fs' := by
  cases i with
  | some i =>
    rcases memfsCreate_eq_some hc with ⟨-, rfl⟩ | ⟨-, -, -, rfl⟩
    · exact h
    · exact h.append p
  | none =>
    have hfs : fs' = fs := by
      unfold Kernel.memfsCreate at hc
      split at hc
      · exact absurd (congrArg Prod.fst hc) (by simp)
      · split at hc
        · exact (congrArg Prod.snd hc).symm
        · exact absurd (congrArg Prod.fst hc) (by simp)
    rw [hfs]
    exact h

lemma ShortPaths.createWith
    (hf : ∀ m, m.path.length < pathField → (f m).cpath.length ≤ pathBound) (hp : p.length < pathField) :
    ShortPaths (createWith fs p f) := by
  unfold Kernel.createWith
  split
  · rename_i i fs' hc
    exact (h.memfsCreate hc).modifyFile (fun m hm => hf m (memfsCreate_slot hp hc hm))
  · rename_i fs' hc
    exact h.memfsCreate hc

lemma ShortPaths.createWrite (hp : p.length < pathField) (c : Content) :
    ShortPaths (Kernel.createWith fs p (MemFile.write c)) := by
  refine h.createWith (fun m hm => ?_) hp
  have hpath : (m.write c).path.length < pathField := hm
  exact length_cpath_of_lt hpath

lemma ShortPaths.copySkel {dst : CStr} (src : CStr) (hdst : dst.length < pathField) :
    ShortPaths (copySkel fs src dst) := by
  unfold Kernel.copySkel
  split
  · exact h.createWrite hdst _
  · exact h

lemma ShortPaths.adduserFiles {home : CStr} (hhome : home.length ≤ 38) :
    ShortPaths (adduserFiles fs home) := by
  have hfield : pathField = 128 := rfl
  have hrc : (cstr ".lashrc").length = 7 := rfl
  have hprofile : (cstr ".lashrc-profile").length = 15 := rfl
  unfold Kernel.adduserFiles
  refine ((h.createWith (fun m _ => length_cpath_mkDir m) ?_).copySkel _ ?_).copySkel _ ?_
  · omega
  · rw [length_append]
    omega
  · rw [length_append]
    omega

lemma ShortPaths.shMkdir (cwd a : CStr) : ShortPaths (shMkdir fs cwd a).2 := by
  unfold Shell.shMkdir
  split
  · exact h
  · simp only
    split
    · exact h
    · split
      · rename_i i fs' hc
        exact (h.memfsCreate hc).modifyFile (fun m _ => length_cpath_mkDir m)
      · rename_i fs' hc
        exact h.memfsCreate hc

end Short

lemma length_homeOf_le (n : UserName) : (homeOf n.val).length ≤ 38 := by
  rw [length_homeOf]
  omega

/-- What `adduser` can do: nothing, or one more user with a home directory and its files. -/
lemma cmdAdduser_cases (db : UserDb) (fs : Pigfs) (n : UserName) : (cmdAdduser db fs n).2 = (db, fs) ∨
    n.val ≠ [] ∧ (∀ u ∈ (cmdAdduser db fs n).2.1.users, u ∈ db.users ∨ u.home = homeOf n.val) ∧
      (cmdAdduser db fs n).2.2 = adduserFiles fs (homeOf n.val) := by
  unfold cmdAdduser
  split
  · exact .inl rfl
  rename_i hne
  split
  · exact .inl rfl
  split
  · exact .inl rfl
  refine .inr ⟨hne, fun u hu => ?_, rfl⟩
  rcases mem_append.mp hu with hu | hu
  · exact .inl hu
  · rw [mem_singleton.mp hu]
    exact .inr rfl

lemma isDir_length (h : ShortPaths fs) (hdir : IsDir fs p) : p.length ≤ pathBound := by
  rcases hdir with hdir | hdir
  · unfold memfsDir at hdir
    cases hfind : memfsFind fs p with
    | none =>
      rw [hfind] at hdir
      exact absurd hdir Bool.false_ne_true
    | some i =>
      obtain ⟨-, ⟨m, hm, -, rfl⟩, -⟩ := memfsFind_eq_some_iff.mp hfind
      exact h m (mem_of_getElem? hm)
  · cases hfind : fsFindVnode fs p with
    | none =>
      rw [hfind] at hdir
      exact absurd hdir Bool.false_ne_true
    | some n =>
      obtain ⟨hmem, rfl⟩ := mem_vfs_of_fsFindVnode hfind
      exact Nat.le_trans (vfs_canonical n hmem).2 (Nat.le_add_right _ _)

/-- The working directory after `su` is a home directory or the old one. -/
lemma suCwd_cases (db : UserDb) (cwd a pw : CStr) :
    suCwd db cwd a pw = cwd ∨ ∃ u ∈ db.users, suCwd db cwd a pw = u.home := by
  unfold suCwd
  simp only
  split
  · rename_i u hu
    split
    · obtain ⟨i, -, hi⟩ := Option.bind_eq_some_iff.mp hu
      exact .inr ⟨u, mem_of_getElem? hi, rfl⟩
    · exact .inl rfl
  · exact .inl rfl

/-- `suCwd` is what the `su` of the dispatcher does to `sh_cwd`. -/
lemma shSu_cwd {σ : Type} {c c' : Core σ} {out : List Emission} {es : List Event}
    (h : shSu c a = some (out, c', es)) : ∃ pw, c'.cwd = suCwd c.db c.cwd a pw := by
  unfold shSu at h
  unfold suCwd
  have hminus : minus = chr '-' := rfl
  rw [hminus] at h
  simp only at h ⊢
  split at h
  · rename_i hnone
    obtain ⟨-, rfl, -⟩ := Prod.mk.inj (Option.some.inj h) |>.imp_right Prod.mk.inj
    rw [hnone]
    exact ⟨[], rfl⟩
  · rename_i u hsome
    obtain ⟨⟨out', pw, keys⟩, -, heq⟩ := Option.map_eq_some_iff.mp h
    obtain ⟨-, rfl, -⟩ := Prod.mk.inj heq |>.imp_right Prod.mk.inj
    refine ⟨pw, ?_⟩
    rw [hsome]
    unfold suAttempt
    simp only
    split
    · rfl
    · rfl

/-- No path of the session is long: those of the files, the home directories, the working
directory. -/
structure Bounded (s : NavState) : Prop where
  files : ShortPaths s.sys.fs
  homes : ∀ u ∈ s.sys.users.users, u.home.length ≤ pathBound
  cwd : s.cwd.length ≤ pathBound

lemma bounded_navBoot (store : DelStore) : Bounded (navBoot store) := by
  have hempty : ShortPaths (delSyncFromStore ⟨[], [], store⟩) := fun m hm => absurd hm not_mem_nil
  have hhomes : ∀ u ∈ initialUsers.users, u.home.length ≤ pathBound := by decide
  have hroot : (cstr "/").length ≤ pathBound := by decide
  refine ⟨?_, hhomes, hroot⟩
  exact ((hempty.createWith (fun m _ => length_cpath_mkDir m) (by decide)).createWrite (by decide) _).createWrite
    (by decide) _

/-- What one command does to the state. -/
inductive NavEffect (s : NavState) : NavCmd → NavReport → NavState → Prop where
  | halted {c : NavCmd} : s.sys.halted = true → NavEffect s c .silent s
  | adduser {n : UserName} {r : NavReport} {db : UserDb} {fs : Pigfs} : s.sys.halted = false →
      (cmdAdduser s.sys.users s.sys.fs n).2 = (db, fs) →
      NavEffect s (.adduser n) r { s with sys := { s.sys with users := db, fs := fs } }
  | mkdir {a : CStr} {r : NavReport} : s.sys.halted = false →
      NavEffect s (.mkdir a) r { s with sys := { s.sys with fs := (shMkdir s.sys.fs s.cwd a).2 } }
  | su {a pw : CStr} : s.sys.halted = false →
      NavEffect s (.su a pw) .silent { s with cwd := suCwd s.sys.users s.cwd a pw }
  | cd {a : CStr} : s.sys.halted = false →
      NavEffect s (.cd a) (.cd (fsCd s.sys.fs s.cwd a))
        ⟨{ s.sys with halted := decide (fsCd s.sys.fs s.cwd a = .overflow) }, cdCwd s.cwd (fsCd s.sys.fs s.cwd a)⟩

/-- While the machine runs, the file system's machine takes the step of the same command. -/
lemma fsStep_running {s : Sys} (hrun : s.halted = false) (c : Cmd) : ¬ (s.halted && !c.isReboot) = true := by
  rw [hrun, Bool.false_and]
  exact Bool.false_ne_true

lemma navStep_effect (s : NavState) (c : NavCmd) : NavEffect s c (navStep s c).1 (navStep s c).2 := by
  unfold navStep
  by_cases hrun : s.sys.halted = true
  · rw [if_pos hrun]
    exact .halted hrun
  · rw [if_neg hrun]
    rw [Bool.not_eq_true] at hrun
    cases c with
    | adduser n =>
      simp only [fsStep, if_neg (fsStep_running hrun (.adduser n))]
      exact .adduser hrun rfl
    | mkdir a =>
      simp only [fsStep, if_neg (fsStep_running hrun (.mkdir s.cwd a))]
      exact .mkdir hrun
    | su a pw => exact .su hrun
    | cd a => exact .cd hrun

/-- The step lemma for the lengths: there is no condition on the command. -/
lemma Bounded.step (h : Bounded s) (c : NavCmd) : Bounded (navStep s c).2 := by
  have heff := navStep_effect s c
  generalize (navStep s c).1 = r, (navStep s c).2 = s' at heff
  cases heff with
  | halted _ => exact h
  | @adduser n _ db fs _ hadd =>
    rcases cmdAdduser_cases s.sys.users s.sys.fs n with hsame | ⟨-, husers, hfiles⟩
    · obtain ⟨rfl, rfl⟩ := Prod.mk.inj (hadd.symm.trans hsame)
      exact h
    · rw [hadd] at husers hfiles
      simp only at husers hfiles
      subst hfiles
      refine ⟨h.files.adduserFiles (length_homeOf_le n), fun u hu => ?_, h.cwd⟩
      rcases husers u hu with hu | hu
      · exact h.homes u hu
      · rw [hu]
        exact Nat.le_trans (length_homeOf_le n) (by decide)
  | mkdir _ => exact ⟨h.files.shMkdir _ _, h.homes, h.cwd⟩
  | su _ =>
    refine ⟨h.files, h.homes, ?_⟩
    rcases suCwd_cases s.sys.users s.cwd _ _ with hcwd | ⟨u, hu, hcwd⟩
    · rw [hcwd]
      exact h.cwd
    · rw [hcwd]
      exact h.homes u hu
  | @cd a _ =>
    refine ⟨h.files, h.homes, ?_⟩
    have hout := fsCd_outcome s.sys.fs s.cwd a
    generalize fsCd s.sys.fs s.cwd a = r at hout
    cases hout with
    | root => exact (by decide : (cstr "/").length ≤ pathBound)
    | dir hdir => exact isDir_length h.files hdir
    | noSuchFile => exact h.cwd
    | notDirectory => exact h.cwd
    | overflow => exact h.cwd

/-- **No path of a session is long**: `sh_cwd` stays far below its 256 bytes. -/
theorem session_short (store : DelStore) (cs : List NavCmd) : Bounded (Machine.exec navStep (navBoot store) cs) :=
  Machine.exec_invariant Bounded (fun _ c h => h.step c) (bounded_navBoot store) cs

/-! ## Sessions: where `sh_cwd` points -/

/-- The form that home directories and the working directory keep. -/
structure Tidy (s : NavState) : Prop where
  running : s.sys.halted = false
  bounded : Bounded s
  homes : ∀ u ∈ s.sys.users.users, DirPath u.home
  cwd : DirPath s.cwd

/-- The commands that keep it: a new home is the path of a directory, and `cd` resolves its argument
as a walk. -/
def Orderly (s : NavState) : NavCmd → Prop
  | .adduser n => n.val ≠ [] → DirPath (homeOf n.val)
  | .cd a => CleanArg s.cwd a
  | _ => True

lemma dirPath_root : DirPath (cstr "/") := ⟨[], .inl rfl⟩

lemma tidy_navBoot (store : DelStore) : Tidy (navBoot store) := by
  refine ⟨rfl, bounded_navBoot store, fun u hu => ?_, dirPath_root⟩
  rw [mem_singleton.mp hu]
  exact dirPath_root

/-- The second attempt only ends in a directory of the read-only table. -/
lemma Fallback.dirPath (h : Fallback fs cwd a) : DirPath (cdAbs a) := by
  obtain ⟨-, -, hany⟩ := h
  cases hfind : fsFindVnode fs (cdAbs a) with
  | none =>
    rw [hfind] at hany
    exact absurd hany Bool.false_ne_true
  | some n =>
    obtain ⟨hmem, hpath⟩ := mem_vfs_of_fsFindVnode hfind
    have hcanon := (vfs_canonical n hmem).1
    rw [hpath] at hcanon
    exact ⟨_, .inl hcanon.symm⟩

lemma CdLaw.ne_overflow (h : CdLaw fs cwd a r cwd') : r ≠ .overflow := by
  by_cases hhome : a = [] ∨ a = cstr "~"
  · simp [(h.home hhome).1]
  · rw [not_or] at hhome
    by_cases hdir : DirExists fs (cdTarget cwd a)
    · simp [(h.found hhome.1 hhome.2 hdir).1]
    · by_cases hfall : Fallback fs cwd a
      · simp [(h.retry hhome.1 hhome.2 hdir hfall).1]
      · rcases (h.error hhome.1 hhome.2 hdir hfall).1 with hr | hr <;> simp [hr]

lemma CdLaw.dirPath (h : CdLaw fs cwd a r cwd') (hcwd : DirPath cwd) : DirPath cwd' := by
  by_cases hhome : a = [] ∨ a = cstr "~"
  · rw [(h.home hhome).2]
    exact dirPath_root
  · rw [not_or] at hhome
    by_cases hdir : DirExists fs (cdTarget cwd a)
    · exact ⟨_, (h.found hhome.1 hhome.2 hdir).2.1⟩
    · by_cases hfall : Fallback fs cwd a
      · rw [(h.retry hhome.1 hhome.2 hdir hfall).2]
        exact hfall.dirPath
      · rw [(h.error hhome.1 hhome.2 hdir hfall).2]
        exact hcwd

/-- The step lemma for the form of `sh_cwd`. -/
lemma Tidy.step {c : NavCmd} (h : Tidy s) (hc : Orderly s c) : Tidy (navStep s c).2 := by
  have hbounded := h.bounded.step c
  have heff := navStep_effect s c
  generalize (navStep s c).1 = r, (navStep s c).2 = s' at heff hbounded
  cases heff with
  | halted _ => exact h
  | @adduser n _ db fs _ hadd =>
    refine ⟨h.running, hbounded, ?_, h.cwd⟩
    rcases cmdAdduser_cases s.sys.users s.sys.fs n with hsame | ⟨hne, husers, -⟩
    · obtain ⟨rfl, rfl⟩ := Prod.mk.inj (hadd.symm.trans hsame)
      exact h.homes
    · rw [hadd] at husers
      intro u hu
      rcases husers u hu with hu | hu
      · exact h.homes u hu
      · rw [hu]
        exact hc hne
  | mkdir _ => exact ⟨h.running, hbounded, h.homes, h.cwd⟩
  | su _ =>
    refine ⟨h.running, hbounded, h.homes, ?_⟩
    rcases suCwd_cases s.sys.users s.cwd _ _ with hcwd | ⟨u, hu, hcwd⟩
    · rw [hcwd]
      exact h.cwd
    · rw [hcwd]
      exact h.homes u hu
  | cd _ =>
    have hlaw := cd_law s.sys.fs h.cwd hc
    exact ⟨decide_eq_false hlaw.ne_overflow, hbounded, h.homes, hlaw.dirPath h.cwd⟩

/-- `..` is resolved as a walk from every canonical directory that a session can be in. -/
lemma clean_up (hcwd : Canonical cwd) (hlen : cwd.length ≤ pathBound) : CleanArg cwd [dot, dot] := by
  refine ⟨by decide, fun h => absurd h (by decide), fun _ => ⟨fits_of_length ?_, fun h => absurd hcwd h⟩⟩
  have hmax : resolveMax = 253 := rfl
  have hbound : pathBound = 133 := rfl
  have htwo : List.length [dot, dot] = 2 := rfl
  rw [hcwd.render_walk]
  omega

lemma cdTarget_up (cwd : CStr) : cdTarget cwd [dot, dot] = (walk [] cwd).dropLast := by
  unfold cdTarget
  rw [if_neg (by decide), walk_component _ (by decide), descend_up]

lemma navStep_cd {e : Machine.Event NavState NavCmd NavReport}
    (hstep : navStep e.before e.input = (e.output, e.after)) (hin : e.input = .cd a) (hout : e.output = .cd r) :
    r = fsCd e.before.sys.fs e.before.cwd a ∧ e.after.cwd = cdCwd e.before.cwd r := by
  have heff := navStep_effect e.before e.input
  rw [hstep, hin] at heff
  simp only at heff
  generalize hafter : e.after = s' at heff
  rw [hout] at heff
  cases heff with
  | cd _ => exact ⟨rfl, rfl⟩

/-- A session that is orderly: a new user goes home, and from there to `/usr/bin` and back up. -/
def tour : List NavCmd :=
  [.adduser ⟨cstr "pig", by decide⟩, .su (cstr "pig") (cstr "changeme"), .cd (cstr "/usr/bin"), .cd [dot, dot]]

end PigOS.Shell
