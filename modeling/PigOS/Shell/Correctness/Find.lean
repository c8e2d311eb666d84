import PigOS.Kernel.Correctness.Resolve
import PigOS.Kernel.Listing
import PigOS.Lib.Enumeration
import PigOS.Shell.Correctness.Directories

/-!
# `Shell.Correctness.Find` — which directories `find` prints as they are

A visible path that is `d` or continues `d` after a slash belongs to the subtree of `d`
(`InSubtree`). `find d` compares the first bytes of a path with `d` and does not ask for a slash
behind them, it takes a file under a tombstone for a file, and what both tables have it prints for
each of them.
-/

namespace PigOS.Shell

open Kernel Enumeration List

/-! ## The subtree of a directory -/

/-- One of the two lookups finds a node under the path `x`. -/
def Visible (fs : Pigfs) (x : CStr) : Prop := memfsFind fs x ≠ none ∨ fsFindVnode fs x ≠ none

/-- `x` is `d`, or lies below it. -/
def AtOrBelow (d x : CStr) : Prop := x = d ∨ asDir d <+: x

instance (d x : CStr) : Decidable (AtOrBelow d x) := inferInstanceAs (Decidable (_ ∨ _))

/-- A directory of one of the tables; a file may be stored with a slash behind its path. -/
def IsDirectory (fs : Pigfs) (d : CStr) : Prop :=
  (fsFindVnode fs d).any (·.isDir) = true ∨ memfsDir fs d = true ∨ memfsDir fs (d ++ [slash]) = true

instance (fs : Pigfs) (d : CStr) : Decidable (IsDirectory fs d) := inferInstanceAs (Decidable (_ ∨ _ ∨ _))

/-- The lines that `find d` is to print. -/
def InSubtree (fs : Pigfs) (d : CStr) (l : FindLine) : Prop := ∃ x, (Visible fs x ∧ AtOrBelow d x) ∧ FindLine.path x = l

/-- A slot of `memfs` that is in use has the path `x`. -/
def UsedPath (fs : Pigfs) (x : CStr) : Prop := ∃ m ∈ fs.memfs, m.used ≠ 0 ∧ m.cpath = x

variable {fs : Pigfs} {d x : CStr}

lemma memfsFind_ne_none_iff :
    memfsFind fs x ≠ none ↔ fsIsDeleted fs x = false ∧ UsedPath fs x := by
  rw [ne_eq, memfsFind_eq_none_iff, not_or, Bool.not_eq_true]
  refine and_congr_right fun _ => ?_
  constructor
  · intro h
    by_contra hnone
    apply h
    intro j m hm hu hp
    exact hnone ⟨m, mem_of_getElem? hm, hu, hp⟩
  · rintro ⟨m, hm, hu, hp⟩ hnone
    obtain ⟨j, hj⟩ := getElem?_of_mem hm
    exact hnone j m hj hu hp

/-- A path is visible when it has no tombstone and stands in one of the tables. -/
lemma visible_iff :
    Visible fs x ↔ fsIsDeleted fs x = false ∧ (x ∈ vfs.map (·.path) ∨ UsedPath fs x) := by
  unfold Visible
  rw [memfsFind_ne_none_iff, fsFindVnode_ne_none_iff]
  tauto

lemma prefix_asDir (d : CStr) : d <+: asDir d := by
  unfold asDir
  split
  · exact prefix_refl d
  · exact prefix_append d [slash]

lemma asDir_prefix_slash (d : CStr) : asDir d <+: d ++ [slash] := by
  unfold asDir
  split
  · exact prefix_append d [slash]
  · exact prefix_refl _

lemma AtOrBelow.isPrefix (h : AtOrBelow d x) : d <+: x := by
  rcases h with rfl | h
  · exact prefix_refl x
  · exact (prefix_asDir d).trans h

lemma memfsFind_of_memfsDir {p : CStr} (h : memfsDir fs p = true) : memfsFind fs p ≠ none := by
  intro hnone
  rw [memfsDir, hnone] at h
  cases h

lemma IsDirectory.subtree (h : IsDirectory fs d) : ∃ x, Visible fs x ∧ AtOrBelow d x := by
  rcases h with h | h | h
  · refine ⟨d, .inr ?_, .inl rfl⟩
    intro hnone
    rw [hnone] at h
    cases h
  · exact ⟨d, .inl (memfsFind_of_memfsDir h), .inl rfl⟩
  · exact ⟨d ++ [slash], .inl (memfsFind_of_memfsDir h), .inr (asDir_prefix_slash d)⟩

/-! ## What `find` prints, for any query -/

lemma vfs_paths_nodup : (vfs.map (·.path)).Nodup := by
  -- numbers are compared faster than strings
  have hcodes : ((vfs.map (·.path)).map byteCode).Nodup := by decide +kernel
  exact hcodes.of_map byteCode

section Query

variable (q : FindArgs) (base : CStr) (fs : Pigfs)

/-- `find` prints `x` as the path of a read-only node. -/
def PrintsNode (x : CStr) : Prop := ∃ n ∈ vfs, findsVnode q base fs n = true ∧ n.path = x

/-- `find` prints `x` as the path of a file made at run time. -/
def PrintsFile (x : CStr) : Prop := ∃ m ∈ fs.memfs, findsFile q base m = true ∧ m.cpath = x

/-- The paths that pass the tests are those of the subtree of `d`, and no two that pass are
equal. -/
structure Selects (d : CStr) : Prop where
  once : ((fs.memfs.filter (findsFile q base)).map (·.cpath)).Nodup
  apart : ∀ x, PrintsNode q base fs x → ¬PrintsFile q base fs x
  exact : ∀ x, Visible fs x ∧ AtOrBelow d x ↔ PrintsNode q base fs x ∨ PrintsFile q base fs x

variable {q base fs}

lemma mem_filter_map {α β : Type} {l : List α} {p : α → Bool} {f : α → β} {b : β} :
    b ∈ (l.filter p).map f ↔ ∃ a ∈ l, p a = true ∧ f a = b := by
  simp only [mem_map, mem_filter, and_assoc]

lemma findPaths_enumerates_iff (d : CStr) :
    Enumerates (findPaths q base fs) (fun x => Visible fs x ∧ AtOrBelow d x) ↔ Selects q base fs d := by
  have hnodes : Enumerates ((vfs.filter (findsVnode q base fs)).map (·.path)) (PrintsNode q base fs) :=
    enumerates_filter vfs_paths_nodup _
  have hfiles : ∀ x, x ∈ (fs.memfs.filter (findsFile q base)).map (·.cpath) ↔ PrintsFile q base fs x :=
    fun x => mem_filter_map
  unfold findPaths
  rw [hnodes.append_iff hfiles]
  constructor
  · rintro ⟨honce, hapart, hexact⟩
    exact ⟨honce, hapart, hexact⟩
  · rintro ⟨honce, hapart, hexact⟩
    exact ⟨honce, hapart, hexact⟩

end Query

/-- The line that reports no match is not among those of a subtree that is not empty. -/
lemma fsFindCmd_enumerates_iff (cwd args : CStr) (hd : ∃ x, Visible fs x ∧ AtOrBelow d x) :
    Enumerates (fsFindCmd fs cwd args) (InSubtree fs d) ↔
      Selects (findArgs args) (fsResolve cwd (findArgs args).startpath pathBuf) fs d := by
  rw [← findPaths_enumerates_iff]
  obtain ⟨x, hx⟩ := hd
  unfold fsFindCmd
  dsimp only
  split
  next hnil =>
    rw [hnil]
    constructor
    · intro h
      have hmem := (h.mem (.path x)).mpr ⟨x, hx, rfl⟩
      rw [mem_singleton] at hmem
      cases hmem
    · intro h
      exact absurd h (not_enumerates_nil hx)
  next found hne =>
    exact enumerates_map_iff (fun a b hab => FindLine.path.inj hab)

/-! ## Paths that are read as they are -/

/-- A path from a slash on that fits an array of 256 bytes and that `path_normalize` leaves as it
is. -/
structure PlainPath (d : CStr) : Prop where
  head : d.head? = some slash
  length : d.length < pathBuf
  normal : pathNormalize d = d

lemma PlainPath.ne_nil (h : PlainPath d) : d ≠ [] := by
  intro hnil
  have := h.head
  rw [hnil] at this
  cases this

lemma PlainPath.fsResolve_eq (h : PlainPath d) (cwd : CStr) : fsResolve cwd d pathBuf = d := by
  have hdot : ¬(d = [] ∨ d = [dot]) := by
    rintro (hnil | hdot)
    · exact h.ne_nil hnil
    · exact absurd (hdot ▸ h.head) (by decide)
  have htilde : ksc d (cstr "~") ≠ 0 := by
    rw [ne_eq, ksc_eq_zero]
    intro htilde
    exact absurd (htilde ▸ h.head) (by decide)
  unfold fsResolve
  rw [if_neg hdot, if_neg htilde]
  dsimp only
  rw [if_pos h.head, take_of_length_le (Nat.le_sub_one_of_lt h.length), if_neg h.ne_nil]
  exact h.normal

lemma findFilters_nil (k : Nat) (q : FindArgs) : findFilters k [] q = q := by
  cases k with
  | zero => rfl
  | succ k => rfl

lemma PlainPath.findArgs_eq (h : PlainPath d) (hspace : space ∉ d) : findArgs d = { startpath := d } := by
  obtain ⟨rest, hrest⟩ := head?_eq_some_iff.mp h.head
  have hskip : d.dropWhile (· = space) = d := by
    rw [hrest]
    rfl
  have hword : d.takeWhile (· ≠ space) = d := by
    rw [takeWhile_eq_self_iff]
    intro c hc
    exact decide_eq_true fun heq => hspace (heq ▸ hc)
  have hdash : d.head? ≠ some (chr '-') := by
    rw [h.head]
    decide
  unfold findArgs
  dsimp only
  rw [hskip, if_pos ⟨h.ne_nil, hdash⟩, hword, take_of_length_le (Nat.le_sub_one_of_lt h.length), drop_length]
  exact findFilters_nil _ _

/-! ## The subtrees that are printed as they are -/

/-- The test of `find` on a path: its first bytes, or any path when `d` is the root. -/
def SharesStart (d x : CStr) : Prop := d.length ≤ 1 ∨ d <+: x

instance (d x : CStr) : Decidable (SharesStart d x) := inferInstanceAs (Decidable (_ ∨ _))

lemma inBase_iff : inBase d x = true ↔ SharesStart d x := by
  unfold inBase SharesStart
  rw [Bool.or_eq_true, decide_eq_true_eq, decide_eq_true_eq, ksnc_eq_zero]

/-- What the state has to be like for `find d` to print the subtree of `d`. -/
structure FindsSubtree (fs : Pigfs) (d : CStr) : Prop where
  /-- no read-only node is named like `d` with more bytes behind it -/
  nodes : ∀ n ∈ vfs, fsIsDeleted fs n.path = false → SharesStart d n.path → AtOrBelow d n.path
  /-- nor is a file -/
  files : ∀ m ∈ fs.memfs, m.used ≠ 0 → SharesStart d m.cpath → AtOrBelow d m.cpath
  /-- no file of the subtree is under a tombstone -/
  alive : ∀ m ∈ fs.memfs, m.used ≠ 0 → AtOrBelow d m.cpath → fsIsDeleted fs m.cpath = false
  /-- none has the path of a read-only node -/
  fresh : ∀ m ∈ fs.memfs, m.used ≠ 0 → AtOrBelow d m.cpath → m.cpath ∉ vfs.map (·.path)
  /-- no two have one path -/
  once : ((fs.memfs.filter fun m => decide (m.used ≠ 0 ∧ AtOrBelow d m.cpath)).map (·.cpath)).Nodup

section Plain

variable {fs : Pigfs} {d : CStr}

lemma findsVnode_iff {n : VNode} :
    findsVnode { startpath := d } d fs n = true ↔ fsIsDeleted fs n.path = false ∧ SharesStart d n.path := by
  rw [← inBase_iff]
  simp [findsVnode]

lemma findsFile_iff {m : MemFile} : findsFile { startpath := d } d m = true ↔ m.used ≠ 0 ∧ SharesStart d m.cpath := by
  rw [← inBase_iff]
  simp [findsFile]

lemma printsNode_iff :
    PrintsNode { startpath := d } d fs x ↔
      fsIsDeleted fs x = false ∧ x ∈ vfs.map (·.path) ∧ SharesStart d x := by
  unfold PrintsNode
  constructor
  · rintro ⟨n, hn, hfinds, rfl⟩
    obtain ⟨hdel, hshares⟩ := findsVnode_iff.mp hfinds
    exact ⟨hdel, mem_map_of_mem hn, hshares⟩
  · rintro ⟨hdel, hmem, hshares⟩
    obtain ⟨n, hn, rfl⟩ := mem_map.mp hmem
    exact ⟨n, hn, findsVnode_iff.mpr ⟨hdel, hshares⟩, rfl⟩

lemma printsFile_iff : PrintsFile { startpath := d } d fs x ↔ UsedPath fs x ∧ SharesStart d x := by
  unfold PrintsFile UsedPath
  constructor
  · rintro ⟨m, hm, hfinds, rfl⟩
    obtain ⟨hu, hshares⟩ := findsFile_iff.mp hfinds
    exact ⟨⟨m, hm, hu, rfl⟩, hshares⟩
  · rintro ⟨⟨m, hm, hu, rfl⟩, hshares⟩
    exact ⟨m, hm, findsFile_iff.mpr ⟨hu, hshares⟩, rfl⟩

lemma FindsSubtree.selects (h : FindsSubtree fs d) : Selects { startpath := d } d fs d := by
  refine ⟨?_, ?_, ?_⟩
  · have hsame : fs.memfs.filter (findsFile { startpath := d } d) =
        fs.memfs.filter fun m => decide (m.used ≠ 0 ∧ AtOrBelow d m.cpath) := by
      apply filter_congr
      intro m hm
      rw [Bool.eq_iff_iff, findsFile_iff, decide_eq_true_eq]
      constructor
      · rintro ⟨hu, hshares⟩
        exact ⟨hu, h.files m hm hu hshares⟩
      · rintro ⟨hu, hbelow⟩
        exact ⟨hu, .inr hbelow.isPrefix⟩
    rw [hsame]
    exact h.once
  · intro x hnode hfile
    obtain ⟨-, hmem, -⟩ := printsNode_iff.mp hnode
    obtain ⟨⟨m, hm, hu, rfl⟩, hshares⟩ := printsFile_iff.mp hfile
    exact h.fresh m hm hu (h.files m hm hu hshares) hmem
  · intro x
    rw [visible_iff, printsNode_iff, printsFile_iff]
    constructor
    · rintro ⟨⟨hdel, htable⟩, hbelow⟩
      rcases htable with hmem | hused
      · exact .inl ⟨hdel, hmem, .inr hbelow.isPrefix⟩
      · exact .inr ⟨hused, .inr hbelow.isPrefix⟩
    · rintro (⟨hdel, hmem, hshares⟩ | ⟨⟨m, hm, hu, rfl⟩, hshares⟩)
      · obtain ⟨n, hn, rfl⟩ := mem_map.mp hmem
        exact ⟨⟨hdel, .inl hmem⟩, h.nodes n hn hdel hshares⟩
      · have hbelow := h.files m hm hu hshares
        exact ⟨⟨h.alive m hm hu hbelow, .inr ⟨m, hm, hu, rfl⟩⟩, hbelow⟩

lemma Selects.findsSubtree (h : Selects { startpath := d } d fs d) : FindsSubtree fs d := by
  have hfile : ∀ m ∈ fs.memfs, m.used ≠ 0 → SharesStart d m.cpath → PrintsFile { startpath := d } d fs m.cpath := by
    intro m hm hu hshares
    exact printsFile_iff.mpr ⟨⟨m, hm, hu, rfl⟩, hshares⟩
  have halive : ∀ m ∈ fs.memfs, m.used ≠ 0 → AtOrBelow d m.cpath → fsIsDeleted fs m.cpath = false := by
    intro m hm hu hbelow
    have hprints := hfile m hm hu (.inr hbelow.isPrefix)
    exact (visible_iff.mp ((h.exact _).mpr (.inr hprints)).1).1
  refine ⟨?_, ?_, halive, ?_, ?_⟩
  · intro n hn hdel hshares
    have hprints : PrintsNode { startpath := d } d fs n.path :=
      printsNode_iff.mpr ⟨hdel, mem_map_of_mem hn, hshares⟩
    exact ((h.exact _).mpr (.inl hprints)).2
  · intro m hm hu hshares
    exact ((h.exact _).mpr (.inr (hfile m hm hu hshares))).2
  · intro m hm hu hbelow hmem
    have hshares : SharesStart d m.cpath := .inr hbelow.isPrefix
    exact h.apart _ (printsNode_iff.mpr ⟨halive m hm hu hbelow, hmem, hshares⟩) (hfile m hm hu hshares)
  · -- a file below `d` passes the test, so these are some of the files that `find` prints
    refine List.Sublist.nodup (List.Sublist.map _ ?_) h.once
    apply monotone_filter_right
    intro m hm
    obtain ⟨hu, hbelow⟩ := of_decide_eq_true hm
    exact findsFile_iff.mpr ⟨hu, .inr hbelow.isPrefix⟩

end Plain

/-- **When `find` prints a subtree.** `find d` prints the visible paths of the subtree of `d`, each
once and nothing else, if and only if the tests it makes select just these. Where `d` is read as it
is typed, this is so if and only if no visible node or used file shares the first bytes of `d`
without lying below it, and the files below `d` have no tombstone, differ in their paths and have no
path of the read-only table. -/
theorem find_prints_subtree_iff {fs : Pigfs} (cwd : CStr) {d : CStr} (hd : IsDirectory fs d) :
    (Enumerates (fsFindCmd fs cwd d) (InSubtree fs d) ↔
      Selects (findArgs d) (fsResolve cwd (findArgs d).startpath pathBuf) fs d) ∧
    (PlainPath d → space ∉ d → (Enumerates (fsFindCmd fs cwd d) (InSubtree fs d) ↔ FindsSubtree fs d)) := by
  have hgeneral := fsFindCmd_enumerates_iff cwd d hd.subtree
  refine ⟨hgeneral, fun hplain hspace => ?_⟩
  rw [hgeneral, hplain.findArgs_eq hspace, hplain.fsResolve_eq cwd]
  exact ⟨Selects.findsSubtree, FindsSubtree.selects⟩

/-- The programs of `/usr/bin`, right after boot. -/
theorem find_prints_usrBin :
    Enumerates (fsFindCmd (boot zeroStore).fs (cstr "/") (cstr "/usr/bin"))
      (InSubtree (boot zeroStore).fs (cstr "/usr/bin")) := by
  have hd : IsDirectory (boot zeroStore).fs (cstr "/usr/bin") := by decide +kernel
  refine ((find_prints_subtree_iff (cstr "/") hd).2 ⟨by decide, by decide, by decide⟩ (by decide)).mpr ?_
  exact ⟨by decide +kernel, by decide +kernel, by decide +kernel, by decide +kernel, by decide +kernel⟩

/-- Right after boot `find /etc/skel` prints a file twice, and `find /tmp` a directory that does not
lie below it. -/
theorem find_prints_skel_twice :
    Reachable (boot zeroStore) ∧ IsDirectory (boot zeroStore).fs (cstr "/etc/skel") ∧
    (fsFindCmd (boot zeroStore).fs (cstr "/") (cstr "/etc/skel")).count (.path (cstr "/etc/skel/.lashrc")) = 2 ∧
    (let s := Machine.exec fsStep (boot zeroStore) [.mkdir (cstr "/") (cstr "/tmp2")]
     Reachable s ∧ IsDirectory s.fs (cstr "/tmp") ∧
     .path (cstr "/tmp2") ∈ fsFindCmd s.fs (cstr "/") (cstr "/tmp") ∧ ¬AtOrBelow (cstr "/tmp") (cstr "/tmp2")) := by
  -- one evaluation for both searches: the table is decoded once
  have heval : (fsFindCmd (boot zeroStore).fs (cstr "/")
      (cstr "/etc/skel")).count (.path (cstr "/etc/skel/.lashrc")) = 2 ∧
      .path (cstr "/tmp2") ∈ fsFindCmd (Machine.exec fsStep (boot zeroStore) [.mkdir (cstr "/") (cstr "/tmp2")]).fs
        (cstr "/") (cstr "/tmp") := by decide +kernel
  exact ⟨⟨zeroStore, [], by decide, rfl⟩, by decide +kernel, heval.1, ⟨zeroStore, _, by decide, rfl⟩, by decide +kernel,
    heval.2, by decide⟩

end PigOS.Shell
