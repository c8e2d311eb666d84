import PigOS.Shell.Correctness.Ls
import PigOS.Shell.Grep

/-!
# `Shell.Correctness.GrepTree` — the texts that `grep` searches in a directory

The current text of a path is that of the file `memfs_find` returns, or else that of the read-only
node (`CurrentText`). `grep pat d` searches a read-only text that a file hides, a file under a
tombstone, and it asks for a slash behind `d` even where `d` is the root.
-/

namespace PigOS.Shell

open Kernel Enumeration List

variable {p : CStr → Bool} {cut i : Nat} {n : VNode} {call : GrepCall} {m : MemFile} {x : CStr}

/-! ## Current texts -/

/-- The text that a reader finds under the path `x`, when no directory is there. -/
def CurrentText (texts : VNode → Option CStr) (fs : Pigfs) (x c : CStr) : Prop :=
  match memfsAt fs x with
  | some m => m.isDir = false ∧ c = m.content.val
  | none => ∃ n, fsFindVnode fs x = some n ∧ n.isDir = false ∧ texts n = some c

/-- The searches that `grep` is to make in the directory `d`. -/
def SearchedBelow (texts : VNode → Option CStr) (fs : Pigfs) (d : CStr) (call : GrepCall) : Prop :=
  CurrentText texts fs call.path call.content ∧ StrictlyBelow (asDir d) call.path ∧ call.fname = call.path.drop d.length

lemma grepBelow_iff {path fp : CStr} : grepBelow path fp = true ↔ path ++ [slash] <+: fp := by
  unfold grepBelow
  rw [prefix_iff_getElem?]
  simp only [Bool.and_eq_true, decide_eq_true_eq, all_eq_true, mem_range, length_append,
    length_singleton]
  constructor
  · rintro ⟨⟨-, hslash⟩, hbytes⟩ i hi
    by_cases hlt : i < path.length
    · rw [hbytes i hlt, getElem_append_left hlt, getElem?_eq_getElem hlt]
    · obtain rfl : i = path.length := by omega
      rw [hslash, getElem_concat_length rfl]
  · intro h
    have hslash := h path.length (by omega)
    rw [getElem_concat_length rfl] at hslash
    refine ⟨⟨(List.getElem?_eq_some_iff.mp hslash).1, hslash⟩, fun j hj => ?_⟩
    rw [h j (by omega), getElem_append_left hj, getElem?_eq_getElem hj]

/-- What the state has to be like for `grep` to search the directory `d` as it is. -/
structure GrepsSubtree (texts : VNode → Option CStr) (fs : Pigfs) (d : CStr) : Prop where
  /-- every current text below `d` has a path that continues `d` and another slash: not so below the
  root -/
  reach : ∀ x c, CurrentText texts fs x c → StrictlyBelow (asDir d) x → d ++ [slash] <+: x
  /-- every file below `d` is the one that is found under its path -/
  files : ∀ (i : Nat) (m : MemFile), fs.memfs[i]? = some m → m.used ≠ 0 → m.isDir = false → d ++ [slash] <+: m.cpath →
    memfsFind fs m.cpath = some i ∧ m.cpath ≠ asDir d
  /-- no read-only text below `d` is hidden by a file -/
  nodes : ∀ n ∈ vfs, fsIsDeleted fs n.path = false → n.isDir = false → texts n ≠ none → d ++ [slash] <+: n.path →
    memfsFind fs n.path = none

section Tables

variable {texts : VNode → Option CStr} {fs : Pigfs} {d : CStr}

lemma grepVnode_eq_some_iff : grepVnode texts fs p cut n = some call ↔
      n.isDir = false ∧ fsIsDeleted fs n.path = false ∧ p n.path = true ∧ texts n = some call.content ∧
        call.path = n.path ∧ call.fname = n.path.drop cut := by
  unfold grepVnode
  constructor
  · intro h
    split at h
    next => cases h
    next hlive =>
      rw [Bool.or_eq_true, not_or, Bool.not_eq_true, Bool.not_eq_true] at hlive
      split at h
      next hp =>
        obtain ⟨c, hc, rfl⟩ := Option.map_eq_some_iff.mp h
        exact ⟨hlive.1, hlive.2, hp, hc, rfl, rfl⟩
      next => cases h
  · obtain ⟨path, fname, content⟩ := call
    rintro ⟨hdir, hdel, hp, htext, rfl, rfl⟩
    rw [if_neg (by rw [hdir, hdel]; decide), if_pos hp, htext, Option.map_some]

lemma grepSlot_eq_some_iff : grepSlot p cut m = some call ↔
      m.used ≠ 0 ∧ m.isDir = false ∧ p m.cpath = true ∧
        call.path = m.cpath ∧ call.fname = m.cpath.drop cut ∧ call.content = m.content.val := by
  unfold grepSlot
  constructor
  · intro h
    split at h
    next => cases h
    next hlive =>
      rw [not_or, Bool.not_eq_true] at hlive
      split at h
      next hp =>
        obtain rfl := Option.some.inj h
        exact ⟨hlive.1, hlive.2, hp, rfl, rfl, rfl⟩
      next => cases h
  · obtain ⟨path, fname, content⟩ := call
    rintro ⟨hused, hdir, hp, rfl, rfl, rfl⟩
    rw [if_neg (not_or.mpr ⟨hused, by rw [hdir]; decide⟩), if_pos hp]

lemma fsFindVnode_eq_some_iff : fsFindVnode fs x = some n ↔ fsIsDeleted fs x = false ∧ n ∈ vfs ∧ n.path = x := by
  constructor
  · intro h
    have hne : fsFindVnode fs x ≠ none := by rw [h]; exact Option.some_ne_none n
    exact ⟨(fsFindVnode_ne_none_iff.mp hne).1, mem_vfs_of_fsFindVnode h⟩
  · rintro ⟨hdel, hn, rfl⟩
    obtain ⟨n', hn'⟩ := Option.ne_none_iff_exists'.mp
      (fsFindVnode_ne_none_iff.mpr ⟨hdel, mem_map_of_mem (f := (·.path)) hn⟩)
    obtain ⟨hmem, hpath⟩ := mem_vfs_of_fsFindVnode hn'
    rw [hn', inj_on_of_nodup_map vfs_paths_nodup hmem hn hpath]

lemma memfsAt_of_memfsFind (h : memfsFind fs x = some i) (hm : fs.memfs[i]? = some m) : memfsAt fs x = some m := by
  rw [memfsAt, h, Option.bind_some, hm]

lemma vfs_plain (hn : n ∈ vfs) : PlainPath n.path := by
  obtain ⟨hcanon, hlen⟩ := vfs_canonical n hn
  refine ⟨?_, Nat.lt_of_le_of_lt hlen (by decide), ?_⟩
  · obtain ⟨p, hp⟩ := render_eq_cons (walk [] n.path)
    rw [← hcanon, hp]
    rfl
  · rw [← hcanon]
    exact pathNormalize_render _

lemma memfsAt_slot (h : memfsAt fs x = some m) :
    ∃ i, memfsFind fs x = some i ∧ fs.memfs[i]? = some m ∧ m.used ≠ 0 ∧ m.cpath = x := by
  obtain ⟨i, hfind, hi⟩ := Option.bind_eq_some_iff.mp h
  obtain ⟨-, ⟨m', hm', hused, hpath⟩, -⟩ := memfsFind_eq_some_iff.mp hfind
  obtain rfl : m = m' := Option.some.inj (hi.symm.trans hm')
  exact ⟨i, hfind, hi, hused, hpath⟩

/-- A path of the read-only table that continues a directory's has more than a slash behind it. -/
lemma node_strictlyBelow (hn : n ∈ vfs) (hne : d ≠ []) (hbelow : d ++ [slash] <+: n.path) :
    StrictlyBelow (asDir d) n.path := by
  refine ⟨(asDir_prefix_slash d).trans hbelow, fun heq => ?_⟩
  have hlast : n.path.getLast? = some slash := by
    rw [heq]
    exact getLast?_asDir d
  have hroot : n.path ≠ [slash] := by
    intro hroot
    have hle := hbelow.length_le
    have hpos := length_pos_of_ne_nil hne
    rw [hroot, length_append, length_singleton] at hle
    omega
  exact ((vfs_plain hn).getLast?_ne hroot).2 hlast

lemma grepVnodes_enumerate : Enumerates (vfs.filterMap (grepVnode texts fs (grepBelow d) d.length)) (fun call =>
      ∃ n ∈ vfs, grepVnode texts fs (grepBelow d) d.length n = some call) := by
  refine ⟨nodup_filterMap_iff.mpr ?_, fun call => mem_filterMap⟩
  intro i j n n' call hi hj hn hn'
  obtain ⟨-, -, -, -, hpath, -⟩ := grepVnode_eq_some_iff.mp hn
  obtain ⟨-, -, -, -, hpath', -⟩ := grepVnode_eq_some_iff.mp hn'
  have hget : (vfs.map (·.path))[i]? = (vfs.map (·.path))[j]? := by
    rw [getElem?_map, getElem?_map, hi, hj, Option.map_some, Option.map_some, ← hpath, ← hpath']
  have hlt : i < (vfs.map (·.path)).length := by
    rw [length_map]
    exact (List.getElem?_eq_some_iff.mp hi).1
  exact (getElem?_inj hlt vfs_paths_nodup).mp hget

section Exact

variable (hnodup : (fs.memfs.filterMap (grepSlot (grepBelow d) d.length)).Nodup)
  (hapart : ∀ call, (∃ n ∈ vfs, grepVnode texts fs (grepBelow d) d.length n = some call) →
    ¬∃ m ∈ fs.memfs, grepSlot (grepBelow d) d.length m = some call)
  (hexact : ∀ call, SearchedBelow texts fs d call ↔
    (∃ n ∈ vfs, grepVnode texts fs (grepBelow d) d.length n = some call) ∨
      ∃ m ∈ fs.memfs, grepSlot (grepBelow d) d.length m = some call)

include hexact in
lemma reach_of_exact {c : CStr} (hcurrent : CurrentText texts fs x c) (hbelow : StrictlyBelow (asDir d) x) :
    d ++ [slash] <+: x := by
  rcases (hexact ⟨x, x.drop d.length, c⟩).mp ⟨hcurrent, hbelow, rfl⟩ with ⟨n, -, hn⟩ | ⟨m, -, hm⟩
  · obtain ⟨-, -, hp, -, hpath, -⟩ := grepVnode_eq_some_iff.mp hn
    rw [show x = n.path from hpath]
    exact grepBelow_iff.mp hp
  · obtain ⟨-, -, hp, hpath, -⟩ := grepSlot_eq_some_iff.mp hm
    rw [show x = m.cpath from hpath]
    exact grepBelow_iff.mp hp

include hnodup hexact in
lemma file_of_exact (hm : fs.memfs[i]? = some m) (hused : m.used ≠ 0) (hdir : m.isDir = false)
    (hbelow : d ++ [slash] <+: m.cpath) : memfsFind fs m.cpath = some i ∧ m.cpath ≠ asDir d := by
  have hcall : ∀ m' : MemFile, m'.used ≠ 0 → m'.isDir = false → m'.cpath = m.cpath → m.content.val = m'.content.val →
      grepSlot (grepBelow d) d.length m' = some ⟨m.cpath, m.cpath.drop d.length, m.content.val⟩ := by
    intro m' hused' hdir' hpath hcontent
    refine grepSlot_eq_some_iff.mpr ⟨hused', hdir', ?_, hpath.symm, by rw [hpath], hcontent⟩
    rw [hpath]
    exact grepBelow_iff.mpr hbelow
  have hself := hcall m hused hdir rfl rfl
  obtain ⟨hcurrent, hstrict, -⟩ := (hexact _).mpr (.inr ⟨m, mem_of_getElem? hm, hself⟩)
  refine ⟨?_, hstrict.2⟩
  unfold CurrentText at hcurrent
  cases hat : memfsAt fs m.cpath with
  | some m₀ =>
    -- the file found under the path has the same text: in another slot, it would be searched a second time
    rw [hat] at hcurrent
    obtain ⟨i₀, hfind, hi₀, hused₀, hpath₀⟩ := memfsAt_slot hat
    have hother := hcall m₀ hused₀ hcurrent.1 hpath₀ hcurrent.2
    rw [hfind, nodup_filterMap_iff.mp hnodup i₀ i m₀ m _ hi₀ hm hother hself]
  | none =>
    rw [hat] at hcurrent
    obtain ⟨n, hn, -⟩ := hcurrent
    have hlive := (fsFindVnode_eq_some_iff.mp hn).1
    exact absurd (memfsAt_eq_none_iff.mp hat)
      (memfsFind_ne_none_iff.mpr ⟨hlive, m, mem_of_getElem? hm, hused, rfl⟩)

include hapart hexact in
lemma node_of_exact (hn : n ∈ vfs) (hdel : fsIsDeleted fs n.path = false) (hdir : n.isDir = false)
    (htext : texts n ≠ none) (hbelow : d ++ [slash] <+: n.path) : memfsFind fs n.path = none := by
  obtain ⟨c, hc⟩ := Option.ne_none_iff_exists'.mp htext
  have hnode : grepVnode texts fs (grepBelow d) d.length n = some ⟨n.path, n.path.drop d.length, c⟩ :=
    grepVnode_eq_some_iff.mpr ⟨hdir, hdel, grepBelow_iff.mpr hbelow, hc, rfl, rfl⟩
  have hcurrent := ((hexact _).mpr (.inl ⟨n, hn, hnode⟩)).1
  unfold CurrentText at hcurrent
  cases hat : memfsAt fs n.path with
  | none => exact memfsAt_eq_none_iff.mp hat
  | some m =>
    -- the file that hides the node would be searched too, with the same text
    rw [hat] at hcurrent
    obtain ⟨i, -, hi, hused, hpath⟩ := memfsAt_slot hat
    refine absurd ⟨m, mem_of_getElem? hi, grepSlot_eq_some_iff.mpr ?_⟩ (hapart _ ⟨n, hn, hnode⟩)
    refine ⟨hused, hcurrent.1, ?_, hpath.symm, by rw [hpath], hcurrent.2⟩
    rw [hpath]
    exact grepBelow_iff.mpr hbelow

end Exact

lemma GrepsSubtree.searched_iff (h : GrepsSubtree texts fs d) (hne : d ≠ []) (call : GrepCall) :
    SearchedBelow texts fs d call ↔
      (∃ n ∈ vfs, grepVnode texts fs (grepBelow d) d.length n = some call) ∨
        ∃ m ∈ fs.memfs, grepSlot (grepBelow d) d.length m = some call := by
  obtain ⟨x, fname, c⟩ := call
  constructor
  · rintro ⟨hcurrent, hbelow, hname⟩
    have hreach := grepBelow_iff.mpr (h.reach x c hcurrent hbelow)
    unfold CurrentText at hcurrent
    cases hat : memfsAt fs x with
    | some m =>
      rw [hat] at hcurrent
      obtain ⟨i, -, hi, hused, hpath⟩ := memfsAt_slot hat
      refine .inr ⟨m, mem_of_getElem? hi, grepSlot_eq_some_iff.mpr ?_⟩
      rw [hpath]
      exact ⟨hused, hcurrent.1, hreach, rfl, hname, hcurrent.2⟩
    | none =>
      rw [hat] at hcurrent
      obtain ⟨n, hfind, hdir, htext⟩ := hcurrent
      obtain ⟨hdel, hn, rfl⟩ := fsFindVnode_eq_some_iff.mp hfind
      exact .inl ⟨n, hn, grepVnode_eq_some_iff.mpr ⟨hdir, hdel, hreach, htext, rfl, hname⟩⟩
  · rintro (⟨n, hn, hnode⟩ | ⟨m, hm, hslot⟩)
    · obtain ⟨hdir, hdel, hp, htext, rfl, rfl⟩ := grepVnode_eq_some_iff.mp hnode
      have hreach := grepBelow_iff.mp hp
      have hhidden := h.nodes n hn hdel hdir (by rw [htext]; exact Option.some_ne_none _) hreach
      refine ⟨?_, node_strictlyBelow hn hne hreach, rfl⟩
      rw [CurrentText, memfsAt_eq_none_iff.mpr hhidden]
      exact ⟨n, fsFindVnode_eq_some_iff.mpr ⟨hdel, hn, rfl⟩, hdir, htext⟩
    · obtain ⟨hused, hdir, hp, rfl, rfl, rfl⟩ := grepSlot_eq_some_iff.mp hslot
      have hreach := grepBelow_iff.mp hp
      obtain ⟨i, hi⟩ := getElem?_of_mem hm
      obtain ⟨hfind, hstrict⟩ := h.files i m hi hused hdir hreach
      refine ⟨?_, ⟨(asDir_prefix_slash d).trans hreach, hstrict⟩, rfl⟩
      rw [CurrentText, memfsAt_of_memfsFind hfind hi]
      exact ⟨hdir, rfl⟩

/-- The two passes make the searches in the directory exactly under `GrepsSubtree`. -/
lemma grepTables_enumerates_iff (hne : d ≠ []) :
    Enumerates (grepTables texts fs (grepBelow d) d.length) (SearchedBelow texts fs d) ↔ GrepsSubtree texts fs d := by
  unfold grepTables
  rw [grepVnodes_enumerate.append_iff (fun call => mem_filterMap)]
  constructor
  · rintro ⟨hnodup, hapart, hexact⟩
    exact ⟨fun x c => reach_of_exact hexact, fun i m => file_of_exact hnodup hexact,
      fun n hn => node_of_exact hapart hexact hn⟩
  · intro h
    refine ⟨nodup_filterMap_iff.mpr ?_, ?_, h.searched_iff hne⟩
    · intro i j m m' call hi hj hm hm'
      obtain ⟨hused, hdir, hp, hpath, -⟩ := grepSlot_eq_some_iff.mp hm
      obtain ⟨hused', hdir', hp', hpath', -⟩ := grepSlot_eq_some_iff.mp hm'
      have hfind := (h.files i m hi hused hdir (grepBelow_iff.mp hp)).1
      have hfind' := (h.files j m' hj hused' hdir' (grepBelow_iff.mp hp')).1
      rw [← hpath, hpath', hfind'] at hfind
      exact (Option.some.inj hfind).symm
    · rintro call ⟨n, hn, hnode⟩ ⟨m, hm, hslot⟩
      obtain ⟨hdir, hdel, hp, htext, hpath, -⟩ := grepVnode_eq_some_iff.mp hnode
      obtain ⟨hused, -, -, hpath', -⟩ := grepSlot_eq_some_iff.mp hslot
      have hhidden := h.nodes n hn hdel hdir (by rw [htext]; exact Option.some_ne_none _) (grepBelow_iff.mp hp)
      exact absurd hhidden (memfsFind_ne_none_iff.mpr ⟨hdel, m, hm, hused, by rw [← hpath', hpath]⟩)

end Tables

/-- **When `grep` searches a directory.** Each current text strictly below `d` is searched once, and
nothing else is, if and only if every file below `d` is the one that is found under its path, no
read-only text below `d` is hidden by a file, and (this fails for the root) the current texts below
`d` are those whose path has a slash behind that of `d`. -/
theorem grep_searches_subtree_iff (texts : VNode → Option CStr) {fs : Pigfs} (cwd : CStr) {g : GrepArgs}
    (hd : (fsFindVnode fs g.file).any (·.isDir) = true) :
    (∃ calls, grepCalls texts fs cwd g = .ok calls ∧ Enumerates calls (SearchedBelow texts fs g.file)) ↔
      GrepsSubtree texts fs g.file := by
  have hplain : PlainPath g.file := by
    cases hfind : fsFindVnode fs g.file with
    | none => rw [hfind] at hd; cases hd
    | some n =>
      obtain ⟨hn, hpath⟩ := mem_vfs_of_fsFindVnode hfind
      rw [← hpath]
      exact vfs_plain hn
  have hcalls : grepCalls texts fs cwd g = .ok (grepTables texts fs (grepBelow g.file) g.file.length) := by
    unfold grepCalls
    rw [if_neg hplain.ne_nil, hplain.fsResolve_eq cwd, if_pos hd]
  rw [hcalls, ← grepTables_enumerates_iff hplain.ne_nil]
  constructor
  · rintro ⟨calls, heq, h⟩
    rw [Except.ok.inj heq]
    exact h
  · intro h
    exact ⟨_, rfl, h⟩

/-- A table with a text for every node. -/
def oinkTexts (_ : VNode) : Option CStr := some (cstr "oink")

/-- The programs of `/usr/bin`, right after boot. -/
theorem grep_searches_usrBin :
    ∃ calls, grepCalls oinkTexts (boot zeroStore).fs (cstr "/") (grepArgs (cstr "oink /usr/bin")) = .ok calls ∧
      Enumerates calls (SearchedBelow oinkTexts (boot zeroStore).fs (grepArgs (cstr "oink /usr/bin")).file) := by
  have hd : (fsFindVnode (boot zeroStore).fs (grepArgs (cstr "oink /usr/bin")).file).any (·.isDir) = true := by
    decide +kernel
  refine (grep_searches_subtree_iff oinkTexts (cstr "/") hd).mpr ?_
  have hfile : (grepArgs (cstr "oink /usr/bin")).file = cstr "/usr/bin" := by decide
  have hdir : asDir (cstr "/usr/bin") = cstr "/usr/bin" ++ [slash] := by decide
  have hslots : ∀ m ∈ (boot zeroStore).fs.memfs, ¬cstr "/usr/bin" ++ [slash] <+: m.cpath := by decide +kernel
  have hnodes : ∀ n ∈ vfs, cstr "/usr/bin" ++ [slash] <+: n.path → memfsFind (boot zeroStore).fs n.path = none := by
    decide +kernel
  rw [hfile]
  refine ⟨?_, ?_, fun n hn _ _ _ hbelow => hnodes n hn hbelow⟩
  · intro x c _ hbelow
    rw [← hdir]
    exact hbelow.1
  · intro i m hm _ _ hbelow
    exact absurd hbelow (hslots m (mem_of_getElem? hm))

/-- Right after boot nothing is searched below the root; and in `/etc` a file is searched twice. -/
theorem grep_searches_root_nowhere :
    Reachable (boot zeroStore) ∧ (fsFindVnode (boot zeroStore).fs (cstr "/")).any (·.isDir) = true ∧
    grepCalls oinkTexts (boot zeroStore).fs (cstr "/") (grepArgs (cstr "oink /")) = .ok [] ∧
    SearchedBelow oinkTexts (boot zeroStore).fs (cstr "/") ⟨cstr "/README.txt", cstr "README.txt", cstr "oink"⟩ ∧
    ((grepTables oinkTexts (boot zeroStore).fs (grepBelow (cstr "/etc")) 4).map (·.path)).count
      (cstr "/etc/skel/.lashrc") = 2 := by
  -- one evaluation for all that searches the table: it is decoded once
  obtain ⟨hnode, hnowhere, htwice⟩ :
      fsFindVnode (boot zeroStore).fs (cstr "/README.txt") = some ⟨cstr "/README.txt", false⟩ ∧
      grepCalls oinkTexts (boot zeroStore).fs (cstr "/") (grepArgs (cstr "oink /")) = .ok [] ∧
      ((grepTables oinkTexts (boot zeroStore).fs (grepBelow (cstr "/etc")) 4).map (·.path)).count
        (cstr "/etc/skel/.lashrc") = 2 := by decide +kernel
  have hfile : memfsAt (boot zeroStore).fs (cstr "/README.txt") = none := by
    rw [memfsAt_eq_none_iff]
    decide +kernel
  refine ⟨⟨zeroStore, [], by decide, rfl⟩, by decide +kernel, hnowhere, ⟨?_, by decide, by decide⟩, htwice⟩
  rw [CurrentText, hfile]
  exact ⟨_, hnode, rfl, rfl⟩

end PigOS.Shell
