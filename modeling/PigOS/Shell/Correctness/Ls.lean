import PigOS.Shell.Correctness.Find
import PigOS.Shell.Correctness.Navigation

/-!
# `Shell.Correctness.Ls` — which directories `ls -a` lists as they are

The children of a directory are the names that begin what follows its path in a visible path
(`Children`). `ls` prints behind one another what the read-only table and the files made at run time
give; from the read-only table it takes the nodes directly below the path only. A directory that is
stored with a slash behind its name is listed under that spelling, and then no path of the read-only
table matches.
-/

namespace PigOS.Shell

open Kernel Enumeration List

variable {n d path rel : CStr} {m : MemFile} {texts : VNode → Option CStr} {ms : List MemFile} {q : LsFlags}

/-! ## Names below a directory -/

/-- A name that an entry of a directory can have. -/
def ChildName (n : CStr) : Prop := n ≠ [] ∧ slash ∉ n

/-- `n` names a child of `d`: `d/n`, or something below it, is visible. -/
def Children (fs : Pigfs) (d n : CStr) : Prop := ChildName n ∧ ∃ x, Visible fs x ∧ AtOrBelow (asDir d ++ n) x

/-- `ls -a d` prints the names of the children of `d`, beside `.` and `..`. -/
def LsShows (texts : VNode → Option CStr) (fs : Pigfs) (cwd d : CStr) : Prop :=
  ∃ long dots es, fsLs texts fs cwd (cstr "-a " ++ d) = some (.listing long dots es) ∧
    Enumerates (es.map (·.name)) (Children fs d)

lemma isChildName_iff : isChildName n = true ↔ ChildName n := by
  simp [isChildName, ChildName]

lemma asDir_of_slash (h : d.getLast? = some slash) : asDir d = d := if_pos h

lemma asDir_of_not_slash (h : d.getLast? ≠ some slash) : asDir d = d ++ [slash] := if_neg h

lemma asDir_asDir (d : CStr) : asDir (asDir d) = asDir d := by
  by_cases h : d.getLast? = some slash
  · rw [asDir_of_slash h, asDir_of_slash h]
  · rw [asDir_of_not_slash h]
    exact asDir_of_slash getLast?_concat

lemma getLast?_asDir (d : CStr) : (asDir d).getLast? = some slash := by
  by_cases h : d.getLast? = some slash
  · rw [asDir_of_slash h]
    exact h
  · rw [asDir_of_not_slash h]
    exact getLast?_concat

lemma ChildName.asDir_append (h : ChildName n) (p : CStr) : asDir (p ++ n) = p ++ n ++ [slash] := by
  apply asDir_of_not_slash
  rw [getLast?_append_of_ne_nil p h.1]
  intro hlast
  exact h.2 (mem_of_getLast? hlast)

lemma ChildName.atOrBelow_iff (h : ChildName n) (p x : CStr) :
    AtOrBelow (p ++ n) x ↔ x = p ++ n ∨ ∃ r, x = p ++ (n ++ slash :: r) := by
  unfold AtOrBelow
  rw [h.asDir_append p]
  refine or_congr_right ?_
  constructor
  · rintro ⟨r, rfl⟩
    exact ⟨r, by simp⟩
  · rintro ⟨r, rfl⟩
    exact ⟨r, by simp⟩

lemma takeWhile_name (h : slash ∉ n) (r : CStr) : (n ++ slash :: r).takeWhile (· ≠ slash) = n := by
  rw [takeWhile_append_of_pos]
  · simp
  · intro c hc
    exact decide_eq_true fun heq => h (heq ▸ hc)

lemma lastName_append (h : slash ∉ n) (p : CStr) : lastName (p ++ slash :: n) = n := by
  unfold lastName
  have hrev : (p ++ slash :: n).reverse = n.reverse ++ slash :: p.reverse := by simp
  rw [hrev, takeWhile_name (fun hmem => h (mem_reverse.mp hmem)), reverse_reverse]

/-! ## The nodes of the read-only table -/

/-- The spelling of `path` in front of a name: the root alone has its slash already. -/
def nodeDir (path : CStr) : CStr := if path = [slash] then path else path ++ [slash]

lemma lsSees_iff {vp : CStr} : lsSees path vp = true ↔ ∃ n, ChildName n ∧ vp = nodeDir path ++ n := by
  unfold lsSees nodeDir
  by_cases hroot : path = [slash]
  · subst hroot
    rw [if_pos rfl, if_pos rfl]
    simp only [Bool.and_eq_true, decide_eq_true_eq]
    constructor
    · rintro ⟨-, hhead, hname⟩
      obtain ⟨rest, rfl⟩ := head?_eq_some_iff.mp hhead
      exact ⟨rest, isChildName_iff.mp hname, rfl⟩
    · rintro ⟨n, hn, rfl⟩
      refine ⟨?_, rfl, isChildName_iff.mpr hn⟩
      have hpos := length_pos_of_ne_nil hn.1
      simp only [length_append, length_singleton]
      omega
  · rw [if_neg hroot, if_neg hroot]
    simp only [Bool.and_eq_true, decide_eq_true_eq, ksnc_eq_zero]
    constructor
    · rintro ⟨-, ⟨⟨rest, rfl⟩, hslash⟩, hname⟩
      rw [getElem?_append_right (Nat.le_refl _), Nat.sub_self] at hslash
      obtain ⟨n, rfl⟩ : ∃ n, rest = slash :: n := by
        rw [← head?_eq_getElem?] at hslash
        exact head?_eq_some_iff.mp hslash
      refine ⟨n, isChildName_iff.mp ?_, by simp⟩
      rwa [drop_append, drop_of_length_le (by omega), Nat.add_sub_cancel_left] at hname
    · rintro ⟨n, hn, rfl⟩
      refine ⟨by simp, ⟨⟨[slash] ++ n, by simp⟩, by simp⟩, ?_⟩
      rw [drop_left' (by simp)]
      exact isChildName_iff.mpr hn

/-- The first loop prints `n` when `n` is the name of a node directly below `path`. -/
def NodeName (fs : Pigfs) (path n : CStr) : Prop := ChildName n ∧ fsFindVnode fs (nodeDir path ++ n) ≠ none

lemma lastName_nodeDir (hn : ChildName n) (path : CStr) : lastName (nodeDir path ++ n) = n := by
  unfold nodeDir
  split
  next hroot =>
    rw [hroot]
    exact lastName_append hn.2 []
  next =>
    rw [append_assoc]
    exact lastName_append hn.2 path

variable {fs : Pigfs}

lemma lsVnode_eq_some_iff {v : VNode} : (lsVnode texts true fs path v).map (·.name) = some n ↔
      fsIsDeleted fs v.path = false ∧ ChildName n ∧ v.path = nodeDir path ++ n := by
  unfold lsVnode
  constructor
  · intro h
    split at h
    next => cases h
    next hdel =>
      split at h
      next => cases h
      next hsees =>
        rw [Bool.not_eq_true, Bool.not_eq_false'] at hsees
        obtain ⟨k, hk, hpath⟩ := lsSees_iff.mp hsees
        have hlast : lastName v.path = k := by rw [hpath, lastName_nodeDir hk]
        rw [hlast, if_neg hk.1, if_neg (by simp)] at h
        obtain rfl : k = n := Option.some.inj h
        exact ⟨Bool.eq_false_iff.mpr hdel, hk, hpath⟩
  · rintro ⟨hdel, hn, hpath⟩
    have hsees : lsSees path v.path = true := lsSees_iff.mpr ⟨n, hn, hpath⟩
    have hlast : lastName v.path = n := by rw [hpath, lastName_nodeDir hn]
    rw [if_neg (by rw [hdel]; exact Bool.false_ne_true), if_neg (by rw [hsees]; decide)]
    rw [hlast, if_neg hn.1, if_neg (by simp)]
    rfl

lemma lsVnodes_enumerates (texts : VNode → Option CStr) (fs : Pigfs) (path : CStr) :
    Enumerates ((vfs.filterMap (lsVnode texts true fs path)).map (·.name)) (NodeName fs path) := by
  rw [map_filterMap]
  constructor
  · -- two nodes of one name would have one path
    refine pairwise_filterMap.mpr ((pairwise_map.mp vfs_paths_nodup).imp ?_)
    intro v v' hne n hv n' hv' hnn
    obtain ⟨-, -, hpath⟩ := lsVnode_eq_some_iff.mp hv
    obtain ⟨-, -, hpath'⟩ := lsVnode_eq_some_iff.mp hv'
    exact hne (by rw [hpath, hpath', hnn])
  · intro n
    rw [mem_filterMap]
    unfold NodeName
    rw [fsFindVnode_ne_none_iff, mem_map]
    constructor
    · rintro ⟨v, hv, hname⟩
      obtain ⟨hdel, hn, hpath⟩ := lsVnode_eq_some_iff.mp hname
      rw [← hpath]
      exact ⟨hn, hdel, v, hv, rfl⟩
    · rintro ⟨hn, hdel, v, hv, hpath⟩
      exact ⟨v, hv, lsVnode_eq_some_iff.mpr ⟨hpath ▸ hdel, hn, hpath⟩⟩

/-! ## The files made at run time -/

/-- A slot that the second loop looks at, with what follows the path of the directory. -/
structure SlotRel (fs : Pigfs) (path : CStr) (m : MemFile) (rel : CStr) : Prop where
  used : m.used ≠ 0
  alive : fsIsDeleted fs m.cpath = false
  cpath : m.cpath = asDir path ++ rel
  /-- the directory itself, when its path ends with a slash, is not one of its entries -/
  ne : path.getLast? = some slash → rel ≠ []

lemma lsSlot_of_rel (h : SlotRel fs path m rel) : lsSlot true fs path m = relName rel := by
  have hpre : ksnc m.cpath path path.length = 0 := by
    rw [ksnc_eq_zero, h.cpath]
    exact (prefix_asDir path).trans (prefix_append _ _)
  unfold lsSlot
  dsimp only
  rw [if_neg h.used, if_neg (by rw [h.alive]; exact Bool.false_ne_true)]
  by_cases hslash : path.getLast? = some slash
  · have hpath := h.cpath
    rw [asDir_of_slash hslash] at hpath
    have hpos := length_pos_of_ne_nil (h.ne hslash)
    rw [if_neg (by rw [hpath, length_append]; omega), if_neg (not_not.mpr hpre), if_neg (fun hc => hc.1 hslash),
      if_neg (not_not.mpr hslash), hpath, drop_left]
    cases relName rel <;> rfl
  · have hpath := h.cpath
    rw [asDir_of_not_slash hslash, append_assoc] at hpath
    have hdrop : m.cpath.drop path.length = slash :: rel := by rw [hpath, drop_left]; rfl
    rw [if_neg (by rw [hpath, length_append, length_append, length_singleton]; omega),
      if_neg (not_not.mpr hpre), hdrop, if_neg (fun hc => hc.2 rfl), if_pos hslash, drop_one, tail_cons]
    cases relName rel <;> rfl

lemma lsSlot_of_not_rel (h : ∀ rel, ¬SlotRel fs path m rel) : lsSlot true fs path m = .skip := by
  unfold lsSlot
  dsimp only
  split
  next => rfl
  next hused =>
    split
    next => rfl
    next hdel =>
      split
      next => rfl
      next hlen =>
        split
        next => rfl
        next hpre =>
          split
          next => rfl
          next hslash =>
            -- the slot passes every test, so its path does continue that of the directory
            exfalso
            rw [not_not, ksnc_eq_zero] at hpre
            obtain ⟨rest, hrest⟩ := hpre
            rw [← hrest, drop_left] at hslash
            rw [← hrest, length_append] at hlen
            by_cases hend : path.getLast? = some slash
            · refine h rest ⟨hused, Bool.eq_false_iff.mpr hdel, ?_, fun _ hnil => ?_⟩
              · rw [asDir_of_slash hend, hrest]
              · rw [hnil, length_nil] at hlen
                omega
            · obtain ⟨rel, rfl⟩ := head?_eq_some_iff.mp (not_not.mp fun hne => hslash ⟨hend, hne⟩)
              refine h rel ⟨hused, Bool.eq_false_iff.mpr hdel, ?_, fun hc => absurd hc hend⟩
              rw [asDir_of_not_slash hend, ← hrest, append_assoc]
              rfl

variable {e : CStr}

lemma relName_eq_name_iff : relName rel = .name e ↔
      e.length < entryBuf ∧ slash ∉ e ∧ (rel = e ∨ e ≠ [] ∧ ∃ r, rel = e ++ slash :: r) := by
  unfold relName
  by_cases hslash : slash ∈ rel
  · rw [if_pos (contains_iff_mem.mpr hslash)]
    dsimp only
    obtain ⟨n, r, rfl, hn⟩ := eq_append_cons_of_mem hslash
    rw [takeWhile_name hn]
    constructor
    · intro h
      split at h
      next => cases h
      next hlen =>
        rw [not_or, Nat.not_le] at hlen
        obtain rfl := SlotName.name.inj h
        exact ⟨hlen.1, hn, .inr ⟨hlen.2, r, rfl⟩⟩
    · rintro ⟨hlen, he, rfl | ⟨hne, r', heq⟩⟩
      · exact absurd (mem_append_right n (mem_cons_self)) he
      · obtain rfl : n = e := by rw [← takeWhile_name hn r, heq, takeWhile_name he]
        rw [if_neg (not_or.mpr ⟨Nat.not_le.mpr hlen, hne⟩)]
  · rw [if_neg (fun hc => hslash (contains_iff_mem.mp hc))]
    constructor
    · intro h
      split at h
      next => cases h
      next hlen =>
        obtain rfl := SlotName.name.inj h
        exact ⟨Nat.not_le.mp hlen, hslash, .inl rfl⟩
    · rintro ⟨hlen, he, rfl | ⟨-, r, rfl⟩⟩
      · rw [if_neg (Nat.not_le.mpr hlen)]
      · exact absurd (mem_append_right e (mem_cons_self)) hslash

lemma relName_eq_overflow_iff : relName rel = .overflow ↔ slash ∉ rel ∧ entryBuf ≤ rel.length := by
  unfold relName
  by_cases hslash : slash ∈ rel
  · rw [if_pos (contains_iff_mem.mpr hslash)]
    dsimp only
    split
    · simp [hslash]
    · simp [hslash]
  · rw [if_neg (fun hc => hslash (contains_iff_mem.mp hc))]
    split
    next hlen => simp [hslash, hlen]
    next hlen => simp [hlen]

/-- The second loop finds the name `n` in one of the slots. -/
def SlotNamed (fs : Pigfs) (path n : CStr) : Prop := ∃ m ∈ fs.memfs, lsSlot true fs path m = .name n

/-- A file made at run time is found under `d/n`, or below it. -/
def FileBelow (fs : Pigfs) (d n : CStr) : Prop := ∃ x, memfsFind fs x ≠ none ∧ AtOrBelow (asDir d ++ n) x

lemma lsSlot_eq_iff {r : SlotName} (hr : r ≠ .skip) :
    lsSlot true fs path m = r ↔ ∃ rel, SlotRel fs path m rel ∧ relName rel = r := by
  constructor
  · intro h
    by_contra hnone
    have hskip : lsSlot true fs path m = .skip := by
      apply lsSlot_of_not_rel
      intro rel hrel
      exact hnone ⟨rel, hrel, lsSlot_of_rel hrel ▸ h⟩
    exact hr (h.symm.trans hskip)
  · rintro ⟨rel, hrel, hname⟩
    rw [lsSlot_of_rel hrel, hname]

lemma lsSlot_eq_name_iff :
    lsSlot true fs path m = .name n ↔ ∃ rel, SlotRel fs path m rel ∧ relName rel = .name n :=
  lsSlot_eq_iff (by simp)

lemma slotNamed_not_mem (h : SlotNamed fs path n) : slash ∉ n := by
  obtain ⟨m, -, hslot⟩ := h
  obtain ⟨rel, -, hname⟩ := lsSlot_eq_name_iff.mp hslot
  exact (relName_eq_name_iff.mp hname).2.1

/-- A name is found when a file at or below it is, unless it is too long. -/
lemma slotNamed_iff (hn : ChildName n) : SlotNamed fs path n ↔ n.length < entryBuf ∧ FileBelow fs path n := by
  unfold SlotNamed FileBelow
  constructor
  · rintro ⟨m, hm, hslot⟩
    obtain ⟨rel, hrel, hname⟩ := lsSlot_eq_name_iff.mp hslot
    obtain ⟨hlen, -, hcases⟩ := relName_eq_name_iff.mp hname
    refine ⟨hlen, m.cpath, memfsFind_ne_none_iff.mpr ⟨hrel.alive, m, hm, hrel.used, rfl⟩, ?_⟩
    rw [hn.atOrBelow_iff, hrel.cpath]
    rcases hcases with rfl | ⟨-, r, rfl⟩
    · exact .inl rfl
    · exact .inr ⟨r, rfl⟩
  · rintro ⟨hlen, x, hfind, hbelow⟩
    obtain ⟨hdel, m, hm, hu, rfl⟩ := memfsFind_ne_none_iff.mp hfind
    refine ⟨m, hm, lsSlot_eq_name_iff.mpr ?_⟩
    rcases (hn.atOrBelow_iff _ _).mp hbelow with hpath | ⟨r, hpath⟩
    · refine ⟨n, ⟨hu, hdel, hpath, fun _ => hn.1⟩, relName_eq_name_iff.mpr ⟨hlen, hn.2, .inl rfl⟩⟩
    · refine ⟨n ++ slash :: r, ⟨hu, hdel, hpath, fun _ => by simp⟩, relName_eq_name_iff.mpr ?_⟩
      exact ⟨hlen, hn.2, .inr ⟨hn.1, r, rfl⟩⟩

/-- The directory's own slot gives an empty name when the path lacks the slash that the slot has. -/
lemma slotNamed_nil_iff :
    SlotNamed fs path [] ↔ path.getLast? ≠ some slash ∧ memfsFind fs (path ++ [slash]) ≠ none := by
  constructor
  · rintro ⟨m, hm, hslot⟩
    obtain ⟨rel, hrel, hname⟩ := lsSlot_eq_name_iff.mp hslot
    obtain ⟨-, -, rfl | ⟨hne, -⟩⟩ := relName_eq_name_iff.mp hname
    · have hend : path.getLast? ≠ some slash := fun hend => hrel.ne hend rfl
      refine ⟨hend, memfsFind_ne_none_iff.mpr ?_⟩
      have hpath := hrel.cpath
      rw [asDir_of_not_slash hend, append_nil] at hpath
      rw [← hpath]
      exact ⟨hrel.alive, m, hm, hrel.used, rfl⟩
    · exact absurd rfl hne
  · rintro ⟨hend, hfind⟩
    obtain ⟨hdel, m, hm, hu, hpath⟩ := memfsFind_ne_none_iff.mp hfind
    refine ⟨m, hm, lsSlot_eq_name_iff.mpr ⟨[], ⟨hu, hpath ▸ hdel, ?_, fun hc => absurd hc hend⟩, ?_⟩⟩
    · rw [hpath, asDir_of_not_slash hend, append_nil]
    · exact relName_eq_name_iff.mpr ⟨by decide, not_mem_nil, .inl rfl⟩

/-! ## Collecting the names -/

/-- The names of the table. -/
def entryNames (es : Entries) : List CStr := es.map (·.1)

lemma map_modify_fst (es : Entries) (j : Nat) (b : Bool) :
    (es.modify j fun e => (e.1, b)).map (·.1) = es.map (·.1) := by
  apply ext_getElem?
  intro i
  rw [getElem?_map, getElem?_modify, getElem?_map]
  split
  · cases es[i]? with
    | none => rfl
    | some e => rfl
  · cases es[i]? with
    | none => rfl
    | some e => rfl

lemma names_addEntry {es : Entries} (hlen : es.length < entriesMax) (e : CStr) (isDir : Bool) :
    entryNames (addEntry es e isDir) = if e ∈ entryNames es then entryNames es else entryNames es ++ [e] := by
  unfold addEntry entryNames
  split
  next j hj =>
    obtain ⟨hlt, hkey, -⟩ := findIdx?_eq_some_iff_getElem.mp hj
    rw [decide_eq_true_eq, ksc_eq_zero] at hkey
    have hmem : e ∈ es.map (·.1) := mem_map.mpr ⟨es[j], getElem_mem hlt, hkey⟩
    rw [if_pos hmem]
    split
    · exact map_modify_fst es j true
    · rfl
  next hnone =>
    have hmem : e ∉ es.map (·.1) := by
      intro hmem
      obtain ⟨a, ha, rfl⟩ := mem_map.mp hmem
      have hne := findIdx?_eq_none_iff.mp hnone a ha
      rw [decide_eq_false_iff_not, ksc_eq_zero] at hne
      exact hne rfl
    rw [if_neg hmem, if_pos hlen, map_append]
    rfl

/-- What the second loop leaves in the table, when no name runs over its array. -/
structure Collected (fs : Pigfs) (path : CStr) (ms : List MemFile) (es es' : Entries) : Prop where
  nodup : (entryNames es').Nodup
  mem : ∀ n, n ∈ entryNames es' ↔ n ∈ entryNames es ∨ ∃ m ∈ ms, lsSlot true fs path m = .name n

lemma lsSlots_collects (es : Entries)
    (hcap : es.length + ms.length ≤ entriesMax) (hnodup : (entryNames es).Nodup)
    (hfits : ∀ m ∈ ms, lsSlot true fs path m ≠ .overflow) :
    ∃ es', lsSlots true fs path ms es = some es' ∧ Collected fs path ms es es' := by
  induction ms generalizing es with
  | nil =>
    refine ⟨es, rfl, hnodup, fun n => ?_⟩
    simp
  | cons m ms ih =>
    rw [length_cons] at hcap
    rw [forall_mem_cons] at hfits
    rw [lsSlots]
    cases hslot : lsSlot true fs path m with
    | overflow => exact absurd hslot hfits.1
    | skip =>
      obtain ⟨es', hrun, hnd, hmem⟩ := ih es (by omega) hnodup hfits.2
      refine ⟨es', hrun, hnd, fun n => ?_⟩
      rw [hmem n, exists_mem_cons_iff, hslot]
      simp
    | name e =>
      have hnames := names_addEntry (show es.length < entriesMax by omega) e m.isDir
      have hlen : (addEntry es e m.isDir).length ≤ es.length + 1 := by
        have hlen := congrArg length hnames
        unfold entryNames at hlen
        rw [length_map] at hlen
        rw [hlen]
        split
        · rw [length_map]; omega
        · rw [length_append, length_map, length_singleton]
      have hnd : (entryNames (addEntry es e m.isDir)).Nodup := by
        rw [hnames]
        split
        next => exact hnodup
        next hnew => exact nodup_append'.mpr ⟨hnodup, nodup_singleton e, by simpa using hnew⟩
      obtain ⟨es', hrun, hnd', hmem⟩ := ih (addEntry es e m.isDir) (by omega) hnd hfits.2
      refine ⟨es', hrun, hnd', fun n => ?_⟩
      have hadd : n ∈ entryNames (addEntry es e m.isDir) ↔ n ∈ entryNames es ∨ n = e := by
        rw [hnames]
        split
        next hold =>
          constructor
          · exact .inl
          · rintro (h | rfl)
            · exact h
            · exact hold
        next => rw [mem_append, mem_singleton]
      rw [hmem n, hadd, exists_mem_cons_iff, hslot, or_assoc]
      refine or_congr_right (or_congr_left ?_)
      constructor
      · rintro rfl; rfl
      · intro h; exact (SlotName.name.inj h).symm

lemma lsSlots_eq_none (hm : m ∈ ms)
    (hover : lsSlot true fs path m = .overflow) (es : Entries) : lsSlots true fs path ms es = none := by
  induction ms generalizing es with
  | nil => cases hm
  | cons m' ms ih =>
    rw [lsSlots]
    cases hslot : lsSlot true fs path m' with
    | overflow => rfl
    | skip =>
      rcases mem_cons.mp hm with rfl | hm
      · rw [hover] at hslot; cases hslot
      · exact ih hm es
    | name e =>
      rcases mem_cons.mp hm with rfl | hm
      · rw [hover] at hslot; cases hslot
      · exact ih hm _

/-! ## A listing under a path -/

/-- The listing of `path` shows the children of `d`. -/
structure ListsAt (fs : Pigfs) (path d : CStr) : Prop where
  /-- no name runs over its array -/
  fits : ∀ m ∈ fs.memfs, lsSlot true fs path m ≠ .overflow
  /-- no name comes from both tables -/
  apart : ∀ n, NodeName fs path n → ¬SlotNamed fs path n
  exact : ∀ n, Children fs d n ↔ NodeName fs path n ∨ SlotNamed fs path n

lemma lsList_enumerates_iff (hq : q.showHidden = true) (hcap : fs.memfs.length ≤ entriesMax) :
    (∃ long dots es, lsList texts q fs path = some (.listing long dots es) ∧
      Enumerates (es.map (·.name)) (Children fs d)) ↔ ListsAt fs path d := by
  unfold lsList
  rw [hq]
  by_cases hfits : ∀ m ∈ fs.memfs, lsSlot true fs path m ≠ .overflow
  · obtain ⟨es, hrun, hnodup, hmem⟩ :=
      lsSlots_collects [] (by rw [length_nil]; omega) nodup_nil hfits
    have hslots : ∀ n, n ∈ entryNames es ↔ SlotNamed fs path n := by
      intro n
      rw [hmem n]
      simp [entryNames, SlotNamed]
    have hnames : ∀ vs : List LsEntry,
        (vs ++ es.map fun e => (⟨e.1, if e.2 then .dir else .file⟩ : LsEntry)).map (·.name) =
          vs.map (·.name) ++ entryNames es := by
      intro vs
      rw [map_append, List.map_map]
      rfl
    have hiff := (lsVnodes_enumerates texts fs path).append_iff (S := Children fs d) hslots
    rw [← hnames] at hiff
    rw [hrun]
    constructor
    · rintro ⟨long, dots, vs, heq, henum⟩
      obtain ⟨-, -, rfl⟩ := LsOut.listing.inj (Option.some.inj heq)
      obtain ⟨-, hapart, hexact⟩ := hiff.mp henum
      exact ⟨hfits, hapart, hexact⟩
    · intro h
      exact ⟨_, _, _, rfl, hiff.mpr ⟨hnodup, h.apart, h.exact⟩⟩
  · constructor
    · rintro ⟨long, dots, vs, heq, -⟩
      push Not at hfits
      obtain ⟨m, hm, hover⟩ := hfits
      rw [lsSlots_eq_none hm hover] at heq
      cases heq
    · intro h
      exact absurd h.fits hfits

/-! ## The argument and the lookups -/

lemma lsFlags_showHidden (k : Nat) (p : CStr) (hq : q.showHidden = true) : (lsFlags k p q).1.showHidden = true := by
  induction k generalizing p q with
  | zero => exact hq
  | succ k ih =>
    rw [lsFlags]
    split
    · apply ih
      rw [hq, Bool.true_or, Bool.true_or]
    · exact hq

lemma lsArgs_dash_a (d : CStr) :
    lsArgs (cstr "-a " ++ d) = lsFlags (d.length + 3) (d.dropWhile (· = space)) ⟨false, true⟩ := rfl

lemma lsArgs_slash (h : d.head? = some slash) : (lsArgs (cstr "-a " ++ d)).2 = d := by
  obtain ⟨rest, rfl⟩ := head?_eq_some_iff.mp h
  rfl

lemma PlainPath.getLast?_ne (h : PlainPath e) (hroot : e ≠ [slash]) : LacksSlash e := by
  obtain ⟨rest, rfl⟩ := head?_eq_some_iff.mp h.head
  have hlen : 1 < (slash :: rest).length := by
    have hpos : 0 < rest.length := length_pos_of_ne_nil fun hnil => hroot (by rw [hnil])
    rw [length_cons]
    omega
  refine ⟨hlen, fun hlast => ?_⟩
  have hnormal := congrArg List.length h.normal
  have hle := length_collapseSlashes_le (slash :: rest).dropLast
  rw [pathNormalize, if_pos ⟨hlen, hlast⟩] at hnormal
  rw [hnormal, length_dropLast] at hle
  omega

lemma stripSlash_plain (h : PlainPath e) (hd : d = e ∨ d = asDir e) : stripSlash d = e := by
  unfold stripSlash
  by_cases hroot : e = [slash]
  · subst hroot
    obtain rfl : d = [slash] := by
      rcases hd with hd | hd
      · exact hd
      · exact hd.trans (asDir_of_slash rfl)
    rfl
  · have hlacks := h.getLast?_ne hroot
    rcases hd with rfl | rfl
    · rw [if_neg fun hc => hlacks.2 hc.2]
    · have hlen : 1 < (e ++ [slash]).length := by
        rw [length_append]
        exact Nat.lt_add_right _ hlacks.1
      rw [asDir_of_not_slash hlacks.2, if_pos ⟨hlen, getLast?_concat⟩, dropLast_concat]

section Lookups

variable {fs : Pigfs} {p : CStr}

lemma memfsAt_eq_none_iff : memfsAt fs p = none ↔ memfsFind fs p = none := by
  unfold memfsAt
  constructor
  · intro h
    cases hfind : memfsFind fs p with
    | none => rfl
    | some i =>
      obtain ⟨-, ⟨m, hm, -⟩, -⟩ := memfsFind_eq_some_iff.mp hfind
      rw [hfind, Option.bind_some, hm] at h
      cases h
  · intro h
    rw [h, Option.bind_none]

lemma memfsAt_cpath (h : memfsAt fs p = some m) : m.cpath = p := by
  obtain ⟨i, hfind, hi⟩ := Option.bind_eq_some_iff.mp h
  obtain ⟨-, ⟨m', hm', -, hpath⟩, -⟩ := memfsFind_eq_some_iff.mp hfind
  rw [hi] at hm'
  rw [Option.some.inj hm', hpath]

lemma memfsDir_eq : memfsDir fs p = (memfsAt fs p).any (·.isDir) := rfl

lemma root_visible (h : DelInv fs) : fsFindVnode fs [slash] ≠ none := by
  rw [fsFindVnode_ne_none_iff]
  refine ⟨?_, mem_map.mpr ⟨⟨cstr "/", true⟩, by decide, by decide⟩⟩
  rw [Bool.eq_false_iff, ne_eq, h.fsIsDeleted_iff]
  intro hmem
  have hcritical := (mem_deletable.mp (h.deletable _ hmem)).2
  exact absurd hcritical (by decide)

/-- The lookups for a path that is read as it is typed: the later ones repeat the second and the
third. -/
lemma lsTarget_plain (h : PlainPath e) (hlen : e.length + 1 < pathBuf) (hroot : e ≠ [slash])
    (hnode : fsFindVnode fs e = none) (hfile : memfsFind fs e = none) :
    lsTarget fs e e = some (((memfsAt fs (e ++ [slash])).map MemFile.lsTarget).getD .missing) := by
  have hstrip : stripSlash e = e := stripSlash_plain h (.inl rfl)
  have hnone : memfsAt fs e = none := memfsAt_eq_none_iff.mpr hfile
  have habs : lsAbs fs e = some (((memfsAt fs (e ++ [slash])).map MemFile.lsTarget).getD .missing) := by
    unfold lsAbs
    rw [if_neg fun hc => hc.1 h.head]
    dsimp only
    rw [if_pos h.head, hstrip, hnone]
    rw [if_neg (Nat.not_le.mpr hlen)]
    cases memfsAt fs (e ++ [slash]) with
    | none => rfl
    | some m => rfl
  unfold lsTarget
  rw [hnode, hnone]
  rw [if_pos (h.getLast?_ne hroot), if_neg (Nat.not_le.mpr hlen), habs]
  cases memfsAt fs (e ++ [slash]) with
  | none => rfl
  | some m => rfl

/-- A slot is listed as a directory only when it is one, and then under its own path. -/
lemma lsTarget_eq_list_iff : m.lsTarget = .list path ↔ path = m.cpath ∧ m.isDir = true := by
  unfold MemFile.lsTarget
  by_cases hdir : m.isDir = true
  · rw [if_pos hdir]
    constructor
    · intro heq
      exact ⟨(LsTarget.list.inj heq).symm, hdir⟩
    · rintro ⟨rfl, -⟩
      rfl
  · rw [if_neg hdir]
    constructor
    · intro heq
      cases heq
    · rintro ⟨-, hc⟩
      exact absurd hc hdir

lemma lsOpen_plain (cwd : CStr) (h : PlainPath e) (hlen : e.length + 1 < pathBuf)
    (hd : d = e ∨ d = asDir e) : lsOpen fs cwd d = lsTarget fs e e := by
  have hdlen : d.length < pathBuf := by
    rcases hd with rfl | rfl
    · exact h.length
    · have hle := (asDir_prefix_slash e).length_le
      rw [length_append, length_singleton] at hle
      omega
  have hne : d ≠ [] := by
    rcases hd with rfl | rfl
    · exact h.ne_nil
    · intro hnil
      have hlast := getLast?_asDir e
      rw [hnil] at hlast
      cases hlast
  unfold lsOpen lsPathArg
  rw [if_neg (Nat.not_le.mpr hdlen), if_neg hne, stripSlash_plain h hd, h.fsResolve_eq cwd]

/-- Under which path a directory is listed that is named as it is stored, or with a slash behind
it. -/
lemma lsOpen_eq_list_iff (hinv : DelInv fs) (cwd : CStr) (h : PlainPath e)
    (hlen : e.length + 1 < pathBuf) (hd : d = e ∨ d = asDir e) : lsOpen fs cwd d = some (.list path) ↔
      path = e ∧ (fsFindVnode fs e ≠ none ∨ memfsDir fs e = true) ∨
      path = e ++ [slash] ∧ fsFindVnode fs e = none ∧ memfsFind fs e = none ∧ memfsDir fs (e ++ [slash]) = true := by
  rw [lsOpen_plain cwd h hlen hd]
  cases hnode : fsFindVnode fs e with
  | some n =>
    rw [lsTarget, hnode]
    constructor
    · intro heq
      exact .inl ⟨(LsTarget.list.inj (Option.some.inj heq)).symm, .inl (Option.some_ne_none n)⟩
    · rintro (⟨rfl, -⟩ | ⟨-, hc, -⟩)
      · rfl
      · cases hc
  | none =>
    have hroot : e ≠ [slash] := by
      rintro rfl
      exact root_visible hinv hnode
    cases hfile : memfsAt fs e with
    | some m =>
      have hfound : memfsFind fs e ≠ none := by
        rw [ne_eq, ← memfsAt_eq_none_iff, hfile]
        simp
      have htarget : lsTarget fs e e = some m.lsTarget := by
        rw [lsTarget, hnode, hfile]
        simp only [MemFile.lsTarget, memfsAt_cpath hfile]
      rw [htarget, Option.some_inj, lsTarget_eq_list_iff, memfsAt_cpath hfile, memfsDir_eq, hfile]
      simp [hfound]
    | none =>
      have hfound := memfsAt_eq_none_iff.mp hfile
      rw [lsTarget_plain h hlen hroot hnode hfound, memfsDir_eq, memfsDir_eq, hfile]
      cases hslash : memfsAt fs (e ++ [slash]) with
      | none => simp
      | some m =>
        rw [Option.map_some, Option.getD_some, Option.some_inj, lsTarget_eq_list_iff, memfsAt_cpath hslash]
        simp [hfound]

end Lookups

/-! ## The directories that are listed as they are -/

/-- A node of the read-only table is found under `d/n`, or below it. -/
def NodeBelow (fs : Pigfs) (d n : CStr) : Prop := ∃ x, fsFindVnode fs x ≠ none ∧ AtOrBelow (asDir d ++ n) x

/-- The directory is found under its path as such, with no slash behind it. -/
def OpenedBare (fs : Pigfs) (d : CStr) : Prop := fsFindVnode fs d ≠ none ∨ memfsDir fs d = true

/-- What the state has to be like for `ls -a d` to print the children of `d`. -/
structure ListsChildren (fs : Pigfs) (d : CStr) : Prop where
  /-- the lookups come to a directory; a file of that name would be in front of one stored with a
  slash -/
  opens : OpenedBare fs d ∨ memfsFind fs d = none ∧ memfsDir fs (d ++ [slash]) = true
  /-- the names that files give fit their array -/
  fits : ∀ n, ChildName n → FileBelow fs d n → n.length < entryBuf
  /-- no name comes from both tables -/
  apart : OpenedBare fs d → ∀ n, ChildName n → fsFindVnode fs (asDir d ++ n) ≠ none → ¬FileBelow fs d n
  /-- the directory is not also stored with a slash, which would be an entry without a name -/
  single : OpenedBare fs d → d ≠ [slash] → memfsFind fs (d ++ [slash]) = none
  /-- a name that the read-only table has below `d` comes from a node of that name or from a file -/
  implied : ∀ n, ChildName n → NodeBelow fs d n →
    OpenedBare fs d ∧ fsFindVnode fs (asDir d ++ n) ≠ none ∨ FileBelow fs d n

lemma children_iff : Children fs d n ↔ ChildName n ∧ (NodeBelow fs d n ∨ FileBelow fs d n) := by
  unfold Children NodeBelow FileBelow Visible
  refine and_congr_right fun _ => ?_
  constructor
  · rintro ⟨x, hfile | hnode, hbelow⟩
    · exact .inr ⟨x, hfile, hbelow⟩
    · exact .inl ⟨x, hnode, hbelow⟩
  · rintro (⟨x, hnode, hbelow⟩ | ⟨x, hfile, hbelow⟩)
    · exact ⟨x, .inr hnode, hbelow⟩
    · exact ⟨x, .inl hfile, hbelow⟩

lemma NodeBelow.of_node (h : fsFindVnode fs (asDir d ++ n) ≠ none) : NodeBelow fs d n :=
  ⟨_, h, .inl rfl⟩

lemma exists_of_fsFindVnode_ne {p : CStr} (h : fsFindVnode fs p ≠ none) : ∃ v ∈ vfs, v.path = p := by
  obtain ⟨v, hv⟩ := Option.ne_none_iff_exists'.mp h
  exact ⟨v, mem_vfs_of_fsFindVnode hv⟩

lemma length_collapseSlashes_lt (p r : CStr) :
    (collapseSlashes (p ++ slash :: slash :: r)).length < (p ++ slash :: slash :: r).length := by
  induction p with
  | nil =>
    have hle := length_collapseSlashes_le (slash :: r)
    rw [nil_append, collapseSlashes, if_pos ⟨rfl, rfl⟩, length_cons]
    omega
  | cons a p ih =>
    obtain ⟨b, q, hq⟩ := exists_cons_of_ne_nil (show p ++ slash :: slash :: r ≠ [] by simp)
    rw [cons_append]
    rw [hq] at ih ⊢
    rw [collapseSlashes]
    split
    · exact Nat.lt_succ_of_lt ih
    · simp only [length_cons] at ih ⊢
      omega

lemma no_node_behind_two_slashes (p r : CStr) : fsFindVnode fs (p ++ slash :: slash :: r) = none := by
  by_contra hne
  obtain ⟨v, hv, hpath⟩ := exists_of_fsFindVnode_ne hne
  have hcanon := (vfs_canonical v hv).1
  have hnormal := pathNormalize_render (walk [] v.path)
  rw [hcanon, hpath, pathNormalize] at hnormal
  have hlt := length_collapseSlashes_lt p r
  split at hnormal
  next hlast =>
    have hle := length_collapseSlashes_le (p ++ slash :: slash :: r).dropLast
    rw [hnormal, length_dropLast] at hle
    have := hlast.1
    omega
  next =>
    rw [hnormal] at hlt
    exact Nat.lt_irrefl _ hlt

lemma length_node_lt (h : fsFindVnode fs (asDir d ++ n) ≠ none) : n.length < entryBuf := by
  obtain ⟨v, hv, hpath⟩ := exists_of_fsFindVnode_ne h
  have hle := (vfs_canonical v hv).2
  have hpos : 0 < (asDir d).length := by
    apply length_pos_of_ne_nil
    intro hnil
    have hlast := getLast?_asDir d
    rw [hnil] at hlast
    cases hlast
  rw [hpath, length_append] at hle
  unfold entryBuf
  omega

section Plain

variable {fs : Pigfs} {e : CStr}

/-- A slot whose name would run over its array gives a name that is too long. -/
lemma fits_of_short (hdir : asDir path = asDir d) (h : ∀ n, ChildName n → FileBelow fs d n → n.length < entryBuf) :
    ∀ m ∈ fs.memfs, lsSlot true fs path m ≠ .overflow := by
  intro m hm hover
  obtain ⟨rel, hrel, hname⟩ := (lsSlot_eq_iff (by simp)).mp hover
  obtain ⟨hslash, hlen⟩ := relName_eq_overflow_iff.mp hname
  have hchild : ChildName rel := by
    refine ⟨fun hnil => ?_, hslash⟩
    rw [hnil] at hlen
    exact absurd hlen (by decide)
  have hbelow : FileBelow fs d rel := by
    refine ⟨m.cpath, memfsFind_ne_none_iff.mpr ⟨hrel.alive, m, hm, hrel.used, rfl⟩, .inl ?_⟩
    rw [hrel.cpath, hdir]
  exact absurd (h rel hchild hbelow) (Nat.not_lt.mpr hlen)

/-- The names that the read-only table adds to the listing of a path without a slash behind it. -/
lemma nodeName_iff (hroot : e ≠ [slash] → e.getLast? ≠ some slash) :
    NodeName fs e n ↔ ChildName n ∧ fsFindVnode fs (asDir e ++ n) ≠ none := by
  have hdir : nodeDir e = asDir e := by
    unfold nodeDir
    split
    next hslash => rw [hslash]; exact (asDir_of_slash rfl).symm
    next hslash => exact (asDir_of_not_slash (hroot hslash)).symm
  rw [NodeName, hdir]

/-- Behind a slash the table is searched with two slashes, and no row has them. -/
lemma not_nodeName_slash (n : CStr) (hne : e ≠ []) : ¬NodeName fs (e ++ [slash]) n := by
  rintro ⟨-, hnode⟩
  apply hnode
  unfold nodeDir
  split
  next hslash =>
    rw [append_left_eq_self] at hslash
    exact absurd hslash hne
  next =>
    rw [append_assoc, append_assoc]
    exact no_node_behind_two_slashes e n

lemma slotNamed_slash_iff (hend : e.getLast? ≠ some slash) :
    SlotNamed fs (e ++ [slash]) n ↔ ChildName n ∧ n.length < entryBuf ∧ FileBelow fs e n := by
  have hbelow : FileBelow fs (e ++ [slash]) n ↔ FileBelow fs e n := by
    rw [FileBelow, FileBelow, ← asDir_of_not_slash hend, asDir_asDir]
  constructor
  · intro hslot
    have hn : ChildName n := by
      refine ⟨?_, slotNamed_not_mem hslot⟩
      rintro rfl
      exact (slotNamed_nil_iff.mp hslot).1 getLast?_concat
    rw [slotNamed_iff hn, hbelow] at hslot
    exact ⟨hn, hslot⟩
  · rintro ⟨hn, hslot⟩
    rw [slotNamed_iff hn, hbelow]
    exact hslot

lemma listsAt_bare_iff (hopen : OpenedBare fs e) (hroot : e ≠ [slash] → e.getLast? ≠ some slash) :
    ListsAt fs e e ↔ ListsChildren fs e := by
  have hnodes : ∀ n, NodeName fs e n ↔ ChildName n ∧ fsFindVnode fs (asDir e ++ n) ≠ none := fun _ => nodeName_iff hroot
  constructor
  · intro h
    have hshort : ∀ n, ChildName n → FileBelow fs e n → n.length < entryBuf := by
      intro n hn hfile
      rcases (h.exact n).mp (children_iff.mpr ⟨hn, .inr hfile⟩) with hnode | hslot
      · exact length_node_lt ((hnodes n).mp hnode).2
      · exact ((slotNamed_iff hn).mp hslot).1
    refine ⟨.inl hopen, hshort, ?_, ?_, ?_⟩
    · intro _ n hn hnode hfile
      exact h.apart n ((hnodes n).mpr ⟨hn, hnode⟩) ((slotNamed_iff hn).mpr ⟨hshort n hn hfile, hfile⟩)
    · intro _ hne
      by_contra hfind
      have hslot : SlotNamed fs e [] := slotNamed_nil_iff.mpr ⟨hroot hne, hfind⟩
      exact ((h.exact []).mpr (.inr hslot)).1.1 rfl
    · intro n hn hbelow
      rcases (h.exact n).mp (children_iff.mpr ⟨hn, .inl hbelow⟩) with hnode | hslot
      · exact .inl ⟨hopen, ((hnodes n).mp hnode).2⟩
      · exact .inr ((slotNamed_iff hn).mp hslot).2
  · intro h
    refine ⟨fits_of_short rfl h.fits, ?_, ?_⟩
    · intro n hnode hslot
      obtain ⟨hn, hnode⟩ := (hnodes n).mp hnode
      exact h.apart hopen n hn hnode ((slotNamed_iff hn).mp hslot).2
    · intro n
      rw [children_iff]
      constructor
      · rintro ⟨hn, hbelow⟩
        have hfile : FileBelow fs e n → NodeName fs e n ∨ SlotNamed fs e n := fun hfile =>
          .inr ((slotNamed_iff hn).mpr ⟨h.fits n hn hfile, hfile⟩)
        rcases hbelow with hnode | hbelow
        · rcases h.implied n hn hnode with ⟨-, hnode⟩ | hbelow
          · exact .inl ((hnodes n).mpr ⟨hn, hnode⟩)
          · exact hfile hbelow
        · exact hfile hbelow
      · rintro (hnode | hslot)
        · obtain ⟨hn, hnode⟩ := (hnodes n).mp hnode
          exact ⟨hn, .inl (NodeBelow.of_node hnode)⟩
        · by_cases hnil : n = []
          · -- the empty name would be the directory's own slot
            subst hnil
            obtain ⟨hend, hfind⟩ := slotNamed_nil_iff.mp hslot
            have hne : e ≠ [slash] := by
              rintro rfl
              exact hend rfl
            exact absurd (h.single hopen hne) hfind
          · have hn : ChildName n := ⟨hnil, slotNamed_not_mem hslot⟩
            exact ⟨hn, .inr ((slotNamed_iff hn).mp hslot).2⟩

/-- The listing under the path with a slash behind it: the read-only table adds nothing. -/
lemma listsAt_slash_iff (hclosed : ¬OpenedBare fs e) (hfile : memfsFind fs e = none)
    (hopen : memfsDir fs (e ++ [slash]) = true) (hne : e ≠ []) (hend : e.getLast? ≠ some slash) :
    ListsAt fs (e ++ [slash]) e ↔ ListsChildren fs e := by
  have hdir : asDir (e ++ [slash]) = asDir e := by rw [← asDir_of_not_slash hend, asDir_asDir]
  have hnodes : ∀ n, ¬NodeName fs (e ++ [slash]) n := fun n => not_nodeName_slash n hne
  have hslots : ∀ n, SlotNamed fs (e ++ [slash]) n ↔ ChildName n ∧ n.length < entryBuf ∧ FileBelow fs e n :=
    fun _ => slotNamed_slash_iff hend
  constructor
  · intro h
    have hnamed : ∀ n, ChildName n → (NodeBelow fs e n ∨ FileBelow fs e n) → n.length < entryBuf ∧
        FileBelow fs e n := by
      intro n hn hchild
      rcases (h.exact n).mp (children_iff.mpr ⟨hn, hchild⟩) with hnode | hslot
      · exact absurd hnode (hnodes n)
      · exact ((hslots n).mp hslot).2
    refine ⟨.inr ⟨hfile, hopen⟩, ?_, fun hc => absurd hc hclosed, fun hc => absurd hc hclosed, ?_⟩
    · intro n hn hfile
      exact (hnamed n hn (.inr hfile)).1
    · intro n hn hnode
      exact .inr (hnamed n hn (.inl hnode)).2
  · intro h
    refine ⟨fits_of_short hdir h.fits, fun n hnode => absurd hnode (hnodes n), ?_⟩
    intro n
    rw [children_iff, hslots n, or_iff_right (hnodes n)]
    refine and_congr_right fun hn => ?_
    constructor
    · intro hchild
      have hfile : FileBelow fs e n := by
        rcases hchild with hnode | hfile
        · rcases h.implied n hn hnode with ⟨hbare, -⟩ | hfile
          · exact absurd hbare hclosed
          · exact hfile
        · exact hfile
      exact ⟨h.fits n hn hfile, hfile⟩
    · rintro ⟨-, hfile⟩
      exact .inr hfile

end Plain

lemma children_asDir (fs : Pigfs) (d n : CStr) : Children fs (asDir d) n ↔ Children fs d n := by
  rw [Children, Children, asDir_asDir]

lemma listsAt_asDir (fs : Pigfs) (path d : CStr) : ListsAt fs path (asDir d) ↔ ListsAt fs path d := by
  constructor
  · intro h
    exact ⟨h.fits, h.apart, fun n => (children_asDir fs d n).symm.trans (h.exact n)⟩
  · intro h
    exact ⟨h.fits, h.apart, fun n => (children_asDir fs d n).trans (h.exact n)⟩

lemma lsShows_iff (hcap : fs.memfs.length ≤ entriesMax) (texts : VNode → Option CStr) (cwd d : CStr) :
    LsShows texts fs cwd d ↔
      ∃ path, lsOpen fs cwd (lsArgs (cstr "-a " ++ d)).2 = some (.list path) ∧ ListsAt fs path d := by
  have hhidden : (lsArgs (cstr "-a " ++ d)).1.showHidden = true := by
    rw [lsArgs_dash_a]
    exact lsFlags_showHidden _ _ rfl
  unfold LsShows fsLs
  cases hopen : lsOpen fs cwd (lsArgs (cstr "-a " ++ d)).2 with
  | none => simp
  | some t =>
    cases t with
    | list path =>
      rw [lsList_enumerates_iff hhidden hcap]
      constructor
      · intro h
        exact ⟨path, rfl, h⟩
      · rintro ⟨path', hpath, h⟩
        rw [LsTarget.list.inj (Option.some.inj hpath)]
        exact h
    | file path => simp
    | missing => simp

/-- **When `ls` lists a directory.** `ls -a d` prints, beside `.` and `..`, the names of the
children of `d`, each once and nothing else, if and only if the lookups end with a path under which
the two loops find just these names, and none twice. Where the directory is named as it is stored,
or with a slash behind that, this comes to `ListsChildren`. -/
theorem ls_shows_children_iff {s : Sys} (hs : Reachable s) (texts : VNode → Option CStr) (cwd d : CStr) :
    (LsShows texts s.fs cwd d ↔
      ∃ path, lsOpen s.fs cwd (lsArgs (cstr "-a " ++ d)).2 = some (.list path) ∧ ListsAt s.fs path d) ∧
    ∀ e, PlainPath e → e.length + 1 < pathBuf → d = e ∨ d = asDir e →
      (LsShows texts s.fs cwd d ↔ ListsChildren s.fs e) := by
  have hgeneral := lsShows_iff (show s.fs.memfs.length ≤ entriesMax from hs.memfs_length_le) texts cwd d
  refine ⟨hgeneral, fun e he hlen hd => ?_⟩
  have hhead : d.head? = some slash := by
    rcases hd with rfl | rfl
    · exact he.head
    · obtain ⟨r, hr⟩ := prefix_asDir e
      rw [← hr, head?_append_of_ne_nil e he.ne_nil]
      exact he.head
  have hlists : ∀ path, ListsAt s.fs path d ↔ ListsAt s.fs path e := by
    intro path
    rcases hd with rfl | rfl
    · exact Iff.rfl
    · exact listsAt_asDir s.fs path e
  have hend : e ≠ [slash] → e.getLast? ≠ some slash := fun hne => (he.getLast?_ne hne).2
  have hclosed : fsFindVnode s.fs e = none → memfsFind s.fs e = none → ¬OpenedBare s.fs e := by
    rintro hnode hfile (hc | hc)
    · exact hc hnode
    · exact memfsFind_of_memfsDir hc hfile
  have hslash : ¬OpenedBare s.fs e → e ≠ [slash] := by
    rintro hc rfl
    exact hc (.inl (root_visible hs.delInv))
  rw [hgeneral, lsArgs_slash hhead]
  simp only [lsOpen_eq_list_iff hs.delInv cwd he hlen hd, hlists]
  constructor
  · rintro ⟨path, ⟨rfl, hopen⟩ | ⟨rfl, hnode, hfile, hdir⟩, h⟩
    · exact (listsAt_bare_iff hopen hend).mp h
    · have hbare := hclosed hnode hfile
      exact (listsAt_slash_iff hbare hfile hdir he.ne_nil (hend (hslash hbare))).mp h
  · intro h
    by_cases hbare : OpenedBare s.fs e
    · exact ⟨e, .inl ⟨rfl, hbare⟩, (listsAt_bare_iff hbare hend).mpr h⟩
    · obtain ⟨hfile, hdir⟩ := h.opens.resolve_left hbare
      have hnode : fsFindVnode s.fs e = none := of_not_not fun hc => hbare (.inl hc)
      refine ⟨e ++ [slash], .inr ⟨rfl, hnode, hfile, hdir⟩, ?_⟩
      exact (listsAt_slash_iff hbare hfile hdir he.ne_nil (hend (hslash hbare))).mpr h

/-- The programs of `/usr/bin`, right after boot. -/
theorem ls_shows_usrBin : LsShows (fun _ => none) (boot zeroStore).fs (cstr "/") (cstr "/usr/bin") := by
  have hs : Reachable (boot zeroStore) := ⟨zeroStore, [], by decide, rfl⟩
  have hplain : PlainPath (cstr "/usr/bin") := ⟨by decide, by decide, by decide⟩
  refine ((ls_shows_children_iff hs _ _ _).2 (cstr "/usr/bin") hplain (by decide) (.inl rfl)).mpr ?_
  have hdir : asDir (cstr "/usr/bin") = cstr "/usr/bin/" := by decide
  have hfiles : ∀ m ∈ (boot zeroStore).fs.memfs, ¬cstr "/usr/bin/" <+: m.cpath := by decide +kernel
  have hflat : ∀ v ∈ vfs, cstr "/usr/bin/" <+: v.path → slash ∉ v.path.drop 9 := by decide +kernel
  have hbare : OpenedBare (boot zeroStore).fs (cstr "/usr/bin") := .inl (by decide +kernel)
  have hnone : ∀ n, ¬FileBelow (boot zeroStore).fs (cstr "/usr/bin") n := by
    rintro n ⟨x, hfind, hbelow⟩
    obtain ⟨-, m, hm, -, rfl⟩ := memfsFind_ne_none_iff.mp hfind
    rw [hdir] at hbelow
    exact hfiles m hm ((prefix_append _ n).trans hbelow.isPrefix)
  refine ⟨.inl hbare, fun n _ h => absurd h (hnone n), fun _ n _ _ => hnone n, fun _ _ => by decide +kernel, ?_⟩
  rintro n hn ⟨x, hfind, hbelow⟩
  rw [hdir] at hbelow ⊢
  rcases (hn.atOrBelow_iff _ _).mp hbelow with rfl | ⟨r, rfl⟩
  · exact .inl ⟨hbare, hfind⟩
  · -- the table has no directory below `/usr/bin`
    exfalso
    obtain ⟨v, hv, hpath⟩ := exists_of_fsFindVnode_ne hfind
    have hslash := hflat v hv (hpath ▸ prefix_append _ _)
    rw [hpath, drop_left' (by decide)] at hslash
    exact hslash (mem_append_right n mem_cons_self)

/-- The names in a listing. -/
def shownNames : Option LsOut → List CStr
  | some (.listing _ _ es) => es.map (·.name)
  | _ => []

/-- Right after boot `ls -a /etc` prints a name twice, and `ls -a /etc/skel` an empty one. -/
theorem ls_shows_skel_twice :
    Reachable (boot zeroStore) ∧ IsDirectory (boot zeroStore).fs (cstr "/etc") ∧
    ¬LsShows (fun _ => none) (boot zeroStore).fs (cstr "/") (cstr "/etc") ∧
    (shownNames (fsLs (fun _ => none) (boot zeroStore).fs (cstr "/") (cstr "-a /etc"))).count (cstr "skel") = 2 ∧
    [] ∈ shownNames (fsLs (fun _ => none) (boot zeroStore).fs (cstr "/") (cstr "-a /etc/skel")) := by
  -- one evaluation for both listings: the table is decoded once
  obtain ⟨htwice, hempty⟩ :
      (shownNames (fsLs (fun _ => none) (boot zeroStore).fs (cstr "/") (cstr "-a /etc"))).count (cstr "skel") = 2 ∧
      [] ∈ shownNames (fsLs (fun _ => none) (boot zeroStore).fs (cstr "/") (cstr "-a /etc/skel")) := by decide +kernel
  refine ⟨⟨zeroStore, [], by decide, rfl⟩, by decide +kernel, ?_, htwice, hempty⟩
  rintro ⟨long, dots, es, hls, henum⟩
  have hargs : cstr "-a " ++ cstr "/etc" = cstr "-a /etc" := by decide
  rw [hargs] at hls
  rw [hls] at htwice
  have hle := nodup_iff_count_le_one.mp henum.nodup (cstr "skel")
  rw [show (es.map (·.name)).count (cstr "skel") = 2 from htwice] at hle
  omega

end PigOS.Shell
