import PigOS.Shell.Correctness.GrepTree

/-!
# `Shell.Correctness.Creation` — what the commands that make files find, and what they leave

A directory can be stored with a slash behind its path, and `mkdir` does not look at the read-only
table at all: what is reported as created may have been there already. `adduser` makes a directory
and two files without looking whether it got them. What one creation leaves is one lemma
(`memfsAt_createWith`), what it does not touch another (`memfsAt_createWith_of_ne`).
-/

namespace PigOS.Shell

open Kernel List

variable {db : UserDb} {f : Group → Group} {fs : Pigfs}

/-! ## One node under two spellings -/

/-- `q` is the path `p` with a slash added or taken away at its end. -/
def OtherSpelling (p q : CStr) : Prop := q = p ++ [slash] ∨ p = q ++ [slash]

/-- No node denotes `p`, with or without a slash behind it. -/
def Unused (fs : Pigfs) (p : CStr) : Prop := ¬ Visible fs p ∧ ∀ q, OtherSpelling p q → ¬ Visible fs q

section Reports

variable {fs : Pigfs} {cwd a p : CStr}

/-- The two outcomes of `memfs_create` for a path that is not found. -/
lemma memfsCreate_of_not_found (h : memfsFind fs p = none) :
    fs.memfs.length < memfsMax ∧
      memfsCreate fs p = (some fs.memfs.length, { fs with memfs := fs.memfs ++ [MemFile.create p] }) ∨
    memfsMax ≤ fs.memfs.length ∧ memfsCreate fs p = (none, fs) := by
  unfold memfsCreate
  rw [h]
  rcases Nat.lt_or_ge fs.memfs.length memfsMax with hroom | hfull
  · exact Or.inl ⟨hroom, if_neg (Nat.not_le_of_lt hroom)⟩
  · exact Or.inr ⟨hfull, if_pos hfull⟩

lemma shMkdir_created_iff : (shMkdir fs cwd a).1 = .created p ↔
      a ≠ [] ∧ p = fsResolve cwd a 256 ∧ memfsFind fs p = none ∧ fs.memfs.length < memfsMax := by
  unfold shMkdir
  split
  · rename_i ha
    simp [ha]
  rename_i ha
  dsimp only
  split
  · rename_i hfound
    refine ⟨fun h => (by cases h), ?_⟩
    rintro ⟨-, rfl, hnone, -⟩
    exact absurd hnone (Option.isSome_iff_ne_none.mp hfound)
  rename_i hnone
  rw [Option.not_isSome_iff_eq_none] at hnone
  rcases memfsCreate_of_not_found hnone with ⟨hroom, hc⟩ | ⟨hfull, hc⟩
  · rw [hc]
    constructor
    · intro h
      obtain rfl := MkdirReport.created.inj h
      exact ⟨ha, rfl, hnone, hroom⟩
    · rintro ⟨-, rfl, -, -⟩
      rfl
  · rw [hc]
    refine ⟨fun h => (by cases h), ?_⟩
    rintro ⟨-, -, -, hroom⟩
    exact absurd hroom (Nat.not_lt_of_le hfull)

lemma fsTouch_created_iff : (fsTouch fs cwd a).1 = .created p ↔
      a ≠ [] ∧ p = fsResolve cwd a 256 ∧ ¬ Visible fs p ∧ fs.memfs.length < memfsMax := by
  unfold fsTouch Visible
  split
  · rename_i ha
    simp [ha]
  rename_i ha
  dsimp only
  split
  · rename_i hfound
    refine ⟨fun h => (by cases h), ?_⟩
    rintro ⟨-, rfl, hunseen, -⟩
    exact absurd (Or.inl (Option.isSome_iff_ne_none.mp hfound)) hunseen
  rename_i hnone
  split
  · rename_i hfound
    refine ⟨fun h => (by cases h), ?_⟩
    rintro ⟨-, rfl, hunseen, -⟩
    exact absurd (Or.inr (Option.isSome_iff_ne_none.mp hfound)) hunseen
  rename_i hnode
  rw [Option.not_isSome_iff_eq_none] at hnone hnode
  rcases memfsCreate_of_not_found hnone with ⟨hroom, hc⟩ | ⟨hfull, hc⟩
  · rw [hc]
    constructor
    · intro h
      obtain rfl := TouchReport.created.inj h
      exact ⟨ha, rfl, not_or.mpr ⟨not_not_intro hnone, not_not_intro hnode⟩, hroom⟩
    · rintro ⟨-, rfl, -, -⟩
      rfl
  · rw [hc]
    refine ⟨fun h => (by cases h), ?_⟩
    rintro ⟨-, -, -, hroom⟩
    exact absurd hroom (Nat.not_lt_of_le hfull)

end Reports

/-- **When `created` means that nothing was there.** `mkdir` reports a path as created only if no
node denoted it exactly when it creates nothing, or the read-only table has no live node under the
path and neither table one under its other spelling. `touch` does look at the read-only table. -/
theorem creation_is_first_iff (fs : Pigfs) (cwd a : CStr) : ((∀ p, (shMkdir fs cwd a).1 = .created p → Unused fs p) ↔
      a = [] ∨ memfsFind fs (fsResolve cwd a 256) ≠ none ∨ memfsMax ≤ fs.memfs.length ∨
      (fsFindVnode fs (fsResolve cwd a 256) = none ∧ ∀ q, OtherSpelling (fsResolve cwd a 256) q → ¬ Visible fs q)) ∧
    ((∀ p, (fsTouch fs cwd a).1 = .created p → Unused fs p) ↔
      a = [] ∨ Visible fs (fsResolve cwd a 256) ∨ memfsMax ≤ fs.memfs.length ∨
      ∀ q, OtherSpelling (fsResolve cwd a 256) q → ¬ Visible fs q) := by
  constructor
  · constructor
    · intro h
      by_contra hcond
      simp only [not_or, not_le, not_not] at hcond
      obtain ⟨ha, hnone, hroom, hother⟩ := hcond
      obtain ⟨hunseen, hspell⟩ := h _ (shMkdir_created_iff.mpr ⟨ha, rfl, hnone, hroom⟩)
      exact hother ⟨of_not_not (not_or.mp hunseen).2, hspell⟩
    · intro hcond p hp
      obtain ⟨ha, rfl, hnone, hroom⟩ := shMkdir_created_iff.mp hp
      rcases hcond with hnil | hfound | hfull | ⟨hnode, hspell⟩
      · exact absurd hnil ha
      · exact absurd hnone hfound
      · exact absurd hroom (Nat.not_lt_of_le hfull)
      · exact ⟨not_or.mpr ⟨not_not_intro hnone, not_not_intro hnode⟩, hspell⟩
  · constructor
    · intro h
      by_contra hcond
      simp only [not_or, not_le] at hcond
      obtain ⟨ha, hunseen, hroom, hother⟩ := hcond
      exact hother (h _ (fsTouch_created_iff.mpr ⟨ha, rfl, hunseen, hroom⟩)).2
    · intro hcond p hp
      obtain ⟨ha, rfl, hunseen, hroom⟩ := fsTouch_created_iff.mp hp
      rcases hcond with hnil | hseen | hfull | hspell
      · exact absurd hnil ha
      · exact absurd hseen hunseen
      · exact absurd hroom (Nat.not_lt_of_le hfull)
      · exact ⟨hunseen, hspell⟩

lemma length_pig_lt : (cstr "pig").length < 32 := by decide

def pigUser : UserName := ⟨cstr "pig", length_pig_lt⟩

/-- A session that adds the user `pig`, whose home directory is stored as `/home/pig/`. -/
def addPig : List Cmd := [.adduser pigUser]

/-- `mkdir /etc` makes a second `/etc`; `mkdir` and `touch` make a second `/home/pig` beside the
home directory. -/
theorem creation_doubles_etc_and_home :
    let s := Machine.exec fsStep (boot zeroStore) addPig
    Reachable (boot zeroStore) ∧ Reachable s ∧
    (shMkdir (boot zeroStore).fs (cstr "/") (cstr "/etc")).1 = .created (cstr "/etc") ∧
    (fsFindVnode (boot zeroStore).fs (cstr "/etc")).isSome = true ∧
    (shMkdir s.fs (cstr "/") (cstr "/home/pig")).1 = .created (cstr "/home/pig") ∧
    (fsTouch s.fs (cstr "/") (cstr "/home/pig")).1 = .created (cstr "/home/pig") ∧
    (memfsFind s.fs (cstr "/home/pig/")).isSome = true := by
  refine ⟨⟨zeroStore, [], by decide, rfl⟩, ⟨zeroStore, addPig, by decide, rfl⟩, ?_⟩
  decide +kernel

/-! ## One creation -/

section Create

variable {fs : Pigfs} {p q : CStr} {i : Nat} {f : MemFile → MemFile} {m : MemFile}

lemma memfsAt_modifyFile (hp : p.length < pathField) (hf : KeepsSlot f) (hfind : memfsFind fs p = some i)
    (hm : fs.memfs[i]? = some m) : memfsAt (fs.modifyFile i f) p = some (f m) := by
  have hfind' : memfsFind (fs.modifyFile i f) p = some i :=
    memfsFind_modifyFile hp hf.path (fun m h0 => (hf.used m).trans h0) (fun _ => hf.used) hfind
  exact memfsAt_of_memfsFind hfind' (modifyFile_getElem?.mpr ⟨m, hm, if_pos rfl⟩)

lemma memfsAt_modifyFile_of_ne (hq : q.length < pathField) (hf : KeepsSlot f)
    (hne : ∀ m, fs.memfs[i]? = some m → m.path ≠ q) : memfsAt (fs.modifyFile i f) q = memfsAt fs q := by
  cases hat : memfsAt fs q with
  | some m =>
    obtain ⟨j, hfind, hj, -, hpath⟩ := memfsAt_slot hat
    have hij : i ≠ j := by
      rintro rfl
      exact hne m hj ((MemFile.cpath_eq_iff hq).mp hpath)
    have hfind' : memfsFind (fs.modifyFile i f) q = some j :=
      memfsFind_modifyFile hq hf.path (fun m h0 => (hf.used m).trans h0) (fun _ => hf.used) hfind
    exact memfsAt_of_memfsFind hfind' (modifyFile_getElem?.mpr ⟨m, hj, if_neg hij⟩)
  | none =>
    rw [memfsAt_eq_none_iff, memfsFind_eq_none_iff] at hat ⊢
    rw [(sameDeletions_modifyFile fs i f).fsIsDeleted]
    refine hat.imp_right fun hother j m' hm' hused => ?_
    obtain ⟨m, hm, rfl⟩ := modifyFile_getElem?.mp hm'
    rw [ne_eq, MemFile.cpath_eq_iff hq]
    split
    · rename_i hij
      subst hij
      rw [hf.path]
      exact hne m hm
    · rename_i hij
      rw [if_neg hij] at hused
      rw [← MemFile.cpath_eq_iff hq]
      exact hother j m hm hused

lemma memfsAt_append_of_ne (hq : q.length < pathField) (hne : m.path ≠ q) :
    memfsAt { fs with memfs := fs.memfs ++ [m] } q = memfsAt fs q := by
  cases hat : memfsAt fs q with
  | some n =>
    obtain ⟨j, hfind, hj, -⟩ := memfsAt_slot hat
    refine memfsAt_of_memfsFind (memfsFind_append m hfind) ?_
    rw [getElem?_append_left (List.getElem?_eq_some_iff.mp hj).1]
    exact hj
  | none =>
    rw [memfsAt_eq_none_iff, memfsFind_eq_none_iff] at hat ⊢
    refine hat.imp_right fun hother j n hn hused => ?_
    rcases mem_append.mp (mem_of_getElem? hn) with hold | hnew
    · obtain ⟨k, hk⟩ := getElem?_of_mem hold
      exact hother k n hk hused
    · rw [mem_singleton.mp hnew, ne_eq, MemFile.cpath_eq_iff hq]
      exact hne

/-- **The frame of a creation**: no other path is found elsewhere, or with another slot. -/
theorem memfsAt_createWith_of_ne (hp : p.length < pathField) (hq : q.length < pathField)
    (hf : KeepsSlot f) (hne : p ≠ q) :
    memfsAt (createWith fs p f) q = memfsAt fs q := by
  unfold createWith
  have hnew : (MemFile.create p).path ≠ q := by
    show p.take pathField ≠ q
    rw [take_of_length_le (Nat.le_of_lt hp)]
    exact hne
  cases hfind : memfsFind fs p with
  | some i =>
    have hc : memfsCreate fs p = (some i, fs) := by rw [memfsCreate, hfind]
    rw [hc]
    refine memfsAt_modifyFile_of_ne hq hf fun m hm => ?_
    obtain ⟨-, ⟨m', hm', -, hpath⟩, -⟩ := memfsFind_eq_some_iff.mp hfind
    obtain rfl : m = m' := Option.some.inj (hm.symm.trans hm')
    rw [(MemFile.cpath_eq_iff hp).mp hpath]
    exact hne
  | none =>
    rcases memfsCreate_of_not_found hfind with ⟨-, hc⟩ | ⟨-, hc⟩
    · rw [hc]
      refine (memfsAt_modifyFile_of_ne hq hf fun m hm => ?_).trans (memfsAt_append_of_ne hq hnew)
      rw [getElem?_concat_length, Option.some.injEq] at hm
      rw [← hm]
      exact hnew
    · rw [hc]

/-- The slots that a creation takes. -/
def slotsFor (fs : Pigfs) (p : CStr) : Nat := if memfsFind fs p = none then 1 else 0

/-- **What a creation leaves**: the file, written, with one slot more if it was not there; or,
without a slot, nothing. -/
theorem memfsAt_createWith (hp : p.length < pathField) (hd : fsIsDeleted fs p = false) (hf : KeepsSlot f)
    (hle : fs.memfs.length ≤ memfsMax) :
    fs.memfs.length + slotsFor fs p ≤ memfsMax ∧ (∃ m, memfsAt (createWith fs p f) p = some (f m)) ∧
      (createWith fs p f).memfs.length = fs.memfs.length + slotsFor fs p ∨
    ¬ fs.memfs.length + slotsFor fs p ≤ memfsMax ∧ memfsFind fs p = none ∧ createWith fs p f = fs := by
  unfold createWith slotsFor
  cases hfind : memfsFind fs p with
  | some i =>
    have hc : memfsCreate fs p = (some i, fs) := by rw [memfsCreate, hfind]
    obtain ⟨-, ⟨m, hm, -⟩, -⟩ := memfsFind_eq_some_iff.mp hfind
    rw [hc, if_neg (Option.some_ne_none i)]
    exact Or.inl ⟨hle, ⟨m, memfsAt_modifyFile hp hf hfind hm⟩, length_modify ..⟩
  | none =>
    rw [if_pos rfl]
    rcases memfsCreate_of_not_found hfind with ⟨hroom, hc⟩ | ⟨hfull, hc⟩
    · have hfind' := memfsFind_memfsCreate hc hp hd
      rw [hc]
      refine Or.inl ⟨hroom, ⟨MemFile.create p, ?_⟩, ?_⟩
      · exact memfsAt_modifyFile hp hf hfind' getElem?_concat_length
      · show ((fs.memfs ++ [MemFile.create p]).modify _ f).length = _
        rw [length_modify, length_append, length_singleton]
    · rw [hc]
      exact Or.inr ⟨Nat.not_le_of_lt (Nat.lt_succ_of_le hfull), rfl, rfl⟩

end Create

/-! ## The files of a new user -/

/-- The text that a reader finds under `x`: that of the file, or else that of the read-only node. -/
def shownText (texts : VNode → Option CStr) (fs : Pigfs) (x : CStr) : Option CStr :=
  match memfsAt fs x with
  | some m => some m.content.val
  | none => (fsFindVnode fs x).bind texts

/-- In `fs'`, `dst` is a file with the text that `src` had in `fs`. -/
def CopiedFrom (texts : VNode → Option CStr) (fs fs' : Pigfs) (src dst : CStr) : Prop :=
  ∃ c, shownText texts fs src = some c ∧ fileText fs' dst = some c

/-- What a copy needs of its source: a file; or a read-only text that the destination happens to
have. -/
def CopyReady (texts : VNode → Option CStr) (fs : Pigfs) (src dst : CStr) : Prop :=
  memfsFind fs src ≠ none ∨ ∃ c, (fsFindVnode fs src).bind texts = some c ∧ fileText fs dst = some c

lemma fileText_eq (fs : Pigfs) (p : CStr) : fileText fs p = (memfsAt fs p).map (fun m => m.content.val) := rfl

section Copy

variable {texts : VNode → Option CStr} {fs fs' : Pigfs} {src dst q : CStr}

lemma shownText_congr (hdel : SameDeletions fs fs') (h : memfsAt fs' q = memfsAt fs q) :
    shownText texts fs' q = shownText texts fs q := by
  unfold shownText
  rw [h, hdel.fsFindVnode]

lemma slotsFor_congr (h : memfsAt fs' q = memfsAt fs q) : slotsFor fs' q = slotsFor fs q := by
  unfold slotsFor
  simp only [← memfsAt_eq_none_iff, h]

lemma copyReady_congr (hdel : SameDeletions fs fs') (hsrc : memfsAt fs' src = memfsAt fs src)
    (hdst : memfsAt fs' dst = memfsAt fs dst) : CopyReady texts fs' src dst ↔ CopyReady texts fs src dst := by
  unfold CopyReady
  rw [ne_eq, ne_eq, ← memfsAt_eq_none_iff, ← memfsAt_eq_none_iff, hsrc, hdel.fsFindVnode,
    fileText_eq, fileText_eq, hdst]

lemma copiedFrom_congr {fs₁ fs₁' : Pigfs} (hdel : SameDeletions fs fs₁) (hsrc : memfsAt fs₁ src = memfsAt fs src)
    (hdst : memfsAt fs' dst = memfsAt fs₁' dst) : CopiedFrom texts fs fs' src dst ↔
      CopiedFrom texts fs₁ fs₁' src dst := by
  unfold CopiedFrom
  rw [shownText_congr hdel hsrc, fileText_eq, fileText_eq, hdst]

lemma memfsAt_copySkel_of_ne (hdst : dst.length < pathField) (hq : q.length < pathField) (hne : dst ≠ q) :
    memfsAt (copySkel fs src dst) q = memfsAt fs q := by
  unfold copySkel
  split
  · exact memfsAt_createWith_of_ne hdst hq (keepsSlot_write _) hne
  · rfl

/-- **When a start-up file is copied**, and how many slots are taken then. -/
theorem copiedFrom_copySkel_iff (texts : VNode → Option CStr) (src : CStr)
    (hdst : dst.length < pathField) (hd : fsIsDeleted fs dst = false)
    (hle : fs.memfs.length ≤ memfsMax) : (CopiedFrom texts fs (copySkel fs src dst) src dst ↔
      fs.memfs.length + slotsFor fs dst ≤ memfsMax ∧ CopyReady texts fs src dst) ∧
    (CopiedFrom texts fs (copySkel fs src dst) src dst →
      (copySkel fs src dst).memfs.length = fs.memfs.length + slotsFor fs dst) := by
  unfold CopiedFrom CopyReady shownText
  cases hat : memfsAt fs src with
  | some sk =>
    have hcopy : copySkel fs src dst = createWith fs dst (MemFile.write sk.content) := by
      unfold copySkel
      rw [show (memfsFind fs src).bind (fs.memfs[·]?) = some sk from hat]
    have hsrc : memfsFind fs src ≠ none := by
      rw [ne_eq, ← memfsAt_eq_none_iff, hat]
      exact Option.some_ne_none sk
    rw [hcopy]
    rcases memfsAt_createWith hdst hd (keepsSlot_write sk.content) hle with ⟨hroom, ⟨m, hm⟩, hlen⟩ | ⟨hfull, hnone, heq⟩
    · refine ⟨⟨fun _ => ⟨hroom, Or.inl hsrc⟩, fun _ => ⟨sk.content.val, rfl, ?_⟩⟩, fun _ => hlen⟩
      rw [fileText_eq, hm]
      rfl
    · have hmiss : fileText (createWith fs dst (MemFile.write sk.content)) dst = none := by
        rw [heq, fileText_eq, memfsAt_eq_none_iff.mpr hnone]
        rfl
      rw [hmiss]
      refine ⟨⟨?_, fun h => absurd h.1 hfull⟩, ?_⟩
      · rintro ⟨c, -, hc⟩
        cases hc
      · rintro ⟨c, -, hc⟩
        cases hc
  | none =>
    have hcopy : copySkel fs src dst = fs := by
      unfold copySkel
      rw [show (memfsFind fs src).bind (fs.memfs[·]?) = none from hat]
    rw [hcopy]
    -- nothing is written: the file must be there already
    have hthere : ∀ {c}, fileText fs dst = some c → slotsFor fs dst = 0 := by
      intro c hc
      refine if_neg fun hnone => ?_
      rw [fileText_eq, memfsAt_eq_none_iff.mpr hnone] at hc
      cases hc
    refine ⟨⟨?_, ?_⟩, ?_⟩
    · rintro ⟨c, hc, hdstc⟩
      rw [hthere hdstc]
      exact ⟨hle, Or.inr ⟨c, hc, hdstc⟩⟩
    · rintro ⟨-, hsrc | h⟩
      · exact absurd (memfsAt_eq_none_iff.mp hat) hsrc
      · exact h
    · rintro ⟨c, -, hdstc⟩
      rw [hthere hdstc]
      rfl

end Copy

/-! ## The group of a new user -/

/-- The group that `gfind` returns. -/
def groupAt (db : UserDb) (n : CStr) : Option Group := (gfind db n).bind (db.groups[·]?)

/-- Every member is a user of the table, in every session and whatever the names are. -/
def MembersBelow (db : UserDb) : Prop := ∀ g ∈ db.groups, ∀ j ∈ g.mem, j < db.users.length

section Members

variable (h : MembersBelow db)

include h

lemma MembersBelow.modifyGroup {gi : Nat} {users : List User}
    (hlen : db.users.length ≤ users.length) (hf : ∀ g ∈ db.groups, ∀ j ∈ (f g).mem, j ∈ g.mem ∨ j < users.length) :
    MembersBelow ⟨users, db.groups.modify gi f⟩ := by
  intro g hg j hj
  obtain ⟨g₀, hg₀, rfl | rfl⟩ := mem_modify hg
  · rcases hf g₀ hg₀ j hj with hold | hnew
    · exact Nat.lt_of_lt_of_le (h g₀ hg₀ j hold) hlen
    · exact hnew
  · exact Nat.lt_of_lt_of_le (h g hg₀ j hj) hlen

lemma MembersBelow.modifyUser (i : Nat) (f : User → User) :
    MembersBelow { db with users := db.users.modify i f } := by
  intro g hg j hj
  rw [length_modify]
  exact h g hg j hj

lemma adduserDb_membersBelow (n : CStr) : MembersBelow (adduserDb db n).2 := by
  unfold adduserDb
  split
  · exact h
  split
  · exact h
  split
  · exact h
  have hlen : db.users.length ≤ (db.users ++ [newUser n db.users.length]).length := by
    rw [length_append]
    exact Nat.le_add_right _ _
  unfold joinUsersGroup
  split
  · refine h.modifyGroup hlen fun g _ j hj => ?_
    split at hj
    · refine (mem_append.mp hj).imp_right fun hnew => ?_
      rw [mem_singleton.mp hnew, length_append]
      exact Nat.lt_succ_self _
    · exact Or.inl hj
  · exact fun g hg j hj => Nat.lt_of_lt_of_le (h g hg j hj) hlen

lemma shDeluser_membersBelow (a : CStr) : MembersBelow (shDeluser db a).2 := by
  unfold shDeluser
  split
  · exact h
  split
  · exact h
  split
  · exact h
  unfold deluser
  split
  · split
    · exact h
    · exact h.modifyUser _ _
  · exact h

lemma cmdUsermod_membersBelow (a : CStr) : MembersBelow (cmdUsermod db a).2 := by
  rcases cmdUsermod_cases db a with heq | ⟨ui, gidx, -, hui, -, heq⟩
  · rw [heq]
    exact h
  · rw [heq]
    refine h.modifyGroup (Nat.le_refl _) fun g _ j hj => ?_
    refine (mem_append.mp hj).imp_right fun hnew => ?_
    rw [mem_singleton.mp hnew]
    exact ufind_lt hui

lemma cmdGroupadd_membersBelow (n : CStr) : MembersBelow (cmdGroupadd db n).2 := by
  unfold cmdGroupadd
  split
  · exact h
  split
  · exact h
  intro g hg j hj
  rcases mem_append.mp hg with hold | hnew
  · exact h g hold j hj
  · rw [mem_singleton.mp hnew] at hj
    exact absurd hj not_mem_nil

lemma cmdPasswd_membersBelow (n : CStr) (keys : List Nat) :
    MembersBelow (cmdPasswd db n keys).2 := by
  unfold cmdPasswd
  split
  · exact h
  dsimp only
  split
  · exact h
  · exact h.modifyUser _ _

end Members

lemma userStep_membersBelow (db : UserDb) (c : UserCmd) (h : MembersBelow db) : MembersBelow (userStep db c).2 := by
  cases c with
  | adduser n => exact adduserDb_membersBelow h n
  | deluser a => exact shDeluser_membersBelow h a
  | usermod a => exact cmdUsermod_membersBelow h a
  | groupadd n => exact cmdGroupadd_membersBelow h n
  | passwd n keys => exact cmdPasswd_membersBelow h n keys

/-- A user database that some session of the commands of `users.h` ends in. -/
def ReachableDb (db : UserDb) : Prop := ∃ cs, db = Machine.exec userStep initialUsers cs

lemma ReachableDb.membersBelow (h : ReachableDb db) : MembersBelow db := by
  obtain ⟨cs, rfl⟩ := h
  refine Machine.exec_invariant MembersBelow userStep_membersBelow ?_ cs
  unfold MembersBelow initialUsers
  decide

lemma ufind_append {n : CStr} (groups : List Group) (hnone : ufind db n = none) {u : User} (hname : u.name = n)
    (hactive : u.active = true) : ufind ⟨db.users ++ [u], groups⟩ n = some db.users.length := by
  unfold ufind at hnone ⊢
  rw [findIdx?_append, hnone, Option.none_or, findIdx?_singleton]
  simp [hname, hactive]

lemma gfind_modify (db : UserDb) (users : List User) (n : CStr) (gi : Nat)
    (hf : ∀ g, (f g).name = g.name) : gfind ⟨users, db.groups.modify gi f⟩ n = gfind db n := by
  have hnames : (db.groups.modify gi f).map Group.name = db.groups.map Group.name := by
    refine ext_getElem? fun j => ?_
    rw [getElem?_map, getElem?_map, getElem?_modify, Option.map_eq_map, Option.map_map]
    refine congrArg (Option.map · _) (funext fun g => ?_)
    split
    · exact hf g
    · rfl
  have hfind : ∀ groups : List Group,
      groups.findIdx? (fun g => decide (ksc g.name n = 0)) =
        (groups.map Group.name).findIdx? (fun x => decide (ksc x n = 0)) := by
    intro groups
    rw [findIdx?_map]
    rfl
  unfold gfind
  rw [hfind, hfind, hnames]

lemma groupAt_joinUsersGroup (db : UserDb) (users : List User) (ui : Nat) :
    groupAt ⟨users, joinUsersGroup db ui⟩ (cstr "users") =
      (groupAt db (cstr "users")).map fun g => if g.mem.length < maxU then { g with mem := g.mem ++ [ui] } else g := by
  unfold groupAt joinUsersGroup
  cases hfind : gfind db (cstr "users") with
  | none =>
    rw [show gfind ⟨users, db.groups⟩ (cstr "users") = none from hfind]
    rfl
  | some gi =>
    rw [gfind_modify db users _ gi, hfind, Option.bind_some, Option.bind_some, getElem?_modify_eq]
    · rfl
    · intro g
      split
      · rfl
      · rfl

/-- A new user joins the group exactly when it has room: the slot's number is in no list yet. -/
lemma joins_users_iff (h : MembersBelow db) (users : List User) :
    (groupAt ⟨users, joinUsersGroup db db.users.length⟩
      (cstr "users")).any (fun g => decide (db.users.length ∈ g.mem)) = true ↔
      (groupAt db (cstr "users")).any (fun g => decide (g.mem.length < maxU)) = true := by
  rw [groupAt_joinUsersGroup, Option.any_map]
  cases hat : groupAt db (cstr "users") with
  | none => rfl
  | some g =>
    obtain ⟨gi, -, hgi⟩ := Option.bind_eq_some_iff.mp hat
    simp only [Option.any_some, decide_eq_true_eq]
    split
    · rename_i hroom
      exact ⟨fun _ => hroom, fun _ => mem_append_right _ (mem_singleton_self _)⟩
    · rename_i hfull
      refine ⟨fun hmem => ?_, fun hroom => absurd hroom hfull⟩
      exact absurd (h g (mem_of_getElem? hgi) _ hmem) (Nat.lt_irrefl _)

/-! ## `adduser` -/

/-- After `adduser n`: the user, as a member of `users`, and the home directory with its two
files. -/
structure UserMade (texts : VNode → Option CStr) (fs : Pigfs) (db' : UserDb) (fs' : Pigfs) (n : CStr) : Prop where
  member : ∃ i, ufind db' n = some i ∧ (groupAt db' (cstr "users")).any (fun g => decide (i ∈ g.mem)) = true
  home : memfsDir fs' (homeOf n) = true
  lashrc : CopiedFrom texts fs fs' (cstr "/etc/skel/.lashrc") (homeOf n ++ cstr ".lashrc")
  profile : CopiedFrom texts fs fs' (cstr "/etc/skel/.lashrc-profile") (homeOf n ++ cstr ".lashrc-profile")

/-- `adduser n` reports an error and changes nothing, or reports the user and leaves all there is to
be. -/
def AllOrNothing (texts : VNode → Option CStr) (db : UserDb) (fs : Pigfs) (n : UserName) : Prop :=
  let (r, db', fs') := cmdAdduser db fs n
  (∀ name home, r ≠ .created name home) ∧ db' = db ∧ fs' = fs ∨
  r = .created n.val (homeOf n.val) ∧ UserMade texts fs db' fs' n.val

/-- The slots that `adduser n` needs. -/
def slotsForUser (fs : Pigfs) (n : CStr) : Nat :=
  slotsFor fs (homeOf n) + slotsFor fs (homeOf n ++ cstr ".lashrc") + slotsFor fs (homeOf n ++ cstr ".lashrc-profile")

lemma no_node_below_home : vfs.all (fun v => !(cstr "/home/").isPrefixOf v.path) = true := by decide +kernel

lemma not_deleted_below_home (h : DelInv fs) (x : CStr) : fsIsDeleted fs (cstr "/home/" ++ x) = false := by
  rw [Bool.eq_false_iff, ne_eq, h.fsIsDeleted_iff]
  intro hmem
  obtain ⟨v, hv, hpath⟩ := mem_map.mp (mem_deletable.mp (h.deletable _ hmem)).1
  have hnot := all_eq_true.mp no_node_below_home v hv
  rw [hpath, Bool.not_eq_true', ← Bool.not_eq_true, isPrefixOf_iff_prefix] at hnot
  exact hnot (prefix_append _ _)

lemma length_below_home (n : UserName) {x : CStr} (hx : x.length < 16) : (homeOf n.val ++ x).length < pathField := by
  rw [length_append, length_homeOf]
  show _ < 128
  omega

lemma ne_below_home {src : CStr} (hsrc : src.take 6 ≠ cstr "/home/") (n x : CStr) : homeOf n ++ x ≠ src := by
  rintro rfl
  apply hsrc
  unfold homeOf
  rw [append_assoc, append_assoc, show 6 = (cstr "/home/").length by decide]
  exact take_left

/-- When the home directory is made, and how many slots are taken then. -/
lemma memfsDir_createWith_iff {p : CStr} (hp : p.length < pathField) (hd : fsIsDeleted fs p = false)
    (hle : fs.memfs.length ≤ memfsMax) :
    (memfsDir (createWith fs p MemFile.mkDir) p = true ↔ fs.memfs.length + slotsFor fs p ≤ memfsMax) ∧
    (memfsDir (createWith fs p MemFile.mkDir) p = true →
      (createWith fs p MemFile.mkDir).memfs.length = fs.memfs.length + slotsFor fs p) := by
  rw [memfsDir_eq]
  rcases memfsAt_createWith hp hd keepsSlot_mkDir hle with ⟨hroom, ⟨m, hm⟩, hlen⟩ | ⟨hfull, hnone, heq⟩
  · rw [hm]
    exact ⟨⟨fun _ => hroom, fun _ => rfl⟩, fun _ => hlen⟩
  · have hmiss : memfsAt (createWith fs p MemFile.mkDir) p = none := by
      rw [heq]
      exact memfsAt_eq_none_iff.mpr hnone
    rw [hmiss]
    exact ⟨⟨fun h => (by cases h), fun h => absurd h hfull⟩, fun h => (by cases h)⟩

section Files

variable {fs : Pigfs} {home rc prof skelRc skelProf : CStr}

/-- What the three creations of `adduser` ask of their paths. -/
structure HomePaths (fs : Pigfs) (home rc prof skelRc skelProf : CStr) : Prop where
  short : ∀ x ∈ [home, rc, prof, skelRc, skelProf], x.length < pathField
  live : ∀ x ∈ [home, rc, prof], fsIsDeleted fs x = false
  home_ne : ∀ x ∈ [rc, prof, skelRc, skelProf], home ≠ x
  rc_ne : ∀ x ∈ [prof, skelProf], rc ≠ x

/-- Three creations succeed together when there are slots for what is missing and both texts are. -/
lemma HomePaths.files_iff (texts : VNode → Option CStr)
    (h : HomePaths fs home rc prof skelRc skelProf) (hle : fs.memfs.length ≤ memfsMax) :
    (let fs' := copySkel (copySkel (createWith fs home MemFile.mkDir) skelRc rc) skelProf prof
     memfsDir fs' home = true ∧ CopiedFrom texts fs fs' skelRc rc ∧ CopiedFrom texts fs fs' skelProf prof) ↔
    fs.memfs.length + (slotsFor fs home + slotsFor fs rc + slotsFor fs prof) ≤ memfsMax ∧
      CopyReady texts fs skelRc rc ∧ CopyReady texts fs skelProf prof := by
  obtain ⟨hshort, hlive, hhome, hrc⟩ := h
  simp only [forall_mem_cons, not_mem_nil, false_imp_iff, implies_true, and_true] at hshort hlive hhome hrc
  obtain ⟨shome, src, sprof, sskelRc, sskelProf⟩ := hshort
  have hgrow₁ := createWith_steps fs home keepsSlot_mkDir
  generalize hfs₁ : createWith fs home MemFile.mkDir = fs₁ at hgrow₁
  have hgrow₂ := copySkel_steps fs₁ skelRc rc
  generalize hfs₂ : copySkel fs₁ skelRc rc = fs₂ at hgrow₂
  generalize hfs₃ : copySkel fs₂ skelProf prof = fs₃
  have hdel₁ := MemSteps.sameDeletions hgrow₁
  have hdel₂ := hdel₁.trans (MemSteps.sameDeletions hgrow₂)
  have hle₁ := (MemSteps.grows hgrow₁).bounded hle
  have hle₂ := (MemSteps.grows hgrow₂).bounded hle₁
  -- what each creation leaves alone
  have hframe₁ : ∀ q, q.length < pathField → home ≠ q → memfsAt fs₁ q = memfsAt fs q := fun q hq hne =>
    hfs₁ ▸ memfsAt_createWith_of_ne shome hq keepsSlot_mkDir hne
  have hframe₂ : ∀ q, q.length < pathField → rc ≠ q → memfsAt fs₂ q = memfsAt fs₁ q := fun q hq hne =>
    hfs₂ ▸ memfsAt_copySkel_of_ne src hq hne
  have hframe₃ : ∀ q, q.length < pathField → prof ≠ q → memfsAt fs₃ q = memfsAt fs₂ q := fun q hq hne =>
    hfs₃ ▸ memfsAt_copySkel_of_ne sprof hq hne
  have hskelRc := hframe₁ skelRc sskelRc hhome.2.2.1
  have hrcAt := hframe₁ rc src hhome.1
  have hskelProf := (hframe₂ skelProf sskelProf hrc.2).trans (hframe₁ skelProf sskelProf hhome.2.2.2)
  have hprofAt := (hframe₂ prof sprof hrc.1).trans (hframe₁ prof sprof hhome.2.1)
  -- the three outcomes, each in the state where it is decided
  have hdir : memfsDir fs₃ home = memfsDir fs₁ home := by
    rw [memfsDir_eq, memfsDir_eq, hframe₃ home shome hhome.2.1.symm, hframe₂ home shome hhome.1.symm]
  have hcopyRc : CopiedFrom texts fs fs₃ skelRc rc ↔ CopiedFrom texts fs₁ fs₂ skelRc rc :=
    copiedFrom_congr hdel₁ hskelRc (hframe₃ rc src hrc.1.symm)
  have hcopyProf : CopiedFrom texts fs fs₃ skelProf prof ↔ CopiedFrom texts fs₂ fs₃ skelProf prof :=
    copiedFrom_congr hdel₂ hskelProf rfl
  obtain ⟨hiff₁, hlen₁⟩ := memfsDir_createWith_iff shome hlive.1 hle
  obtain ⟨hiff₂, hlen₂⟩ := copiedFrom_copySkel_iff texts skelRc src
    ((hdel₁.fsIsDeleted rc).trans hlive.2.1) hle₁
  obtain ⟨hiff₃, -⟩ := copiedFrom_copySkel_iff texts skelProf sprof
    ((hdel₂.fsIsDeleted prof).trans hlive.2.2) hle₂
  rw [hfs₁] at hiff₁ hlen₁
  rw [hfs₂, slotsFor_congr hrcAt] at hiff₂ hlen₂
  rw [hfs₃, slotsFor_congr hprofAt, copyReady_congr hdel₂ hskelProf hprofAt] at hiff₃
  rw [copyReady_congr hdel₁ hskelRc hrcAt] at hiff₂
  show memfsDir fs₃ home = true ∧ CopiedFrom texts fs fs₃ skelRc rc ∧ CopiedFrom texts fs fs₃ skelProf prof ↔ _
  rw [hdir, hcopyRc, hcopyProf]
  constructor
  · rintro ⟨hmade, hrcMade, hprofMade⟩
    obtain ⟨-, hreadyRc⟩ := hiff₂.mp hrcMade
    obtain ⟨hroom, hreadyProf⟩ := hiff₃.mp hprofMade
    rw [hlen₂ hrcMade, hlen₁ hmade] at hroom
    exact ⟨by omega, hreadyRc, hreadyProf⟩
  · rintro ⟨hroom, hreadyRc, hreadyProf⟩
    have hmade := hiff₁.mpr (by omega)
    have hrcMade := hiff₂.mpr ⟨by rw [hlen₁ hmade]; omega, hreadyRc⟩
    exact ⟨hmade, hrcMade, hiff₃.mpr ⟨by rw [hlen₂ hrcMade, hlen₁ hmade]; omega, hreadyProf⟩⟩

lemma homePaths (hinv : DelInv fs) (n : UserName) :
    HomePaths fs (homeOf n.val) (homeOf n.val ++ cstr ".lashrc") (homeOf n.val ++ cstr ".lashrc-profile")
      (cstr "/etc/skel/.lashrc") (cstr "/etc/skel/.lashrc-profile") := by
  have hshort : ∀ x : CStr, x.length < 16 → (homeOf n.val ++ x).length < pathField := fun x hx => length_below_home n hx
  have hlive : ∀ x, fsIsDeleted fs (homeOf n.val ++ x) = false := by
    intro x
    have hnot := not_deleted_below_home hinv (n.val ++ (cstr "/" ++ x))
    unfold homeOf
    rwa [append_assoc, append_assoc]
  have hne : ∀ {src : CStr}, src.take 6 ≠ cstr "/home/" → ∀ x, homeOf n.val ++ x ≠ src := fun hsrc x =>
    ne_below_home hsrc n.val x
  have hself : ∀ {x : CStr}, x ≠ [] → homeOf n.val ≠ homeOf n.val ++ x := by
    intro x hx heq
    exact hx (append_right_eq_self.mp heq.symm)
  have hnil := append_nil (homeOf n.val)
  refine ⟨?_, ?_, ?_, ?_⟩ <;> simp only [forall_mem_cons, not_mem_nil, false_imp_iff, implies_true, and_true]
  · refine ⟨?_, hshort _ (by decide), hshort _ (by decide), by decide, by decide⟩
    rw [← hnil]
    exact hshort [] (by decide)
  · refine ⟨?_, hlive _, hlive _⟩
    rw [← hnil]
    exact hlive []
  · refine ⟨hself (by decide), hself (by decide), ?_, ?_⟩
    · rw [← hnil]
      exact hne (by decide) []
    · rw [← hnil]
      exact hne (by decide) []
  · exact ⟨fun heq => absurd (append_cancel_left heq) (by decide), hne (by decide) _⟩

end Files

/-- The database after `adduser n` has created the user. -/
def adduserUsers (db : UserDb) (n : CStr) : UserDb :=
  ⟨db.users ++ [⟨n, cstr "changeme", 1000 + db.users.length, 2, homeOf n, true⟩], joinUsersGroup db db.users.length⟩

lemma userMade_iff (hinv : DelInv fs) (hle : fs.memfs.length ≤ memfsMax) (hdb : MembersBelow db)
    (texts : VNode → Option CStr) (n : UserName) (hnew : ufind db n.val = none) :
    UserMade texts fs (adduserUsers db n.val) (adduserFiles fs (homeOf n.val)) n.val ↔
      (groupAt db (cstr "users")).any (fun g => decide (g.mem.length < maxU)) = true ∧
      fs.memfs.length + slotsForUser fs n.val ≤ memfsMax ∧
      CopyReady texts fs (cstr "/etc/skel/.lashrc") (homeOf n.val ++ cstr ".lashrc") ∧
      CopyReady texts fs (cstr "/etc/skel/.lashrc-profile") (homeOf n.val ++ cstr ".lashrc-profile") := by
  have hfind : ufind (adduserUsers db n.val) n.val = some db.users.length := ufind_append _ hnew rfl rfl
  have hjoin := joins_users_iff hdb (adduserUsers db n.val).users
  have hfiles := (homePaths hinv n).files_iff texts hle
  rw [← hjoin]
  constructor
  · rintro ⟨⟨i, hi, hmem⟩, hhome, hrc, hprof⟩
    obtain rfl := Option.some.inj (hfind.symm.trans hi)
    exact ⟨hmem, hfiles.mp ⟨hhome, hrc, hprof⟩⟩
  · rintro ⟨hmem, hready⟩
    obtain ⟨hhome, hrc, hprof⟩ := hfiles.mpr hready
    exact ⟨⟨_, hfind, hmem⟩, hhome, hrc, hprof⟩

/-- **When `adduser` is all or nothing**: it refuses, or the group `users` has room, `memfs` has a
slot for each of the three files that is missing, and both start-up files are there to be copied. -/
theorem adduser_all_or_nothing_iff {s : Sys} (hs : Reachable s) {db : UserDb} (hdb : ReachableDb db)
    (texts : VNode → Option CStr) (n : UserName) (hn : n.val ≠ []) :
    AllOrNothing texts db s.fs n ↔
      ufind db n.val ≠ none ∨ maxU ≤ db.users.length ∨
      (groupAt db (cstr "users")).any (fun g => decide (g.mem.length < maxU)) = true ∧
      s.fs.memfs.length + slotsForUser s.fs n.val ≤ memfsMax ∧
      CopyReady texts s.fs (cstr "/etc/skel/.lashrc") (homeOf n.val ++ cstr ".lashrc") ∧
      CopyReady texts s.fs (cstr "/etc/skel/.lashrc-profile") (homeOf n.val ++ cstr ".lashrc-profile") := by
  unfold AllOrNothing cmdAdduser
  rw [if_neg hn]
  by_cases hfound : ufind db n.val = none
  swap
  · rw [if_pos (Option.isSome_iff_ne_none.mpr hfound)]
    exact ⟨fun _ => Or.inl hfound, fun _ => Or.inl ⟨fun _ _ h => (by cases h), rfl, rfl⟩⟩
  rw [if_neg (by rw [hfound]; simp)]
  by_cases hfull : maxU ≤ db.users.length
  · rw [if_pos hfull]
    exact ⟨fun _ => Or.inr (Or.inl hfull), fun _ => Or.inl ⟨fun _ _ h => (by cases h), rfl, rfl⟩⟩
  rw [if_neg hfull]
  have hmade := userMade_iff hs.delInv hs.memfs_length_le hdb.membersBelow texts n hfound
  show (∀ name home, AdduserReport.created n.val (homeOf n.val) ≠ .created name home) ∧ _ ∨
    AdduserReport.created n.val (homeOf n.val) = .created n.val (homeOf n.val) ∧
      UserMade texts s.fs (adduserUsers db n.val) (adduserFiles s.fs (homeOf n.val)) n.val ↔ _
  rw [hmade]
  constructor
  · rintro (⟨hnot, -⟩ | ⟨-, h⟩)
    · exact absurd rfl (hnot n.val (homeOf n.val))
    · exact Or.inr (Or.inr h)
  · rintro (h | h | h)
    · exact absurd hfound h
    · exact absurd h hfull
    · exact Or.inr ⟨rfl, h⟩

/-- The first user after power-on gets everything. -/
theorem adduser_makes_pig : AllOrNothing (fun _ => none) initialUsers (boot zeroStore).fs pigUser := by
  refine (adduser_all_or_nothing_iff ⟨zeroStore, [], by decide, rfl⟩ ⟨[], rfl⟩
    (fun _ => none) pigUser (by decide)).mpr ?_
  refine Or.inr (Or.inr ⟨by decide +kernel, by decide +kernel, Or.inl ?_, Or.inl ?_⟩)
  · decide +kernel
  · decide +kernel

/-- When the table of files is full, `adduser` reports a user as created who has no home
directory. -/
theorem adduser_reports_homeless_pig :
    let s := Machine.exec fsStep (boot zeroStore) (makeAndRemove 61)
    let r := cmdAdduser s.users s.fs pigUser
    Reachable s ∧ r.1 = .created (cstr "pig") (cstr "/home/pig/") ∧ ufind r.2.1 (cstr "pig") = some 1 ∧
    memfsFind r.2.2 (cstr "/home/pig/") = none ∧ memfsFind r.2.2 (cstr "/home/pig/.lashrc") = none := by
  refine ⟨⟨zeroStore, _, by decide, rfl⟩, ?_⟩
  decide +kernel

end PigOS.Shell
