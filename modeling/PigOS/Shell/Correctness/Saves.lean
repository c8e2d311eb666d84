import PigOS.Shell.Vi
import PigOS.Shell.Correctness.ConfigReaders
import PigOS.Shell.Correctness.Find
import PigOS.Shell.Correctness.Nano

/-!
# `Shell.Correctness.Saves` — when `Saved` means saved

`pnano`, `pi` and `menuconfig` save with the same few lines, and clear their flag behind them
whether a slot was found or not. `fileText_saveFile_iff` says when the text is there afterwards.
-/

namespace PigOS.Shell

open Kernel List

/-! ## One save -/

/-- What a save of the text `c` under the path `p` needs. -/
structure CanStore (fs : Pigfs) (p c : CStr) : Prop where
  live : fsIsDeleted fs p = false
  slot : memfsFind fs p ≠ none ∨ fs.memfs.length < memfsMax
  path : p.length < pathField ∨ c = p.drop pathField

section Save

variable {fs : Pigfs} {p : CStr}

lemma fileText_of_long (hp : ¬ p.length < pathField) {c : CStr} (h : fileText fs p = some c) :
    c = p.drop pathField := by
  obtain ⟨m, hm, rfl⟩ := Option.map_eq_some_iff.mp h
  obtain ⟨i, hfind, hi⟩ := Option.bind_eq_some_iff.mp hm
  obtain ⟨-, ⟨m', hm', -, hpath⟩, -⟩ := memfsFind_eq_some_iff.mp hfind
  obtain rfl : m = m' := Option.some.inj (hi.symm.trans hm')
  have hfull : ¬ m.path.length < pathField := by
    intro hlt
    rw [MemFile.cpath_of_lt hlt] at hpath
    exact hp (hpath ▸ hlt)
  have hlen : m.path.length = pathField := Nat.le_antisymm m.path_le (Nat.le_of_not_lt hfull)
  rw [MemFile.cpath_of_full hfull] at hpath
  rw [← hpath, ← hlen, drop_left]

lemma fileText_eq_none (h : memfsFind fs p = none) : fileText fs p = none := by
  rw [fileText, h]
  rfl

/-- A file saved under a path that does not fit is found if its text is the rest of the path. -/
lemma memfsFind_saveFile_of_long {fs' : Pigfs} {i : Nat} (hc : memfsCreate fs p = (some i, fs'))
    (hp : ¬ p.length < pathField)
    (hd : fsIsDeleted fs p = false) {text : Content} (htext : text.val = p.drop pathField) :
    memfsFind (saveFile fs p text) p ≠ none := by
  obtain ⟨m, hm, hused, hpath⟩ := slot_of_memfsCreate hc
  have hlive : fsIsDeleted (saveFile fs p text) p = false := by
    rw [(MemSteps.sameDeletions (saveFile_steps fs p text)).fsIsDeleted]
    exact hd
  refine memfsFind_ne_none_iff.mpr ⟨hlive, MemFile.write text m, ?_, hused, ?_⟩
  · rw [saveFile_eq hc]
    exact mem_of_getElem? (modifyFile_getElem?.mpr ⟨m, hm, if_pos rfl⟩)
  · have hfull : ¬ (MemFile.write text m).path.length < pathField := by
      show ¬ m.path.length < pathField
      rw [hpath, length_take]
      omega
    rw [MemFile.cpath_of_full hfull]
    show m.path ++ text.val = p
    rw [hpath, htext, take_append_drop]

/-- **When a text is there after it was saved.** -/
theorem fileText_saveFile_iff (text : Content) :
    fileText (saveFile fs p text) p = some text.val ↔ CanStore fs p text.val := by
  constructor
  · intro h
    refine ⟨?_, ?_, ?_⟩
    · -- a tombstone hides what is written under it
      by_contra hd
      rw [Bool.not_eq_false, ← (MemSteps.sameDeletions (saveFile_steps fs p text)).fsIsDeleted] at hd
      rw [fileText_eq_none (memfsFind_eq_none_iff.mpr (Or.inl hd))] at h
      cases h
    · by_contra hslot
      rw [not_or, not_not, Nat.not_lt] at hslot
      have hsame : saveFile fs p text = fs := by
        unfold saveFile createWith memfsCreate
        rw [hslot.1]
        simp only [if_pos hslot.2]
      rw [hsame, fileText_eq_none hslot.1] at h
      cases h
    · by_cases hp : p.length < pathField
      · exact Or.inl hp
      · exact Or.inr (fileText_of_long hp h)
  · rintro ⟨hd, hslot, hpath⟩
    have hsome : (memfsCreate fs p).1.isSome = true := by
      rw [Option.isSome_iff_ne_none, ne_eq, memfsCreate_eq_none_iff, not_and_or, Nat.not_le]
      exact hslot
    by_cases hp : p.length < pathField
    · exact fileText_saveFile hp hd hsome text
    · have htext := hpath.resolve_left hp
      obtain ⟨i, hi⟩ := Option.isSome_iff_exists.mp hsome
      have hfound := memfsFind_saveFile_of_long (Prod.ext hi rfl) hp hd htext
      -- whatever slot is found, it holds the rest of the path
      obtain ⟨j, hj⟩ := Option.ne_none_iff_exists'.mp hfound
      obtain ⟨-, ⟨m, hm, -⟩, -⟩ := memfsFind_eq_some_iff.mp hj
      have hread : fileText (saveFile fs p text) p = some m.content.val := by
        rw [fileText, hj, Option.bind_some, hm]
        rfl
      rw [hread, fileText_of_long hp hread, htext]

end Save

/-! ## The save commands -/

/-- `^O`, or the answer `y` to the question of `^X`. -/
def Nano.Editor.Saves (s : Nano.Editor) (k : Int) : Prop :=
  s.done = false ∧ (s.asking = false ∧ k = 15 ∨ s.asking = true ∧ (k = 121 ∨ k = 89))

/-- The text that `pnano` saves. -/
def Nano.Editor.saved (s : Nano.Editor) : CStr := Nano.stringIn (Function.update s.ebuf s.elen 0)

lemma Nano.nanoKey_saves {s : Nano.Editor} {k : Int} (h : s.Saves k) (path : CStr) :
    (Nano.nanoKey path s k).modified = false ∧
    (Nano.nanoKey path s k).fs = saveFile s.fs path ⟨s.saved, Nano.length_stringIn_lt _⟩ := by
  obtain ⟨hdone, ⟨hasking, rfl⟩ | ⟨hasking, hk⟩⟩ := h
  · rw [Nano.nanoKey, hdone, hasking]
    exact ⟨rfl, rfl⟩
  · rw [Nano.nanoKey, hdone, hasking]
    rw [Nano.Editor.answer, if_pos hk]
    exact ⟨rfl, rfl⟩

/-- Enter behind `:w`, `:wq` or `:x`. -/
def Vi.Editor.Saves (s : Vi.Editor) (k : Int) : Prop :=
  s.done = false ∧ s.mode = .cmd ∧ k = 10 ∧ (s.cmd = cstr "w" ∨ s.cmd = cstr "wq" ∨ s.cmd = cstr "x")

lemma Vi.viKey_saves {s : Vi.Editor} {k : Int} (h : s.Saves k) (path : CStr) :
    (∃ s', Vi.viKey path s k = some s' ∧ s'.modified = false ∧ fileText s'.fs path = some s.text) ↔
      ∃ hlen : s.text.length < contentField, fileText (saveFile s.fs path ⟨s.text, hlen⟩) path = some s.text := by
  obtain ⟨hdone, hmode, rfl, hcmd⟩ := h
  have hkey : Vi.viKey path s 10 = s.execute path := by
    rw [Vi.viKey, hdone, hmode]
    rfl
  -- what is done after the save concerns neither the flag nor the files
  obtain ⟨g, hrest, hexec⟩ : ∃ g : Vi.Editor → Vi.Editor, (∀ s, (g s).modified = s.modified ∧ (g s).fs = s.fs) ∧
      s.execute path = (s.save path).map g := by
    unfold Vi.Editor.execute
    simp only [ksc_eq_zero]
    rw [if_neg, if_pos hcmd]
    · refine ⟨_, fun s => ?_, rfl⟩
      split
      · exact ⟨rfl, rfl⟩
      · exact ⟨rfl, rfl⟩
    · rcases hcmd with hcmd | hcmd | hcmd <;> rw [hcmd] <;> decide
  rw [hkey, hexec]
  unfold Vi.Editor.save
  by_cases hlen : s.text.length < contentField
  · rw [dif_pos hlen, Option.map_some]
    constructor
    · rintro ⟨s', hs', -, htext⟩
      rw [← Option.some.inj hs', (hrest _).2] at htext
      exact ⟨hlen, htext⟩
    · rintro ⟨_, htext⟩
      refine ⟨_, rfl, (hrest _).1, ?_⟩
      rw [(hrest _).2]
      exact htext
  · rw [dif_neg hlen, Option.map_none]
    constructor
    · rintro ⟨s', hs', -⟩
      cases hs'
    · rintro ⟨hlen', -⟩
      exact absurd hlen' hlen

/-- `s` or `S` in the menu. -/
def Conf.Menu.Saves (m : Conf.Menu) (k : Int) : Prop := m.running = true ∧ (k = 115 ∨ k = 83)

lemma Conf.menuKey_saves {m : Conf.Menu} {k : Int} (h : m.Saves k) : Conf.menuKey m k = m.save := by
  obtain ⟨hrun, hk⟩ := h
  unfold Conf.menuKey keyUp keyDown keyLeft keyRight
  rw [hrun]
  rcases hk with rfl | rfl
  · rfl
  · rfl

/-- **When `Saved` means saved.** A save command of `pnano` leaves the text under its path exactly
when the path can store it; one of `pi` when, besides, the text fits its field; one of `menuconfig`
when the configuration file is there or a slot is free for it. The flag is cleared in every case. -/
theorem saved_means_saved_iff {s : Sys} (hs : Reachable s) (path : CStr) (k : Int) :
    (∀ ed : Nano.Editor, ed.fs = s.fs → ed.Saves k → (Nano.nanoKey path ed k).modified = false ∧
      (fileText (Nano.nanoKey path ed k).fs path = some ed.saved ↔ CanStore s.fs path ed.saved)) ∧
    (∀ ed : Vi.Editor, ed.fs = s.fs → ed.Saves k →
      ((∃ ed', Vi.viKey path ed k = some ed' ∧ ed'.modified = false ∧ fileText ed'.fs path = some ed.text) ↔
        ed.text.length < contentField ∧ CanStore s.fs path ed.text)) ∧
    (∀ m : Conf.Menu, m.fs = s.fs → m.items.map Conf.MCfgItem.key = Conf.mcfgKeys → m.Saves k →
      (Conf.menuKey m k).dirty = false ∧
      (fileText (Conf.menuKey m k).fs Conf.mcfgPath = some (Conf.mcfgText m.items) ↔
        memfsFind s.fs Conf.mcfgPath ≠ none ∨ s.fs.memfs.length < memfsMax)) := by
  refine ⟨fun ed hfs hsave => ?_, fun ed hfs hsave => ?_, fun m hfs hkeys hsave => ?_⟩
  · obtain ⟨hflag, hfiles⟩ := Nano.nanoKey_saves hsave path
    refine ⟨hflag, ?_⟩
    rw [hfiles, hfs]
    exact fileText_saveFile_iff ⟨ed.saved, Nano.length_stringIn_lt _⟩
  · rw [Vi.viKey_saves hsave, hfs]
    constructor
    · rintro ⟨hlen, htext⟩
      exact ⟨hlen, (fileText_saveFile_iff ⟨ed.text, hlen⟩).mp htext⟩
    · rintro ⟨hlen, hcan⟩
      exact ⟨hlen, (fileText_saveFile_iff ⟨ed.text, hlen⟩).mpr hcan⟩
  · have hwhole : (Conf.mcfgContent m.items).val = Conf.mcfgText m.items :=
      take_of_length_le (Conf.mcfgText_length hkeys)
    rw [Conf.menuKey_saves hsave, ← hwhole]
    refine ⟨rfl, ?_⟩
    show fileText (saveFile m.fs Conf.mcfgPath (Conf.mcfgContent m.items)) Conf.mcfgPath = _ ↔ _
    rw [hfs, fileText_saveFile_iff]
    constructor
    · exact fun hcan => hcan.slot
    · exact fun hslot => ⟨Conf.mcfgPath_not_deleted hs.delInv, hslot, Or.inl Conf.mcfgPath_short⟩

/-- An editor in which `x` was typed. -/
def typedX (fs : Pigfs) : Nano.Editor := ⟨fun j => if j = 0 then 120 else 0, 1, 1, true, false, false, fs⟩

/-- Right after power-on the `x` is saved. -/
theorem saved_x_at_boot :
    (Nano.nanoKey (cstr "/a") (typedX (boot zeroStore).fs) 15).modified = false ∧
    fileText (Nano.nanoKey (cstr "/a") (typedX (boot zeroStore).fs) 15).fs (cstr "/a") =
      some (typedX (boot zeroStore).fs).saved := by
  have hs : Reachable (boot zeroStore) := ⟨zeroStore, [], by decide, rfl⟩
  obtain ⟨hflag, hiff⟩ := (saved_means_saved_iff hs (cstr "/a") 15).1 (typedX (boot zeroStore).fs) rfl
    ⟨rfl, Or.inl ⟨rfl, rfl⟩⟩
  exact ⟨hflag, hiff.mpr ⟨by decide +kernel, Or.inr (by decide +kernel), Or.inl (by decide)⟩⟩

/-- In a full table nothing is saved by any of the three, and all three say that it is. -/
theorem nothing_saved_when_full :
    let s := Machine.exec fsStep (boot zeroStore) (makeAndRemove 61)
    let vi : Vi.Editor := ⟨fun _ => 0, 1, 0, 0, .cmd, false, cstr "w", true, false, s.fs⟩
    let menu : Conf.Menu := ⟨Conf.mcfgItems, 0, true, true, s.fs⟩
    Reachable s ∧
    (Nano.nanoKey (cstr "/a") (typedX s.fs) 15).modified = false ∧
    memfsFind (Nano.nanoKey (cstr "/a") (typedX s.fs) 15).fs (cstr "/a") = none ∧
    (Vi.viKey (cstr "/a") vi 10).map (fun ed => (ed.modified, memfsFind ed.fs (cstr "/a"))) = some (false, none) ∧
    (Conf.menuKey menu 115).dirty = false ∧ memfsFind (Conf.menuKey menu 115).fs Conf.mcfgPath = none := by
  refine ⟨⟨zeroStore, _, by decide, rfl⟩, ?_⟩
  decide +kernel

end PigOS.Shell
