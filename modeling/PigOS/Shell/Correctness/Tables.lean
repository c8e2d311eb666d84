import PigOS.Lib.SlotTable
import PigOS.Shell.Dispatch

/-!
# `Shell.Correctness.Tables` — the tables of variables and aliases against finite maps

The table of the shell is an instance of `SlotTable`. Removing a name that is set makes the empty
name found, and it costs a slot: names that come later are dropped while fewer than 32 are set.
-/

namespace PigOS.Shell

open Kernel SlotTable List

/-! ## The tables as slot tables -/

lemma tableGet_eq (t : Table) (n : CStr) : tableGet t n = SlotTable.get t n := by
  simp only [tableGet, SlotTable.get, ksc_eq_zero]

lemma tableSet_eq (cap : Nat) (t : Table) (n v : CStr) : tableSet cap t n v = SlotTable.put cap t n v := by
  unfold tableSet SlotTable.put
  cases h : t.findIdx? (fun s => decide (s.1 = n)) with
  | none => simp only [ksc_eq_zero, h]
  | some i => simp only [ksc_eq_zero, h]

lemma clearAll_eq (t : Table) (n : CStr) : Shell.clearAll t n = SlotTable.clearAll ([], []) t n := by
  simp only [Shell.clearAll, SlotTable.clearAll, ksc_eq_zero]

lemma clearFirst_eq (t : Table) (n : CStr) : (Shell.clearFirst t n).getD t = SlotTable.clearFirst ([], []) t n := by
  unfold Shell.clearFirst SlotTable.clearFirst
  cases h : t.findIdx? (fun s => decide (s.1 = n)) with
  | none => simp only [ksc_eq_zero, h, Option.map_none, Option.getD_none]
  | some i => simp only [ksc_eq_zero, h, Option.map_some, Option.getD_some]

/-! ## Sessions -/

/-- A name that fits its array, and is one. -/
abbrev VarName := { n : CStr // n ≠ [] ∧ n.length ≤ 31 }

/-- A value that fits its array. -/
abbrev VarValue := { v : CStr // v.length ≤ 127 }

/-- `set` and `export` or `alias`; `unset` or `unalias`. -/
inductive TableCmd where
  | assign (n : VarName) (v : VarValue)
  | remove (n : VarName)

inductive TableKind where
  | vars | aliases

/-- The tables when the prompt appears first: `shell_run` has set three aliases. -/
def TableKind.start : TableKind → Table
  | .vars => []
  | .aliases => [(cstr "ll", cstr "ls -la"), (cstr "la", cstr "ls -la"), (cstr "cls", cstr "clear")]

def tableStep : TableKind → Table → TableCmd → Table
  | .vars, t, .assign n v => shVarSet t n v
  | .vars, t, .remove n => clearAll t n
  | .aliases, t, .assign n v => shAliasSet t n v
  | .aliases, t, .remove n => (clearFirst t n).getD t

/-- The five commands, on arguments that name something: each is a step of its table. -/
lemma leaf_table {σ : Type} (b : Builtins σ) (c : Core σ) (typed : Option CStr) (a : CStr)
    (n : VarName) (v : VarValue) :
    (a ≠ [] → n.val = assignName a → v.val = assignValue a → ∀ cmd ∈ [cstr "export", cstr "set"],
      ∃ out, leaf b c typed cmd a = some (out, { c with vars := tableStep .vars c.vars (.assign n v) }, [])) ∧
    (a ≠ [] → n.val = assignName a → v.val = aliasValue a →
      ∃ out, leaf b c typed (cstr "alias") a =
        some (out, { c with aliases := tableStep .aliases c.aliases (.assign n v) }, [])) ∧
    (∃ out, leaf b c typed (cstr "unset") n = some (out, { c with vars := tableStep .vars c.vars (.remove n) }, [])) ∧
    (∃ out, leaf b c typed (cstr "unalias") n =
      some (out, { c with aliases := tableStep .aliases c.aliases (.remove n) }, [])) := by
  refine ⟨?_, ?_, ?_, ?_⟩
  · intro ha hn hv cmd hcmd
    simp only [mem_cons, not_mem_nil, or_false] at hcmd
    rcases hcmd with rfl | rfl
    · have hb : builtin (cstr "export") a = .exportVar := rfl
      simp only [leaf, hb, if_neg ha, tableStep, hn, hv]
      exact ⟨_, rfl⟩
    · have hb : builtin (cstr "set") a = .setVar := rfl
      simp only [leaf, hb, if_neg ha, tableStep, hn, hv]
      exact ⟨_, rfl⟩
  · intro ha hn hv
    have hb : builtin (cstr "alias") a = .alias := rfl
    simp only [leaf, hb, if_neg ha, tableStep, hn, hv]
    exact ⟨_, rfl⟩
  · have hb : builtin (cstr "unset") n = .unsetVar := rfl
    simp only [leaf, hb, tableStep]
    exact ⟨_, rfl⟩
  · have hb : builtin (cstr "unalias") n = .unalias := rfl
    simp only [leaf, hb, tableStep]
    cases clearFirst c.aliases n with
    | some aliases => exact ⟨_, rfl⟩
    | none => exact ⟨_, rfl⟩

/-! ## The map -/

abbrev VarMap := Finmap (fun _ : CStr => CStr)

def mapStep (m : VarMap) : TableCmd → VarMap
  | .assign n v => insertWithin 32 m n v
  | .remove n => m.erase n

/-- The names and values of a table. -/
def mapOf (t : Table) : VarMap := t.foldl (fun m s => m.insert s.1 s.2) ∅

/-- A session on both. -/
def sessionStep (kind : TableKind) (s : Table × VarMap) (c : TableCmd) : Unit × Table × VarMap :=
  ((), tableStep kind s.1 c, mapStep s.2 c)

def session (kind : TableKind) (cs : List TableCmd) : List (Machine.Event (Table × VarMap) TableCmd Unit) :=
  Machine.events (sessionStep kind) (kind.start, mapOf kind.start) cs

/-- The command removes a name that is set. -/
def RemovesSet (s : Table × VarMap) : TableCmd → Prop
  | .assign _ _ => False
  | .remove n => n.val ∈ s.2

/-- A name that is not set is assigned, all slots are in use, and fewer than 32 names are set. -/
def LosesSlot (s : Table × VarMap) : TableCmd → Prop
  | .assign n _ => n.val ∉ s.2 ∧ 32 ≤ s.1.length ∧ s.2.keys.card < 32
  | .remove _ => False

/-- The table stands for the map. -/
abbrev Standing (s : Table × VarMap) : Prop := Represents 32 ([] : CStr) s.1 s.2

lemma tableStep_assign (kind : TableKind) (t : Table) (n : VarName) (v : VarValue) :
    tableStep kind t (.assign n v) = SlotTable.put 32 t n v := by
  cases kind with
  | vars => exact tableSet_eq 32 t n v
  | aliases => exact tableSet_eq 32 t n v

variable {s : Table × VarMap}

/-- `unset` blanks every slot with the name and `unalias` the first one. There is one at most. -/
lemma tableStep_remove (kind : TableKind) (hs : Standing s) (n : VarName) :
    tableStep kind s.1 (.remove n) = SlotTable.clearFirst ([], []) s.1 n := by
  cases kind with
  | vars =>
    rw [tableStep, clearAll_eq]
    exact hs.clearAll_eq n.property.1 ([], [])
  | aliases => rw [tableStep, clearFirst_eq]

lemma losesSlot_assign_iff (hs : Standing s) (n : VarName) (v : VarValue) :
    LosesSlot s (.assign n v) ↔ ¬ (n.val ∈ s.2 ∨ s.1.length < 32 ∨ s.2.keys.card = 32) := by
  have hle := hs.card_le
  have hfits := hs.fits
  rw [LosesSlot, not_or, not_or]
  constructor
  · rintro ⟨hmem, hfull, hcard⟩
    exact ⟨hmem, by omega, by omega⟩
  · rintro ⟨hmem, hfull, hcard⟩
    exact ⟨hmem, by omega, by omega⟩

/-- The step lemma: a step that loses no slot keeps table and map together. -/
lemma sessionStep_standing (kind : TableKind) (s : Table × VarMap) (c : TableCmd) (hs : Standing s)
    (hok : ¬ LosesSlot s c) : Standing (sessionStep kind s c).2 := by
  unfold sessionStep
  cases c with
  | assign n v =>
    rw [tableStep_assign]
    rw [losesSlot_assign_iff hs, not_not] at hok
    exact hs.put n.property.1 hok
  | remove n =>
    rw [tableStep_remove kind hs]
    exact hs.clearFirst n.property.1 []

lemma sessionStep_lost (kind : TableKind) (s : Table × VarMap) (c : TableCmd) (hs : Standing s) (hbad : LosesSlot s c) :
    ¬ ∀ n, n ≠ [] → tableGet (sessionStep kind s c).2.1 n = (sessionStep kind s c).2.2.lookup n := by
  cases c with
  | remove n => exact absurd hbad id
  | assign n v =>
    intro hall
    have hn := hall n.val n.property.1
    rw [losesSlot_assign_iff hs] at hbad
    rw [tableGet_eq, sessionStep, tableStep_assign] at hn
    exact hs.get_put_lost n.property.1 hbad hn

/-! ## Tables without blank slots -/

/-- Table and map are together, and no slot is blank. -/
def Unblanked (s : Table × VarMap) : Prop := Standing s ∧ SlotTable.get s.1 [] = none

lemma Unblanked.not_losesSlot (hs : Unblanked s) (c : TableCmd) : ¬ LosesSlot s c := by
  cases c with
  | remove n => exact id
  | assign n v =>
    rintro ⟨-, hfull, hcard⟩
    have heq := hs.1.card_eq_length_iff.mpr hs.2
    omega

lemma sessionStep_unblanked (kind : TableKind) (s : Table × VarMap) (c : TableCmd) (hs : Unblanked s)
    (hok : ¬ RemovesSet s c) : Unblanked (sessionStep kind s c).2 := by
  refine ⟨sessionStep_standing kind s c hs.1 (hs.not_losesSlot c), ?_⟩
  cases c with
  | assign n v =>
    have hnil : ([] : CStr) ∉ names s.1 := get_eq_none_iff.mp hs.2
    have hne : n.val ≠ [] := n.property.1
    rw [sessionStep, tableStep_assign, get_eq_none_iff]
    by_cases hmem : n.val ∈ names s.1
    · obtain ⟨l, w, r, hsplit, hl⟩ := exists_split hmem
      rw [hsplit, put_split 32 hl]
      rw [hsplit, names_append, names_cons] at hnil
      rwa [names_append, names_cons]
    · rw [put_of_not_mem 32 hmem]
      split
      · rw [names_append, mem_append, not_or]
        exact ⟨hnil, fun h => hne (mem_singleton.mp h).symm⟩
      · exact hnil
  | remove n =>
    have hmem : n.val ∉ names s.1 := fun h => hok ((hs.1.mem_iff n.property.1).mp h)
    rw [sessionStep, tableStep_remove kind hs.1, clearFirst_of_not_mem _ hmem]
    exact hs.2

lemma sessionStep_blanks (kind : TableKind) (s : Table × VarMap) (c : TableCmd) (hs : Unblanked s)
    (hbad : RemovesSet s c) : ¬ ∀ n, tableGet (sessionStep kind s c).2.1 n = (sessionStep kind s c).2.2.lookup n := by
  cases c with
  | assign n v => exact absurd hbad id
  | remove n =>
    intro hall
    have hnil := hall []
    have hunnamed := (hs.1.clearFirst n.property.1 []).unnamed
    rw [tableGet_eq, sessionStep, tableStep_remove kind hs.1] at hnil
    refine hs.1.get_blank_clearFirst n.property.1 hbad [] (hnil.trans ?_)
    exact Finmap.lookup_eq_none.mpr hunnamed

lemma Standing.tableGet (hs : Standing s) {n : CStr} (hn : n ≠ []) : tableGet s.1 n = s.2.lookup n := by
  rw [tableGet_eq]
  exact hs.lookup n hn

lemma Unblanked.tableGet (hs : Unblanked s) (n : CStr) : tableGet s.1 n = s.2.lookup n := by
  by_cases hn : n = []
  · rw [hn, tableGet_eq, hs.2, Finmap.lookup_eq_none.mpr hs.1.unnamed]
  · exact hs.1.tableGet hn

/-! ## Whole sessions -/

lemma start_unblanked (kind : TableKind) : Unblanked (kind.start, mapOf kind.start) := by
  cases kind with
  | vars => exact ⟨represents_nil 32 [], rfl⟩
  | aliases =>
    have hll := (represents_nil 32 ([] : CStr)).append (n := cstr "ll") (v := cstr "ls -la") (by decide) (by decide)
      (by decide)
    have hla := hll.append (n := cstr "la") (v := cstr "ls -la") (by decide) (by decide) (by decide)
    have hcls := hla.append (n := cstr "cls") (v := cstr "clear") (by decide) (by decide) (by decide)
    exact ⟨hcls, by decide⟩

/-- **When the tables are finite maps**, in a session of assignments and removals of names of 1 to
31 bytes:

* a lookup of every name, the empty one included, gives after every command what the map gives,
  exactly when no command removes a name that is set;
* a lookup of every name but the empty one does, exactly when no command assigns a name that is not
  set while all slots are in use and fewer than 32 names are set. -/
theorem tables_refine_iff (kind : TableKind) (cs : List TableCmd) :
    ((∀ e ∈ session kind cs, ∀ n, tableGet e.after.1 n = e.after.2.lookup n) ↔
      ∀ e ∈ session kind cs, ¬ RemovesSet e.before e.input) ∧
    ((∀ e ∈ session kind cs, ∀ n, n ≠ [] → tableGet e.after.1 n = e.after.2.lookup n) ↔
      ∀ e ∈ session kind cs, ¬ LosesSlot e.before e.input) := by
  have hstart := start_unblanked kind
  constructor
  · exact Machine.events_invariant_iff (fun s => ∀ n, tableGet s.1 n = s.2.lookup n) (fun s hs => hs.tableGet)
      (sessionStep_unblanked kind) (fun s c hs hc => sessionStep_blanks kind s c hs (not_not.mp hc)) hstart cs
  · exact Machine.events_invariant_iff (fun s => ∀ n, n ≠ [] → tableGet s.1 n = s.2.lookup n)
      (fun s hs n hn => Standing.tableGet hs hn) (sessionStep_standing kind)
      (fun s c hs hc => sessionStep_lost kind s c hs (not_not.mp hc)) hstart.1 cs

lemma nameA_fits : [chr 'a'] ≠ [] ∧ [chr 'a'].length ≤ 31 := by decide

lemma value1_fits : [chr '1'].length ≤ 127 := by decide

/-- `set a=1` -/
def assignA : TableCmd := .assign ⟨[chr 'a'], nameA_fits⟩ ⟨[chr '1'], value1_fits⟩

/-- `unset a` -/
def removeA : TableCmd := .remove ⟨[chr 'a'], nameA_fits⟩

/-- After `set` and `unset` the empty name has a value; after 32 of each `set a=1` is dropped. -/
theorem tables_lose_a :
    let once := Machine.exec (sessionStep .vars) ([], ∅) [assignA, removeA]
    let often := Machine.exec (sessionStep .vars) ([], ∅) (replicate 32 [assignA, removeA]).flatten
    tableGet once.1 [] = some [] ∧ once.2.lookup [] = none ∧
      often.2.keys.card = 0 ∧ tableGet (sessionStep .vars often assignA).2.1 [chr 'a'] = none ∧
      (sessionStep .vars often assignA).2.2.lookup [chr 'a'] = some [chr '1'] := by
  decide +kernel

end PigOS.Shell
