import PigOS.Shell.Correctness.Config
import PigOS.Shell.Correctness.Memfs

/-!
# `Shell.Correctness.ConfigReaders` — the two readers of `/etc/pigos.conf`

Every branch for the end of a line goes on with the next byte, so that the `break` at the terminator
is never reached: `mcfg_load` leaves every text behind, and `rt_cfg` unless a line decides the key
first. The readers differ on what a comment says: `mcfg_load` takes it for a key that is switched
off, `rt_cfg` skips it.
-/

namespace PigOS.Shell

open List
namespace Conf

open Kernel LineScan

variable {w k' : CStr} {v : Bool}

/-! ## Verdicts -/

variable {k : CStr}

lemma rtVerdict_eq_true_iff {key : CStr} : rtVerdict key w = some true ↔ config ++ key ++ cstr "=y" <+: w := by
  rw [append_isPrefix_iff, length_append, config_length, rtVerdict]
  split
  · rename_i hpre
    simp only [hpre, true_and]
    split
    · rename_i hyes
      simp [hyes]
    · rename_i hyes
      simp only [hyes, iff_false]
      split <;> simp
  · rename_i hpre
    simp [hpre]

lemma rtVerdict_eq_false_iff {key : CStr} :
    rtVerdict key w = some false ↔ config ++ key ++ cstr " i" <+: w ∧ 7 + key.length + 10 ≤ w.length := by
  rw [append_isPrefix_iff, length_append, config_length, rtVerdict]
  split
  · rename_i hpre
    simp only [hpre, true_and]
    split
    · rename_i hyes
      -- the byte behind the key cannot be both
      have hno : ¬ cstr " i" <+: w.drop (7 + key.length) := by
        intro his
        have heq := (prefix_of_prefix_length_le hyes his (by decide)).eq_of_length (by decide)
        exact absurd heq (by decide)
      simp [hno]
    · split
      · rename_i his
        simp [his]
      · rename_i his
        simp [his]
  · rename_i hpre
    simp [hpre]

/-- The line says something about the key, in a way that makes `rt_cfg` return. -/
def Decides (key w : CStr) : Prop :=
  config ++ key ++ cstr "=y" <+: w ∨ config ++ key ++ cstr " i" <+: w ∧ 7 + key.length + 10 ≤ w.length

lemma rtVerdict_ne_none_iff {key : CStr} : rtVerdict key w ≠ none ↔ Decides key w := by
  unfold Decides
  rw [← rtVerdict_eq_true_iff, ← rtVerdict_eq_false_iff]
  cases rtVerdict key w with
  | none => simp
  | some v => cases v <;> simp

/-! ## Stopping -/

/-- The reader returns, and has read no byte behind the terminator until then. -/
def Stops {σ ρ : Type} (o : Outcome σ ρ) : Prop := ∃ r, o = .returned r

lemma mcfgLoad_stops_iff (fs : Pigfs) (items : List MCfgItem) : Stops (mcfgLoad fs items) ↔ confText fs = [] := by
  rw [mcfgLoad_eq, Stops]
  split
  · rename_i hempty
    simp [hempty]
  · rename_i hempty
    simp [hempty]

lemma rtCfg_stops_iff (fs : Pigfs) (key : CStr) :
    Stops (rtCfg fs key) ↔ confText fs = [] ∨ ∃ w ∈ lines (confText fs), Decides key w := by
  have hfind : (lines (confText fs)).findSome? (rtVerdict key) ≠ none ↔ ∃ w ∈ lines (confText fs), Decides key w := by
    rw [ne_eq, findSome?_eq_none_iff, not_forall]
    simp only [← rtVerdict_ne_none_iff, Classical.not_imp, ne_eq]
  rw [rtCfg_eq, Stops, ← hfind]
  split
  · rename_i hempty
    simp [hempty]
  · rename_i hempty
    cases (lines (confText fs)).findSome? (rtVerdict key) with
    | none => simp [hempty]
    | some v => simp

/-- **When the readers stop.** Both return, without a read behind the terminator, exactly when there
is no text; `rt_cfg` also if one of its lines decides the key. -/
theorem readers_stop_iff (fs : Pigfs) (items : List MCfgItem) (key : CStr) :
    (Stops (mcfgLoad fs items) ∧ Stops (rtCfg fs key) ↔ confText fs = []) ∧
    (Stops (rtCfg fs key) ↔ confText fs = [] ∨ ∃ w ∈ lines (confText fs), Decides key w) := by
  refine ⟨?_, rtCfg_stops_iff fs key⟩
  rw [mcfgLoad_stops_iff, rtCfg_stops_iff]
  exact ⟨fun h => h.1, fun h => ⟨h, .inl h⟩⟩

lemma mcfgPath_short : mcfgPath.length < pathField := by decide

/-- `/etc` is critical, so that the configuration file is never tombstoned. -/
lemma mcfgPath_not_deleted {fs : Pigfs} (h : DelInv fs) : fsIsDeleted fs mcfgPath = false := by
  have hcrit : isCriticalPath mcfgPath = true := by decide
  rw [← Bool.not_eq_true, h.fsIsDeleted_iff]
  intro hmem
  have hdel := (mem_deletable.mp (h.deletable mcfgPath hmem)).2
  rw [hcrit] at hdel
  exact absurd hdel (by simp)

lemma confText_mcfgSave {fs : Pigfs} (h : DelInv fs) (hslot : (memfsCreate fs mcfgPath).1.isSome = true)
    (text : Content) : confText (mcfgSave fs text) = text.val := by
  have hsaved : fileText (mcfgSave fs text) mcfgPath = some text.val :=
    fileText_saveFile mcfgPath_short (mcfgPath_not_deleted h) hslot text
  rw [confText, hsaved]
  rfl

/-- The file system right after power-on, with a text saved as the configuration. -/
def configured (text : Content) : Pigfs := mcfgSave (boot zeroStore).fs text

lemma boot_slot : (memfsCreate (boot zeroStore).fs mcfgPath).1.isSome = true := by decide +kernel

lemma confText_configured (text : Content) : confText (configured text) = text.val := by
  have hmagic : zeroStore.magic ≠ delMagic := by decide
  exact confText_mcfgSave (boot_deletions hmagic).1 boot_slot text

lemma oink_short : (cstr "oink").length < contentField := by decide

/-- With one line that says nothing, neither reader stops. -/
theorem readers_leave_oink :
    ¬ Stops (mcfgLoad (configured ⟨cstr "oink", oink_short⟩) mcfgItems) ∧
      ¬ Stops (rtCfg (configured ⟨cstr "oink", oink_short⟩) (cstr "LWIP")) := by
  have htext := confText_configured ⟨cstr "oink", oink_short⟩
  have hline : ¬ Decides (cstr "LWIP") (cstr "oink") := by
    unfold Decides
    decide
  refine ⟨?_, ?_⟩
  · rw [mcfgLoad_stops_iff, htext]
    decide
  · rw [rtCfg_stops_iff, htext]
    rintro (hempty | ⟨w, hw, hdec⟩)
    · exact absurd hempty (by decide)
    · have hlines : lines (cstr "oink") = [cstr "oink"] := by decide
      rw [hlines, mem_singleton] at hw
      exact hline (hw ▸ hdec)

/-! ## Lines of the documented form -/

/-- The documented forms: a key that is on, two ways to write one that is off, comments, and blank
lines. -/
inductive ConfLine where
  | set (k : CStr) | unset (k : CStr) | commentUnset (k : CStr)
  | comment (t : CStr) | blank (n : Nat)
  deriving DecidableEq

def ConfLine.render : ConfLine → CStr
  | .set k => config ++ k ++ cstr "=y"
  | .unset k => config ++ k ++ cstr " is not set"
  | .commentUnset k => hash :: space :: (config ++ k ++ cstr " is not set")
  | .comment t => hash :: t
  | .blank n => replicate n space

/-- The key that occurs in a line. -/
def ConfLine.key : ConfLine → Option CStr
  | .set k | .unset k | .commentUnset k => some k
  | .comment _ | .blank _ => none

/-- A key has no byte that ends one. -/
def IsKey (k : CStr) : Prop := ∀ b ∈ k, keyByte b = true

/-- The keys are keys, and what is called another comment is not the comment for a key that is
off. -/
def ConfLine.Documented : ConfLine → Prop
  | .set k | .unset k | .commentUnset k => IsKey k
  | .comment t => ∀ k, IsKey k → t ≠ space :: (config ++ k ++ cstr " is not set")
  | .blank _ => True

/-- A comment that `mcfg_load` takes for the key: any byte, `CONFIG_`, the key, `=` or a space or
the end. -/
def NamesKey (k t : CStr) : Prop := ∃ b r, t = b :: (config ++ k ++ r) ∧ ∀ c ∈ r.head?, keyByte c = false

lemma yes_eq : cstr "=y" = equalSign :: cstr "y" := by decide

lemma isI_eq : cstr " i" = space :: cstr "i" := by decide

lemma notSet_eq : cstr " is not set" = space :: cstr "is not set" := by decide

lemma notSet_head : ∀ c ∈ (cstr " is not set").head?, keyByte c = false := by
  intro c hc
  rw [notSet_eq] at hc
  obtain rfl : space = c := Option.some.inj hc
  decide

lemma takeWhile_key (hk : IsKey k) {r : CStr} (hr : ∀ c ∈ r.head?, keyByte c = false) :
    (k ++ r).takeWhile keyByte = k := by
  rw [takeWhile_append_of_pos hk]
  cases r with
  | nil => simp
  | cons c r => rw [takeWhile_cons_of_neg (by rw [hr c rfl]; simp), append_nil]

section Keys

variable (hk : IsKey k) (hk' : IsKey k')

include hk hk'

/-- Two keys, each with what ends it, begin alike only when they are the same. -/
lemma key_isPrefix_iff {c c' : CChar} (hc : keyByte c = false)
    (hc' : keyByte c' = false) (s t : CStr) : k ++ c :: s <+: k' ++ c' :: t ↔ k = k' ∧ c :: s <+: c' :: t := by
  constructor
  · rintro ⟨u, hu⟩
    have htake := congrArg (List.takeWhile keyByte) hu
    rw [append_assoc, cons_append, takeWhile_key hk (by simpa using hc), takeWhile_key hk' (by simpa using hc')]
      at htake
    subst htake
    rw [append_assoc] at hu
    exact ⟨rfl, u, append_cancel_left hu⟩
  · rintro ⟨rfl, h⟩
    exact (prefix_append_right_inj k).mpr h

lemma config_key_isPrefix_iff {c c' : CChar} (hc : keyByte c = false)
    (hc' : keyByte c' = false) (s t : CStr) :
    config ++ k ++ c :: s <+: config ++ k' ++ c' :: t ↔ k = k' ∧ c :: s <+: c' :: t := by
  rw [append_assoc, append_assoc, prefix_append_right_inj, key_isPrefix_iff hk hk' hc hc']

lemma rtVerdict_other (hne : k ≠ k') {c : CChar}
    (hc : keyByte c = false) (t : CStr) : rtVerdict k (config ++ k' ++ c :: t) = none := by
  rw [← not_ne_iff, rtVerdict_ne_none_iff]
  rintro (h | ⟨h, -⟩)
  · rw [yes_eq, config_key_isPrefix_iff hk hk' (by decide) hc] at h
    exact hne h.1
  · rw [isI_eq, config_key_isPrefix_iff hk hk' (by decide) hc] at h
    exact hne h.1

lemma rtVerdict_set :
    rtVerdict k (config ++ k' ++ cstr "=y") = if k = k' then some true else none := by
  split
  · rename_i heq
    rw [heq]
    exact rtVerdict_eq_true_iff.mpr (prefix_refl _)
  · rename_i hne
    rw [yes_eq]
    exact rtVerdict_other hk hk' hne (by decide) _

lemma rtVerdict_unset :
    rtVerdict k (config ++ k' ++ cstr " is not set") = if k = k' then some false else none := by
  split
  · rename_i heq
    rw [heq]
    refine rtVerdict_eq_false_iff.mpr ⟨?_, ?_⟩
    · rw [prefix_append_right_inj]
      decide
    · rw [length_append, length_append, config_length]
      have hlen : (cstr " is not set").length = 11 := by decide
      omega
  · rename_i hne
    rw [notSet_eq]
    exact rtVerdict_other hk hk' hne (by decide) _

end Keys

lemma rtVerdict_comment (k t : CStr) : rtVerdict k (hash :: t) = none := by
  refine rtVerdict_of_not_isPrefix ?_
  rintro ⟨r, hr⟩
  exact absurd (cons.inj hr).1 (by decide)

lemma not_config_replicate (n : Nat) : ¬ config <+: replicate n space := by
  intro h
  have hmem : chr 'C' ∈ replicate n space := h.subset (by simp [config, cstr])
  exact absurd (eq_of_mem_replicate hmem) (by decide)

variable {c : ConfLine}

lemma rtVerdict_render (hk : IsKey k) (hc : c.Documented) :
    rtVerdict k c.render = if c = .set k then some true else if c = .unset k then some false else none := by
  cases c with
  | set k' =>
    rw [ConfLine.render, rtVerdict_set hk hc]
    simp [eq_comm]
  | unset k' =>
    rw [ConfLine.render, rtVerdict_unset hk hc]
    simp [eq_comm]
  | commentUnset k' => simp [ConfLine.render, rtVerdict_comment]
  | comment t => simp [ConfLine.render, rtVerdict_comment]
  | blank n => simp [ConfLine.render, rtVerdict_of_not_isPrefix (not_config_replicate n)]

lemma mcfgVerdict_key (hk : IsKey k) {c : CChar} (hc : keyByte c = false) (t : CStr) :
    mcfgVerdict (config ++ k ++ c :: t) = some (k, decide (cstr "=y" <+: c :: t)) := by
  have hun : uncomment (config ++ k ++ c :: t) = config ++ k ++ c :: t := if_neg (by
    show some (chr 'C') ≠ some hash
    decide)
  have hrest : (config ++ k ++ c :: t).drop 7 = k ++ c :: t := by
    rw [append_assoc]
    exact drop_left' config_length
  have hlen : 8 ≤ (config ++ k ++ c :: t).length := by
    rw [length_append, length_append, config_length, length_cons]
    omega
  have hpre : config <+: uncomment (config ++ k ++ c :: t) := by
    rw [hun, append_assoc]
    exact prefix_append _ _
  have hhead : decide ((config ++ k ++ c :: t).head? ≠ some hash) = true := by
    rw [decide_eq_true_eq]
    show some (chr 'C') ≠ some hash
    decide
  rw [mcfgVerdict, if_pos ⟨hlen, hpre⟩]
  simp only [hun, hrest, takeWhile_key hk (by simpa using hc : ∀ d ∈ (c :: t).head?, keyByte d = false),
    drop_left, hhead, Bool.true_and]

/-- Which comments set a key: those that name it, and they switch it off. -/
lemma mcfgVerdict_comment (hk : IsKey k) (t : CStr) (v : Bool) :
    mcfgVerdict (hash :: t) = some (k, v) ↔ NamesKey k t ∧ v = false := by
  have hun : uncomment (hash :: t) = t.drop 1 := if_pos rfl
  have hhead : decide ((hash :: t).head? ≠ some hash) = false := by
    rw [decide_eq_false_iff_not]
    exact fun h => h rfl
  constructor
  · intro h
    rw [mcfgVerdict] at h
    split at h
    · rename_i hpre
      simp only [hun, hhead, Bool.false_and, Option.some.injEq, Prod.mk.injEq] at h
      obtain ⟨hkey, rfl⟩ := h
      obtain ⟨-, ⟨r, hr⟩⟩ := hpre
      rw [hun] at hr
      cases t with
      | nil =>
        have hlen := congrArg length hr
        rw [length_append, config_length] at hlen
        exact absurd hlen (by simp)
      | cons b t =>
        rw [drop_one, tail_cons] at hr hkey
        rw [← hr, drop_left' config_length] at hkey
        refine ⟨⟨b, r.dropWhile keyByte, ?_, ?_⟩, rfl⟩
        · rw [← hr, append_assoc, ← hkey, takeWhile_append_dropWhile]
        · intro c hc
          have hnot := head?_dropWhile_not (p := keyByte) r
          rw [hc] at hnot
          simpa using hnot
    · exact absurd h (by simp)
  · rintro ⟨⟨b, r, rfl, hr⟩, rfl⟩
    have hpre : config <+: uncomment (hash :: b :: (config ++ k ++ r)) := by
      rw [hun, drop_one, tail_cons, append_assoc]
      exact prefix_append _ _
    have hlen : 8 ≤ (hash :: b :: (config ++ k ++ r)).length := by
      rw [length_cons, length_cons, length_append, length_append, config_length]
      omega
    have hrest : (config ++ k ++ r).drop 7 = k ++ r := by
      rw [append_assoc]
      exact drop_left' config_length
    rw [mcfgVerdict, if_pos ⟨hlen, hpre⟩]
    simp only [hun, drop_one, tail_cons, hrest, takeWhile_key hk hr, hhead, Bool.false_and]

lemma mcfgVerdict_render (hk : IsKey k) (hc : c.Documented) (v : Bool) : mcfgVerdict c.render = some (k, v) ↔
      c = .set k ∧ v = true ∨
        (c = .unset k ∨ c = .commentUnset k ∨ ∃ t, c = .comment t ∧ NamesKey k t) ∧ v = false := by
  cases c with
  | set k' =>
    rw [ConfLine.render, yes_eq, mcfgVerdict_key hc (by decide), ← yes_eq]
    simp [eq_comm]
  | unset k' =>
    have hno : decide (cstr "=y" <+: space :: cstr "is not set") = false := by decide
    rw [ConfLine.render, notSet_eq, mcfgVerdict_key hc (by decide), hno]
    simp [eq_comm]
  | commentUnset k' =>
    have hnames : NamesKey k (space :: (config ++ k' ++ cstr " is not set")) ↔ k' = k := by
      constructor
      · rintro ⟨b, r, hr, hend⟩
        have htake := congrArg (List.takeWhile keyByte) (append_cancel_left
          ((append_assoc ..).symm.trans ((cons.inj hr).2.trans (append_assoc ..))))
        rwa [takeWhile_key hk hend, takeWhile_key hc notSet_head] at htake
      · rintro rfl
        exact ⟨space, _, rfl, notSet_head⟩
    rw [ConfLine.render, mcfgVerdict_comment hk, hnames]
    simp
  | comment t =>
    rw [ConfLine.render, mcfgVerdict_comment hk]
    simp
  | blank n =>
    have hun : uncomment (replicate n space) = replicate n space := by
      rw [uncomment, if_neg]
      cases n with
      | zero => simp
      | succ n =>
        show some space ≠ some hash
        decide
    rw [ConfLine.render, mcfgVerdict, if_neg (fun h => not_config_replicate n (hun ▸ h.2))]
    simp

/-! ## Agreement -/

/-- The value of the item with a key. -/
def lookup (k : CStr) (items : List MCfgItem) : Option Bool := (items.find? (fun it => it.key = k)).map MCfgItem.val

lemma assign_keys (k : CStr) (v : Bool) (items : List MCfgItem) :
    (assign k v items).map MCfgItem.key = items.map MCfgItem.key := by
  induction items with
  | nil => rfl
  | cons it items ih =>
    rw [assign]
    split
    · rfl
    · rw [map_cons, ih, map_cons]

variable {items : List MCfgItem}

lemma lookup_assign (hk : k ∈ items.map MCfgItem.key) (v : Bool) :
    lookup k (assign k' v items) = if k' = k then some v else lookup k items := by
  unfold lookup
  induction items with
  | nil => exact absurd hk not_mem_nil
  | cons it items ih =>
    rw [assign]
    by_cases hit : it.key = k'
    · rw [if_pos hit]
      by_cases hkk : k' = k
      · rw [if_pos hkk, find?_cons_of_pos (by simp [hit, hkk])]
        rfl
      · have hne : it.key ≠ k := fun h => hkk (hit.symm.trans h)
        rw [if_neg hkk, find?_cons_of_neg (by simpa using hne), find?_cons_of_neg (by simpa using hne)]
    · rw [if_neg hit]
      by_cases hik : it.key = k
      · have hkk : k' ≠ k := fun h => hit (hik.trans h.symm)
        rw [if_neg hkk, find?_cons_of_pos (by simpa using hik), find?_cons_of_pos (by simpa using hik)]
      · have hk' : k ∈ items.map MCfgItem.key := by
          rcases mem_cons.mp hk with h | h
          · exact absurd h.symm hik
          · exact h
        rw [find?_cons_of_neg (by simpa using hik), find?_cons_of_neg (by simpa using hik), ih hk']

lemma mcfgStep_keys (items : List MCfgItem) (w : CStr) :
    (mcfgStep items w).map MCfgItem.key = items.map MCfgItem.key := by
  unfold mcfgStep
  cases mcfgVerdict w with
  | none => rfl
  | some kv => exact assign_keys kv.1 kv.2 items

lemma foldl_mcfgStep_keys (ws : List CStr) (items : List MCfgItem) :
    (ws.foldl mcfgStep items).map MCfgItem.key = items.map MCfgItem.key := by
  induction ws generalizing items with
  | nil => rfl
  | cons w ws ih => rw [foldl_cons, ih, mcfgStep_keys]

/-- The step lemma: a line that sets the key leaves its value there. -/
lemma lookup_mcfgStep (hk : k ∈ items.map MCfgItem.key)
    (hw : mcfgVerdict w = some (k, v)) : lookup k (mcfgStep items w) = some v := by
  rw [mcfgStep, hw, Option.elim_some, lookup_assign hk, if_pos rfl]

/-- The run lemma: a value lasts through lines that set the key to that value or not at all. -/
lemma lookup_foldl (hk : k ∈ items.map MCfgItem.key)
    (hv : lookup k items = some v) {ws : List CStr} (hws : ∀ w ∈ ws, ∀ v', mcfgVerdict w = some (k, v') → v' = v) :
    lookup k (ws.foldl mcfgStep items) = some v := by
  induction ws generalizing items with
  | nil => exact hv
  | cons w ws ih =>
    rw [forall_mem_cons] at hws
    refine ih (by rwa [mcfgStep_keys]) ?_ hws.2
    cases hw : mcfgVerdict w with
    | none => rwa [mcfgStep, hw]
    | some kv =>
      by_cases hkey : kv.1 = k
      · have hkv : mcfgVerdict w = some (k, kv.2) := by rw [hw, ← hkey]
        rw [lookup_mcfgStep hk hkv, hws.1 kv.2 hkv]
      · rw [mcfgStep, hw, Option.elim_some, lookup_assign hk, if_neg hkey]
        exact hv

lemma lookup_foldl_split (hk : k ∈ items.map MCfgItem.key) {before after : List CStr}
    (hw : mcfgVerdict w = some (k, v)) (hafter : ∀ w ∈ after, ∀ v', mcfgVerdict w = some (k, v') → v' = v) :
    lookup k ((before ++ w :: after).foldl mcfgStep items) = some v := by
  rw [foldl_append, foldl_cons]
  have hkeys : k ∈ (before.foldl mcfgStep items).map MCfgItem.key := by rwa [foldl_mcfgStep_keys]
  exact lookup_foldl (by rwa [mcfgStep_keys]) (lookup_mcfgStep hkeys hw) hafter

/-- The value `mcfg_load` gives to a key is what `rt_cfg` returns, both taken to stop at the
terminator. -/
def Agree (fs : Pigfs) (items : List MCfgItem) (k : CStr) : Prop :=
  lookup k ((mcfgLoad fs items).orElse id) = some ((rtCfg fs k).orElse fun _ => true)

/-- A configuration text of the documented form, in which no key occurs twice. -/
structure IsConfig (text : CStr) (cs : List ConfLine) : Prop where
  cut : lines text = cs.map ConfLine.render
  documented : ∀ c ∈ cs, c.Documented
  once : (cs.filterMap ConfLine.key).Nodup

/-- The key is off in a line of its own; or it is on, and no comment behind that line names it. -/
def PlainlySet (k : CStr) (cs : List ConfLine) : Prop :=
  .unset k ∈ cs ∨ ∃ before after, cs = before ++ .set k :: after ∧ ∀ t, .comment t ∈ after → ¬ NamesKey k t

section Agreement

variable {fs : Pigfs} {cs : List ConfLine} {k : CStr} {before after : List ConfLine}

lemma rtVerdict_of_key_ne (hk : IsKey k) (hc : c.Documented) (hne : c.key ≠ some k) : rtVerdict k c.render = none := by
  rw [rtVerdict_render hk hc, if_neg, if_neg]
  · rintro rfl
    exact hne rfl
  · rintro rfl
    exact hne rfl

section Key

variable (h : IsConfig (confText fs) cs) (hk : k ∈ cs.filterMap ConfLine.key)

include h hk

lemma IsConfig.isKey : IsKey k := by
  obtain ⟨c, hc, hck⟩ := mem_filterMap.mp hk
  have hdoc := h.documented c hc
  cases c with
  | set k' | unset k' | commentUnset k' =>
    rw [← Option.some.inj hck]
    exact hdoc
  | comment t => exact absurd hck (by simp [ConfLine.key])
  | blank n => exact absurd hck (by simp [ConfLine.key])

lemma IsConfig.ne_nil : confText fs ≠ [] := by
  intro hempty
  have hlines := h.cut
  rw [hempty] at hlines
  have hnil : ∀ c ∈ cs, c.render = [] := by
    intro c hc
    have hmem : c.render ∈ lines [] := by
      rw [hlines]
      exact mem_map_of_mem hc
    exact mem_singleton.mp hmem
  obtain ⟨c, hc, hck⟩ := mem_filterMap.mp hk
  have hrender := hnil c hc
  cases c with
  | set k' | unset k' => exact absurd hrender (by simp [ConfLine.render, config, cstr])
  | commentUnset k' => exact absurd hrender (by simp [ConfLine.render])
  | comment t => exact absurd hck (by simp [ConfLine.key])
  | blank n => exact absurd hck (by simp [ConfLine.key])

lemma IsConfig.mcfgLoad_eq (items : List MCfgItem) :
    (mcfgLoad fs items).orElse id = (cs.map ConfLine.render).foldl mcfgStep items := by
  rw [Conf.mcfgLoad_eq, if_neg (h.ne_nil hk), h.cut]
  rfl

end Key

section Line

variable (h : IsConfig (confText fs) (before ++ c :: after)) (hc : c.key = some k)

include h hc

lemma IsConfig.others : (∀ c' ∈ before, c'.key ≠ some k) ∧ ∀ c' ∈ after, c'.key ≠ some k := by
  have honce := h.once
  rw [filterMap_append, filterMap_cons_some hc, nodup_middle, nodup_cons, mem_append,
    not_or] at honce
  exact ⟨fun c' hc' hk => honce.1.1 (mem_filterMap.mpr ⟨c', hc', hk⟩),
    fun c' hc' hk => honce.1.2 (mem_filterMap.mpr ⟨c', hc', hk⟩)⟩

lemma IsConfig.unique {c' : ConfLine} (hmem : c' ∈ before ++ c :: after) (hkey : c'.key = some k) : c' = c := by
  obtain ⟨hbefore, hafter⟩ := h.others hc
  rcases mem_append.mp hmem with hmem | hmem
  · exact absurd hkey (hbefore c' hmem)
  · exact (mem_cons.mp hmem).resolve_right fun hmem => hafter c' hmem hkey

/-- What is known of a line that is about a key, and of those behind it. -/
lemma IsConfig.line :
    k ∈ (before ++ c :: after).filterMap ConfLine.key ∧ IsKey k ∧ ∀ c' ∈ c :: after, c'.Documented := by
  have hmem : k ∈ (before ++ c :: after).filterMap ConfLine.key :=
    mem_filterMap.mpr ⟨c, mem_append_right _ mem_cons_self, hc⟩
  exact ⟨hmem, h.isKey hmem, fun c' hc' => h.documented c' (mem_append_right _ hc')⟩

/-- What `rt_cfg` makes of the text is what it makes of the line with the key. -/
lemma IsConfig.rtCfg_eq :
    (rtCfg fs k).orElse (fun _ => true) = (rtVerdict k c.render).getD true := by
  obtain ⟨hmem, hk, -⟩ := h.line hc
  obtain ⟨hbefore, hafter⟩ := h.others hc
  have hnone : ∀ ds : List ConfLine, (∀ c' ∈ ds, c' ∈ before ++ c :: after ∧ c'.key ≠ some k) →
      (ds.map ConfLine.render).findSome? (rtVerdict k) = none := by
    intro ds hds
    rw [findSome?_eq_none_iff]
    intro w hw
    obtain ⟨c', hc', rfl⟩ := mem_map.mp hw
    exact rtVerdict_of_key_ne hk (h.documented c' (hds c' hc').1) (hds c' hc').2
  rw [Conf.rtCfg_eq, if_neg (h.ne_nil hmem), h.cut, map_append, map_cons, findSome?_append,
    hnone before (fun c' hc' => ⟨mem_append_left _ hc', hbefore c' hc'⟩), findSome?_cons]
  cases rtVerdict k c.render with
  | some v => rfl
  | none =>
    simp only [Option.none_or]
    rw [hnone after (fun c' hc' => ⟨mem_append_right _ (mem_cons_of_mem c hc'), hafter c' hc'⟩)]
    rfl

end Line

/-- A key is on or off at the end, according to its line and the comments behind that. -/
lemma IsConfig.lookup_off
    (h : IsConfig (confText fs) (before ++ c :: after)) (hitem : k ∈ items.map MCfgItem.key)
    (hc : c = .unset k ∨ c = .commentUnset k) : lookup k ((mcfgLoad fs items).orElse id) = some false := by
  have hkey : c.key = some k := by rcases hc with rfl | rfl <;> rfl
  obtain ⟨hmem, hk, hdoc⟩ := h.line hkey
  rw [h.mcfgLoad_eq hmem, map_append, map_cons]
  refine lookup_foldl_split hitem ((mcfgVerdict_render hk (hdoc c mem_cons_self) false).mpr (.inr ⟨?_, rfl⟩)) ?_
  · exact hc.imp_right .inl
  · intro w hw v hv
    obtain ⟨c', hc', rfl⟩ := mem_map.mp hw
    rcases (mcfgVerdict_render hk (hdoc c' (mem_cons_of_mem c hc')) v).mp hv with ⟨rfl, -⟩ | ⟨-, hv⟩
    · exact absurd rfl ((h.others hkey).2 _ hc')
    · exact hv

lemma IsConfig.lookup_set (h : IsConfig (confText fs) (before ++ .set k :: after))
    (hitem : k ∈ items.map MCfgItem.key) :
    lookup k ((mcfgLoad fs items).orElse id) = some true ↔ ∀ t, .comment t ∈ after → ¬ NamesKey k t := by
  have hkey : (ConfLine.set k).key = some k := rfl
  obtain ⟨hmem, hk, hdoc⟩ := h.line hkey
  -- behind the line, only a comment can set the key again
  have hlater : ∀ c' ∈ after, ∀ v, mcfgVerdict c'.render = some (k, v) →
      v = false ∧ ∃ t, c' = .comment t ∧ NamesKey k t := by
    intro c' hc' v hv
    rcases (mcfgVerdict_render hk (hdoc c' (mem_cons_of_mem _ hc')) v).mp hv with ⟨rfl, -⟩ | ⟨hc, hv⟩
    · exact absurd rfl ((h.others hkey).2 _ hc')
    · rcases hc with rfl | rfl | hc
      · exact absurd rfl ((h.others hkey).2 _ hc')
      · exact absurd rfl ((h.others hkey).2 _ hc')
      · exact ⟨hv, hc⟩
  rw [h.mcfgLoad_eq hmem, map_append, map_cons]
  constructor
  · intro hlookup t ht hnames
    obtain ⟨ds, es, rfl⟩ := append_of_mem ht
    have hoff : lookup k ((before.map ConfLine.render ++ (ConfLine.set k).render :: ds.map ConfLine.render ++
        (ConfLine.comment t).render :: es.map ConfLine.render).foldl mcfgStep items) = some false := by
      refine lookup_foldl_split hitem ((mcfgVerdict_comment hk t false).mpr ⟨hnames, rfl⟩) ?_
      intro w hw v hv
      obtain ⟨c', hc', rfl⟩ := mem_map.mp hw
      exact (hlater c' (mem_append_right _ (mem_cons_of_mem _ hc')) v hv).1
    rw [append_assoc, cons_append, ← map_cons, ← map_append, hlookup] at hoff
    exact absurd (Option.some.inj hoff) (by simp)
  · intro hcomments
    refine lookup_foldl_split hitem ((mcfgVerdict_render hk (hdoc _ mem_cons_self) true).mpr (.inl ⟨rfl, rfl⟩)) ?_
    intro w hw v hv
    obtain ⟨c', hc', rfl⟩ := mem_map.mp hw
    obtain ⟨-, t, rfl, hnames⟩ := hlater c' hc' v hv
    exact absurd hnames (hcomments t hc')

lemma not_plainlySet_of_comment (h : IsConfig (confText fs) (before ++ .commentUnset k :: after)) :
    ¬ PlainlySet k (before ++ .commentUnset k :: after) := by
  rintro (hunset | ⟨bs, as, hsplit, -⟩)
  · exact absurd (h.unique rfl hunset rfl) (by simp)
  · have hset : .set k ∈ before ++ .commentUnset k :: after := by
      rw [hsplit]
      exact mem_append_right _ mem_cons_self
    exact absurd (h.unique rfl hset rfl) (by simp)

lemma agree_iff (h : IsConfig (confText fs) cs) (hk : k ∈ cs.filterMap ConfLine.key)
    (hitem : k ∈ items.map MCfgItem.key) : Agree fs items k ↔ PlainlySet k cs := by
  obtain ⟨c, hc, hkey⟩ := mem_filterMap.mp hk
  obtain ⟨before, after, rfl⟩ := append_of_mem hc
  have hisKey := h.isKey hk
  have hdoc := h.documented c hc
  unfold Agree
  rw [h.rtCfg_eq hkey, rtVerdict_render hisKey hdoc]
  cases c with
  | set k' =>
    obtain rfl : k' = k := Option.some.inj hkey
    rw [if_pos rfl, Option.getD_some, h.lookup_set hitem]
    constructor
    · intro hcomments
      exact .inr ⟨before, after, rfl, hcomments⟩
    · rintro (hunset | ⟨bs, as, hsplit, hcomments⟩)
      · exact absurd (h.unique rfl hunset rfl) (by simp)
      · have hother : IsConfig (confText fs) (bs ++ .set k' :: as) := hsplit ▸ h
        exact (h.lookup_set hitem).mp ((hother.lookup_set hitem).mpr hcomments)
  | unset k' =>
    obtain rfl : k' = k := Option.some.inj hkey
    rw [if_neg (by simp), if_pos rfl, Option.getD_some, h.lookup_off hitem (.inl rfl)]
    exact ⟨fun _ => .inl hc, fun _ => rfl⟩
  | commentUnset k' =>
    obtain rfl : k' = k := Option.some.inj hkey
    rw [if_neg (by simp), if_neg (by simp), Option.getD_none, h.lookup_off hitem (.inr rfl)]
    exact ⟨fun heq => absurd (Option.some.inj heq) (by simp), fun hp => absurd hp (not_plainlySet_of_comment h)⟩
  | comment t => exact absurd hkey (by simp [ConfLine.key])
  | blank n => exact absurd hkey (by simp [ConfLine.key])

end Agreement

/-- **When the readers agree.** On a text of the documented form in which no key occurs twice,
`mcfg_load` gives to each item that occurs what `rt_cfg` returns for its key exactly when each of
these keys is plainly set: in a line `CONFIG_K is not set`, or in a line `CONFIG_K=y` with no
comment behind it that names the key. -/
theorem readers_agree_iff {fs : Pigfs} {cs : List ConfLine} (h : IsConfig (confText fs) cs) (items : List MCfgItem) :
    (∀ it ∈ items, it.key ∈ cs.filterMap ConfLine.key → Agree fs items it.key) ↔
      ∀ it ∈ items, it.key ∈ cs.filterMap ConfLine.key → PlainlySet it.key cs := by
  have hiff : ∀ it ∈ items, it.key ∈ cs.filterMap ConfLine.key → (Agree fs items it.key ↔ PlainlySet it.key cs) :=
    fun it hit hk => agree_iff h hk (mem_map_of_mem hit)
  exact ⟨fun hagree it hit hk => (hiff it hit hk).mp (hagree it hit hk),
    fun hplain it hit hk => (hiff it hit hk).mpr (hplain it hit hk)⟩

lemma plainText_short : (cstr "CONFIG_LWIP=y\n\n# oink").length < contentField := by decide

/-- `CONFIG_LWIP=y`, a blank line and a comment. -/
def plainText : Content := ⟨cstr "CONFIG_LWIP=y\n\n# oink", plainText_short⟩

lemma not_config_oink (r : CStr) : cstr "oink" ≠ config ++ r := by
  intro h
  have hhead : some (chr 'o') = some (chr 'C') := congrArg List.head? h
  exact absurd hhead (by decide)

/-- In that text the readers agree on the item it sets. -/
theorem readers_agree_plain :
    IsConfig (confText (configured plainText)) [.set (cstr "LWIP"), .blank 0, .comment (cstr " oink")] ∧
      ∀ it ∈ mcfgItems, it.key ∈ [cstr "LWIP"] → Agree (configured plainText) mcfgItems it.key := by
  have hconf : IsConfig (confText (configured plainText)) [.set (cstr "LWIP"), .blank 0, .comment (cstr " oink")] := by
    refine ⟨?_, ?_, ?_⟩
    · rw [confText_configured]
      decide +kernel
    · intro c hc
      simp only [mem_cons, not_mem_nil, or_false] at hc
      rcases hc with rfl | rfl | rfl
      · exact fun b hb => all_eq_true.mp (by decide : (cstr "LWIP").all keyByte = true) b hb
      · trivial
      · intro k _ h
        exact not_config_oink _ ((cons.inj h).2.trans (append_assoc ..))
    · decide
  refine ⟨hconf, (readers_agree_iff hconf mcfgItems).mpr ?_⟩
  intro it _ hkey
  rw [mem_singleton.mp hkey]
  refine .inr ⟨[], _, rfl, ?_⟩
  rintro t ht ⟨b, r, hr, -⟩
  simp only [mem_cons, not_mem_nil, or_false, reduceCtorEq, false_or, ConfLine.comment.injEq] at ht
  rw [ht] at hr
  exact not_config_oink _ ((cons.inj hr).2.trans (append_assoc ..))

lemma offText_short : (cstr "# CONFIG_LWIP is not set").length < contentField := by decide

/-- The text `# CONFIG_LWIP is not set`. -/
def offText : Content := ⟨cstr "# CONFIG_LWIP is not set", offText_short⟩

/-- `mcfg_load` switches the item off, and `rt_cfg` returns 1. -/
theorem readers_disagree_off :
    lines (confText (configured offText)) = [ConfLine.render (.commentUnset (cstr "LWIP"))] ∧
      lookup (cstr "LWIP") ((mcfgLoad (configured offText) mcfgItems).orElse id) = some false ∧
      (rtCfg (configured offText) (cstr "LWIP")).orElse (fun _ => true) = true := by
  rw [mcfgLoad_eq, rtCfg_eq, confText_configured]
  decide +kernel

/-! ## What was saved -/

lemma mcfgKeys_plain : ∀ k ∈ mcfgKeys, k.all (fun b => keyByte b && !isEnd b) = true ∧ k.length ≤ 13 := by
  rw [mcfgKeys, forall_mem_map]
  unfold mcfgKeyNames
  repeat
    refine forall_cstr_cons (P := fun k => k.all (fun b => keyByte b && !isEnd b) = true ∧ k.length ≤ 13) (by decide) ?_
  exact forall_mem_nil _

lemma mcfgKeys_isKey : ∀ k ∈ mcfgKeys, IsKey k := by
  intro k hk b hb
  have hb' := all_eq_true.mp (mcfgKeys_plain k hk).1 b hb
  exact (Bool.and_eq_true_iff.mp hb').1

lemma mcfgKeys_noEnd : ∀ k ∈ mcfgKeys, ∀ b ∈ k, isEnd b = false := by
  intro k hk b hb
  have hb' := all_eq_true.mp (mcfgKeys_plain k hk).1 b hb
  simpa using (Bool.and_eq_true_iff.mp hb').2

lemma mcfgKeys_nodup : mcfgKeys.Nodup := by decide +kernel

/-- The line of an item, without its end. -/
def itemLine (it : MCfgItem) : ConfLine := if it.val then .set it.key else .unset it.key

lemma mcfgItemText_eq (it : MCfgItem) : mcfgItemText it = (itemLine it).render ++ [newline] := by
  unfold mcfgItemText itemLine
  cases it.val <;> rfl

def headerLines : List CStr :=
  [cstr "# pigOS Kernel Configuration", cstr "# Generated by menuconfig", cstr "# Changes apply on next reboot", []]

lemma mcfgHeader_eq : mcfgHeader = headerLines.flatMap (· ++ [newline]) := by decide +kernel

lemma headerLines_noEnd : ∀ w ∈ headerLines, ∀ b ∈ w, isEnd b = false := by
  intro w hw
  simp only [headerLines, mem_cons, not_mem_nil, or_false] at hw
  rcases hw with rfl | rfl | rfl | rfl
  · exact noEnd_of_all (by decide)
  · exact noEnd_of_all (by decide)
  · exact noEnd_of_all (by decide)
  · exact fun b hb => absurd hb not_mem_nil

lemma mcfgText_eq (items : List MCfgItem) :
    mcfgText items = (headerLines ++ items.map (fun it => (itemLine it).render)).flatMap (· ++ [newline]) := by
  rw [mcfgText, flatMap_append, ← mcfgHeader_eq, flatMap_map]
  congr 2
  funext it
  exact mcfgItemText_eq it

section Saved

variable {items : List MCfgItem} {it : MCfgItem}

lemma itemLine_noEnd (hit : it.key ∈ mcfgKeys) : ∀ b ∈ (itemLine it).render, isEnd b = false := by
  have hkey := mcfgKeys_noEnd it.key hit
  have hnot : ∀ b ∈ cstr " is not set", isEnd b = false := noEnd_of_all (by decide)
  have happend : ∀ {s t : CStr}, (∀ b ∈ s, isEnd b = false) → (∀ b ∈ t, isEnd b = false) →
      ∀ b ∈ s ++ t, isEnd b = false :=
    fun hs ht b hb => (mem_append.mp hb).elim (hs b) (ht b)
  unfold itemLine
  cases it.val with
  | true => exact happend (happend config_noEnd hkey) yes_noEnd
  | false => exact happend (happend config_noEnd hkey) hnot

lemma mcfgText_length (hkeys : items.map MCfgItem.key = mcfgKeys) : (mcfgText items).length ≤ 2047 := by
  have hitem : ∀ it ∈ items, (mcfgItemText it).length ≤ 32 := by
    intro it hit
    have hlen := (mcfgKeys_plain it.key (hkeys ▸ mem_map_of_mem hit)).2
    have hyes : (cstr "=y").length = 2 := by decide
    have hnot : (cstr " is not set").length = 11 := by decide
    unfold mcfgItemText
    simp only [length_append, config_length, length_singleton]
    split <;> omega
  have hcount : items.length = 24 := by
    rw [← length_map (f := MCfgItem.key), hkeys]
    rfl
  have hheader : mcfgHeader.length ≤ 100 := by
    unfold mcfgHeader
    rw [show cstr _ = _ from cstr_ofList _]
    decide
  have hlen := length_flatMap_le hitem
  rw [mcfgText, length_append]
  omega

/-- The lines of the text that is saved: the header, and one line for each item. -/
lemma lines_mcfgText (hkeys : items.map MCfgItem.key = mcfgKeys) :
    lines (mcfgText items) = headerLines ++ items.map (fun it => (itemLine it).render) ++ [[]] := by
  rw [mcfgText_eq]
  refine splitOnP_flatMap (by decide) ?_
  intro w hw
  rcases mem_append.mp hw with hw | hw
  · exact headerLines_noEnd w hw
  · obtain ⟨it, hit, rfl⟩ := mem_map.mp hw
    exact itemLine_noEnd (hkeys ▸ mem_map_of_mem hit)

lemma rtVerdict_header (hw : w ∈ headerLines) : rtVerdict k w = none := by
  refine rtVerdict_of_not_isPrefix ?_
  simp only [headerLines, mem_cons, not_mem_nil, or_false] at hw
  rcases hw with rfl | rfl | rfl | rfl
  · decide
  · decide
  · decide
  · decide

lemma rtVerdict_itemLine (hk : IsKey k) (hit : IsKey it.key) :
    rtVerdict k (itemLine it).render = if it.key = k then some it.val else none := by
  unfold itemLine
  cases it.val with
  | true => rw [if_pos rfl, ConfLine.render, rtVerdict_set hk hit, if_congr eq_comm rfl rfl]
  | false => rw [if_neg (by simp), ConfLine.render, rtVerdict_unset hk hit, if_congr eq_comm rfl rfl]

/-- The first line with a verdict for the key of an item is the item's own. -/
lemma findSome?_items {l : List MCfgItem} (hl : ∀ it ∈ l, IsKey it.key) (hnodup : (l.map MCfgItem.key).Nodup)
    (hit : it ∈ l) : (l.map (fun it => (itemLine it).render)).findSome? (rtVerdict it.key) = some it.val := by
  induction l with
  | nil => exact absurd hit not_mem_nil
  | cons it' l ih =>
    rw [forall_mem_cons] at hl
    rw [map_cons, nodup_cons] at hnodup
    rw [map_cons, findSome?_cons]
    rcases mem_cons.mp hit with rfl | hit
    · rw [rtVerdict_itemLine hl.1 hl.1, if_pos rfl]
    · have hne : it'.key ≠ it.key := fun h => hnodup.1 (h ▸ mem_map_of_mem hit)
      rw [rtVerdict_itemLine (hl.2 it hit) hl.1, if_neg hne]
      exact ih hl.2 hnodup.2 hit

/-- **What boot reads is what was saved**: if `mcfg_save` finds or makes the file, `rt_cfg` returns
the value of each item. -/
theorem rtCfg_saved {s : Sys} (hs : Reachable s) (hkeys : items.map MCfgItem.key = mcfgKeys)
    (hslot : (memfsCreate s.fs mcfgPath).1.isSome = true) {it : MCfgItem} (hit : it ∈ items) :
    rtCfg (saveItems s.fs items) it.key = .returned it.val := by
  have htext : confText (saveItems s.fs items) = mcfgText items := by
    have hsaved := confText_mcfgSave hs.delInv hslot (mcfgContent items)
    have hwhole : (mcfgContent items).val = mcfgText items := take_of_length_le (mcfgText_length hkeys)
    rw [saveItems, hsaved, hwhole]
  have hne : mcfgText items ≠ [] := by
    rw [mcfgText, mcfgHeader_eq]
    simp [headerLines]
  have hisKey : ∀ it ∈ items, IsKey it.key := fun it hit => mcfgKeys_isKey it.key (hkeys ▸ mem_map_of_mem hit)
  have hheader : headerLines.findSome? (rtVerdict it.key) = none :=
    findSome?_eq_none_iff.mpr (fun w hw => rtVerdict_header hw)
  rw [rtCfg_eq, htext, if_neg hne, lines_mcfgText hkeys, findSome?_append, findSome?_append, hheader,
    Option.none_or, findSome?_items hisKey (hkeys ▸ mcfgKeys_nodup) hit]
  rfl

/-- `LWIP` off and everything else on, among it the keys that begin with `LWIP`. -/
def withoutLwip : List MCfgItem := mcfgKeys.map (fun k => ⟨k, k ≠ cstr "LWIP"⟩)

theorem rtCfg_saved_lwip :
    rtCfg (saveItems (boot zeroStore).fs withoutLwip) (cstr "LWIP") = .returned false ∧
      rtCfg (saveItems (boot zeroStore).fs withoutLwip) (cstr "LWIP_TCP") = .returned true := by
  have hs : Reachable (boot zeroStore) := ⟨zeroStore, [], by decide, rfl⟩
  have hkeys : withoutLwip.map MCfgItem.key = mcfgKeys := by
    have hid : (MCfgItem.key ∘ fun k => (⟨k, k ≠ cstr "LWIP"⟩ : MCfgItem)) = id := rfl
    rw [withoutLwip, List.map_map, hid, map_id]
  have hitem : ∀ k ∈ mcfgKeyNames, (⟨cstr k, cstr k ≠ cstr "LWIP"⟩ : MCfgItem) ∈ withoutLwip :=
    fun k hk => mem_map_of_mem (mem_map_of_mem hk)
  have hlwip : (⟨cstr "LWIP", false⟩ : MCfgItem) ∈ withoutLwip := hitem "LWIP" (by simp [mcfgKeyNames])
  have htcp : (⟨cstr "LWIP_TCP", true⟩ : MCfgItem) ∈ withoutLwip := hitem "LWIP_TCP" (by simp [mcfgKeyNames])
  have hoff := rtCfg_saved hs hkeys boot_slot hlwip
  have hon := rtCfg_saved hs hkeys boot_slot htcp
  exact ⟨hoff, hon⟩

end Saved

end Conf
end PigOS.Shell
