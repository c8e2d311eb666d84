import PigOS.Lib.LineEditor
import PigOS.Shell.Correctness.Privilege

/-!
# `Shell.Correctness.Passwords` — one password at four prompts

`passwd`, `su`, `rok` and the login screen of `wm` each read a password with a loop of their own:
instances of `LineEditor`, with 63, 62, 62 and 31 characters and different keys that erase. The last
three also end at a carriage return, and the login screen is left with Escape.
-/

namespace PigOS.Shell

open Kernel LineEditor List

variable {rest : List Int} {t pw a : CStr} {c : Core σ} {out : List Emission}
variable {e : Editor Int CChar} {isDelete : Nat → Bool} {isEnter : Int → Bool} {ks keys : List Int}

/-! ## The prompts as line editors -/

/-- `c>=32&&c<127` -/
def printable? (k : Int) : Option CChar := if 32 ≤ k ∧ k < 127 then some (chr (Char.ofNat k.toNat)) else none

def passwdPrompt : Editor Int CChar := ⟨63, fun k => k = 8, printable?⟩

def suPrompt : Editor Int CChar := ⟨62, fun k => k = 8 ∨ k = 127, printable?⟩

def loginPrompt : Editor Int CChar := ⟨31, fun k => k = 8 ∨ k = 127 ∨ k = keyDel, printable?⟩

lemma suPrompt_tighter : Tighter passwdPrompt suPrompt where
  char? := rfl
  limit := by decide
  erases := fun k h => by
    simp only [passwdPrompt, decide_eq_true_eq] at h
    simp only [suPrompt, h, true_or, decide_true]

lemma loginPrompt_tighter : Tighter passwdPrompt loginPrompt where
  char? := rfl
  limit := by decide
  erases := fun k h => by
    simp only [passwdPrompt, decide_eq_true_eq] at h
    simp only [loginPrompt, h, true_or, decide_true]

lemma typeKey_eq (hchar : e.char? = printable?) (hdel : ∀ k : Int, isDelete k.toNat = e.erases k) (t : CStr) (k : Int) :
    typeKey e.limit isDelete t k.toNat = e.key t k := by
  rw [typeKey, Editor.key, hdel, hchar, printable?]
  by_cases hk : 32 ≤ k ∧ k < 127
  · have hk' : 32 ≤ k.toNat ∧ k.toNat < 127 := by omega
    rw [if_pos hk]
    simp only [hk', true_and]
  · have hk' : ¬(32 ≤ k.toNat ∧ k.toNat < 127) := by omega
    rw [if_neg hk, if_neg (fun h : 32 ≤ k.toNat ∧ k.toNat < 127 ∧ t.length < e.limit => hk' ⟨h.1, h.2.1⟩)]

lemma typeKeys_eq (hchar : e.char? = printable?) (hdel : ∀ k : Int, isDelete k.toNat = e.erases k) (keys : List Int) :
    typeKeys e.limit isDelete (keys.map Int.toNat) = e.text keys := by
  rw [typeKeys, Editor.text, foldl_map]
  simp only [typeKey_eq hchar hdel]

lemma typeKeys_passwd (keys : List Int) :
    typeKeys 63 (fun c => decide (c = 8)) (keys.map Int.toNat) = passwdPrompt.text keys := by
  refine typeKeys_eq (e := passwdPrompt) rfl (fun k => decide_eq_decide.mpr ?_) keys
  omega

lemma typeKeys_su (keys : List Int) : typeKeys 62 deletesKey (keys.map Int.toNat) = suPrompt.text keys := by
  refine typeKeys_eq (e := suPrompt) rfl (fun k => ?_) keys
  rw [deletesKey, ← Bool.decide_or]
  apply decide_eq_decide.mpr
  omega

/-! ## Where the prompts stop -/

lemma untilEnter_cons (isEnter : Int → Bool) (k : Int) (ks : List Int) : untilEnter isEnter (k :: ks) =
      if isEnter k then some ([], ks) else (untilEnter isEnter ks).map (fun r => (k :: r.1, r.2)) := by
  unfold untilEnter
  cases hk : isEnter k with
  | true => simp [hk]
  | false =>
    simp only [hk, dropWhile_cons, takeWhile_cons, Bool.not_false, Bool.false_eq_true, if_true, if_false]
    cases ks.dropWhile (fun k => !isEnter k) <;> rfl

variable {typed : List Int}

lemma untilEnter_append {e : Int} (htyped : ∀ k ∈ typed, isEnter k = false)
    (he : isEnter e = true) (rest : List Int) : untilEnter isEnter (typed ++ e :: rest) = some (typed, rest) := by
  induction typed with
  | nil => rw [nil_append, untilEnter_cons, if_pos he]
  | cons k ks ih =>
    rw [cons_append, untilEnter_cons, htyped k mem_cons_self,
      ih (fun j hj => htyped j (mem_cons_of_mem k hj))]
    rfl

/-- A prompt that has read up to its Enter has met no other key that ends it. -/
lemma untilEnter_whole {e : Int} {t : List Int}
    (h : untilEnter isEnter (typed ++ e :: rest) = some (t, rest)) : ∀ k ∈ typed, isEnter k = false := by
  induction typed generalizing t with
  | nil => exact fun k hk => absurd hk not_mem_nil
  | cons j js ih =>
    rw [cons_append, untilEnter_cons] at h
    split at h
    · have hlen := congrArg (fun r => r.2.length) (Option.some.inj h)
      simp only [length_append, length_cons] at hlen
      omega
    next hj =>
      obtain ⟨r, hr, heq⟩ := Option.map_eq_some_iff.mp h
      obtain ⟨-, hrest⟩ := Prod.mk.inj heq
      have htail := ih (t := r.1) (by rw [hr, ← hrest])
      intro k hk
      rcases mem_cons.mp hk with rfl | hk
      · exact Bool.eq_false_iff.mpr hj
      · exact htail k hk

lemma loginField_cons {k : Int} (hk : k ≠ 27 ∧ k ≠ 10 ∧ k ≠ 13) (t : CStr) (ks : List Int) :
    loginField t (k :: ks) = loginField (loginPrompt.key t k) ks := by
  rw [loginField, if_neg hk.1, if_neg (not_or.mpr hk.2)]
  by_cases hdel : k = 8 ∨ k = 127 ∨ k = keyDel
  · rw [if_pos hdel, Editor.key_erases (decide_eq_true hdel)]
  · have herase : loginPrompt.erases k = false := decide_eq_false hdel
    rw [if_neg hdel]
    by_cases hchar : 32 ≤ k ∧ k < 127
    · rw [Editor.key_char herase (if_pos hchar)]
      simp only [hchar, true_and]
      change _ = loginField (if t.length < 31 then _ else t) ks
      split <;> rfl
    · rw [Editor.key_other herase (if_neg hchar),
        if_neg (fun h : 32 ≤ k ∧ k < 127 ∧ t.length < 31 => hchar ⟨h.1, h.2.1⟩)]

lemma loginField_append (htyped : ∀ k ∈ typed, k ≠ 27 ∧ k ≠ 10 ∧ k ≠ 13) (t : CStr)
    (rest : List Int) : loginField t (typed ++ 10 :: rest) = some (some (typed.foldl loginPrompt.key t, rest)) := by
  induction typed generalizing t with
  | nil => rfl
  | cons k ks ih =>
    rw [cons_append, loginField_cons (htyped k mem_cons_self),
      ih (fun j hj => htyped j (mem_cons_of_mem k hj)), foldl_cons]

lemma loginField_whole (h : loginField t (typed ++ 10 :: rest) = some (some (pw, rest))) :
    ∀ k ∈ typed, k ≠ 27 ∧ k ≠ 10 ∧ k ≠ 13 := by
  induction typed generalizing t with
  | nil => exact fun k hk => absurd hk not_mem_nil
  | cons j js ih =>
    by_cases hj : j ≠ 27 ∧ j ≠ 10 ∧ j ≠ 13
    · rw [cons_append, loginField_cons hj] at h
      intro k hk
      rcases mem_cons.mp hk with rfl | hk
      · exact hj
      · exact ih h k hk
    · -- the field ends at this key: with Escape, or with more keys left than it should leave
      exfalso
      rw [cons_append, loginField] at h
      split at h
      · exact absurd (Option.some.inj h) (by simp)
      next hesc =>
        rw [if_pos (by omega)] at h
        have hlen := congrArg (fun r => r.2.length) (Option.some.inj (Option.some.inj h))
        simp only [length_append, length_cons] at hlen
        omega

/-! ## What `passwd` leaves -/

/-- The user that `passwd` changes. -/
def passwdUser (a : CStr) : CStr := if a ≠ [] then a else curUser

lemma passwdUser_ne_nil (a : CStr) : passwdUser a ≠ [] := by
  unfold passwdUser
  split
  next h => exact h
  next => decide

variable {db : UserDb} {c' : Core σ}

lemma record_eq_some_iff {n : CStr} {u : User} :
    record db n = some u ↔ ∃ i, ufind db n = some i ∧ db.users[i]? = some u := by
  rw [record, Option.bind_eq_some_iff]

lemma record_name {n : CStr} {u : User} (h : record db n = some u) : u.name = n := by
  obtain ⟨i, hi, hu⟩ := record_eq_some_iff.mp h
  obtain ⟨hlt, hp, -⟩ := findIdx?_eq_some_iff_getElem.mp hi
  rw [getElem?_eq_getElem hlt] at hu
  rw [Option.some.inj hu, Bool.and_eq_true, decide_eq_true_eq, ksc_eq_zero] at hp
  exact hp.2

lemma findIdx?_modify {α : Type} {p : α → Bool} {f : α → α} (hf : ∀ x, p (f x) = p x) (l : List α) (i : Nat) :
    (l.modify i f).findIdx? p = l.findIdx? p := by
  induction l generalizing i with
  | nil => rw [modify_nil]
  | cons x xs ih =>
    cases i with
    | zero => rw [modify_zero_cons, findIdx?_cons, findIdx?_cons, hf]
    | succ i => rw [modify_succ_cons, findIdx?_cons, findIdx?_cons, ih]

lemma record_cmdPasswd {db' : UserDb} {keys : List Nat} (h : cmdPasswd db a keys = (.updated, db')) :
    ∃ u, record db' (passwdUser a) = some u ∧ u.pass = typeKeys 63 (fun c => decide (c = 8)) keys := by
  unfold cmdPasswd at h
  unfold passwdUser
  cases hi : ufind db (if a ≠ [] then a else curUser) with
  | none => rw [hi] at h; exact absurd h (by simp)
  | some i =>
    rw [hi] at h
    dsimp only at h
    split at h
    · exact absurd h (by simp)
    · obtain ⟨-, rfl⟩ := Prod.mk.inj h
      have hlt : i < db.users.length := (findIdx?_eq_some_iff_getElem.mp hi).1
      refine ⟨{ db.users[i] with pass := typeKeys 63 (fun c => decide (c = 8)) keys },
        record_eq_some_iff.mpr ⟨i, ?_, ?_⟩, rfl⟩
      · rw [← hi]
        exact findIdx?_modify (by intro u; rfl) db.users i
      · rw [getElem?_modify_eq, getElem?_eq_getElem hlt]
        rfl

lemma report_eq_updated {r : PasswdReport} (h : r.text = PasswdReport.updated.text) : r = .updated := by
  cases r with
  | userNotFound => exact absurd h (by decide)
  | unchanged => exact absurd h (by decide)
  | updated => rfl

lemma untilEnter_ten (htyped : 10 ∉ typed) (rest : List Int) :
    untilEnter (fun k => decide (k = 10)) (typed ++ 10 :: rest) = some (typed, rest) :=
  untilEnter_append (fun k hk => decide_eq_false (fun heq : k = 10 => htyped (heq ▸ hk))) rfl rest

lemma record_shPasswd
    (hkeys : c.keys = typed ++ 10 :: rest) (htyped : 10 ∉ typed) (h : shPasswd c a = some (out, c'))
    (hout : out.getLast? = some (.vps PasswdReport.updated.text)) :
    ∃ u, record c'.db (passwdUser a) = some u ∧ u.pass = passwdPrompt.text typed := by
  have huntil := untilEnter_ten htyped rest
  unfold shPasswd at h
  dsimp only at h
  rw [hkeys, huntil] at h
  generalize (if a ≠ [] then a else curUser) = n at h
  split at h
  · obtain ⟨rfl, -⟩ := Prod.mk.inj (Option.some.inj h)
    exact absurd (report_eq_updated (Emission.vps.inj (Option.some.inj hout))) (by decide)
  · rw [Option.map_some] at h
    obtain ⟨rfl, rfl⟩ := Prod.mk.inj (Option.some.inj h)
    have hr := report_eq_updated (Emission.vps.inj (Option.some.inj hout))
    rw [← typeKeys_passwd]
    exact record_cmdPasswd (Prod.ext hr rfl)

/-- `passwd` succeeds for an active user and a line that is not empty. -/
lemma shPasswd_updated (hkeys : c.keys = typed ++ 10 :: rest)
    (htyped : 10 ∉ typed) (huser : (ufind c.db (passwdUser a)).isSome) (hline : passwdPrompt.count typed ≠ 0) :
    ∃ out c', shPasswd c a = some (out, c') ∧ out.getLast? = some (.vps PasswdReport.updated.text) := by
  have huntil := untilEnter_ten htyped rest
  have hreport : (cmdPasswd c.db a (typed.map Int.toNat)).1 = .updated := by
    obtain ⟨i, hi⟩ := Option.isSome_iff_exists.mp huser
    unfold passwdUser at hi
    unfold cmdPasswd
    rw [hi]
    dsimp only
    rw [typeKeys_passwd, Editor.length_text, if_neg (by omega)]
  unfold passwdUser at huser
  unfold shPasswd
  dsimp only
  rw [hkeys, huntil, if_neg (by rw [Option.isNone_iff_eq_none]; exact Option.isSome_iff_ne_none.mp huser)]
  refine ⟨_, _, rfl, ?_⟩
  rw [hreport]
  rfl

/-! ## The three prompts -/

/-- `su` with the name of a user switches to that user when the keys are typed, and reads no
others. -/
def SuAccepts (σ : Type) (db : UserDb) (name : CStr) (typed : List Int) : Prop :=
  ∀ (c : Core σ) (rest : List Int), c.db = db → c.keys = typed ++ 10 :: rest →
    ∃ u out events, record db name = some u ∧
      shSu c name = some (out ++ [.vps (cstr "switched to "), .vpln name],
        { c with keys := rest, user := name, uid := u.uid, cwd := u.home }, events)

/-- `rok` runs its command when the user of the session, who is not root, types the keys. -/
def RokAccepts (b : Builtins σ) (db : UserDb) (name : CStr) (typed : List Int) : Prop :=
  ∀ (s : ShState σ) (a : CStr) (rest : List Int), s.core.db = db → s.core.user = name → s.core.uid ≠ 0 → a ≠ [] →
    s.core.keys = typed ++ 10 :: rest →
      ∃ out pw, shRok b s a = rokRun b (ShState.say { s with core := { s.core with keys := rest } } out) a (some pw)
        [.priv .rok (some pw) s.core.ident s.core.uid true]

/-- The login screen lets the user in when the keys are typed behind those of the name. -/
def WmAccepts (db : UserDb) (name : CStr) (typed : List Int) : Prop :=
  ∀ (keys rest : List Int) (rounds : Nat), loginField [] keys = some (some (name, typed ++ 10 :: rest)) →
    login db (rounds + 1) keys = some (true, rest)

section Prompts

variable {db : UserDb} {name : CStr} {typed : List Int} {u : User} {v : User}

lemma readPassword_append (h13 : 13 ∉ typed) (h10 : 10 ∉ typed) (rest : List Int) :
    readPassword (typed ++ 10 :: rest) =
      some ([.vps (cstr "Password: ")] ++ passwordEcho [] typed ++ [.vpc newline], suPrompt.text typed, rest) := by
  have huntil : untilEnter (fun k => decide (k = 10) || decide (k = 13))
      (typed ++ 10 :: rest) = some (typed, rest) := by
    refine untilEnter_append (fun k hk => ?_) rfl rest
    rw [Bool.or_eq_false_iff, decide_eq_false_iff_not, decide_eq_false_iff_not]
    exact ⟨fun heq => h10 (heq ▸ hk), fun heq => h13 (heq ▸ hk)⟩
  rw [readPassword, huntil, ← typeKeys_su]
  rfl

/-- A prompt that reads the keys up to their Enter has met no carriage return. -/
lemma readPassword_whole (h : readPassword (typed ++ 10 :: rest) = some (out, pw, rest)) : 13 ∉ typed := by
  obtain ⟨r, hr, heq⟩ := Option.map_eq_some_iff.mp h
  obtain ⟨-, hpw⟩ := Prod.mk.inj heq
  obtain ⟨-, hrest⟩ := Prod.mk.inj hpw
  have hnone := untilEnter_whole (t := r.1) (hr.trans (by rw [← hrest]))
  intro h13
  exact absurd (hnone 13 h13) (by decide)

/-- `const char* target_user = a && *a && *a != '-' ? a : "root";` -/
def suTarget (a : CStr) : CStr := if a ≠ [] ∧ a.head? ≠ some minus then a else cstr "root"

lemma suTarget_eq_self (ha : a ≠ []) (hminus : a.head? ≠ some minus) : suTarget a = a :=
  if_pos ⟨ha, hminus⟩

lemma head?_of_suTarget (h : suTarget a = a) : a.head? ≠ some minus := by
  by_cases hcond : a ≠ [] ∧ a.head? ≠ some minus
  · exact hcond.2
  · rw [suTarget, if_neg hcond] at h
    rw [← h]
    decide

lemma shSu_eq
    (hv : record c.db (suTarget a) = some v) (hread : readPassword c.keys = some (out, pw, ks)) :
    shSu c a = some (out ++ (suAttempt { c with keys := ks } v pw).1, (suAttempt { c with keys := ks } v pw).2,
      [.priv (.su (suTarget a)) (some pw) c.ident (suAttempt { c with keys := ks } v pw).2.uid false]) := by
  unfold record suTarget at hv
  unfold shSu
  dsimp only
  rw [hv, hread]
  rfl

lemma shSu_inv {events : List Event} (h : shSu c a = some (out, c', events)) (hkeys : c'.keys ≠ c.keys) :
    ∃ v o pw ks, record c.db (suTarget a) = some v ∧ readPassword c.keys = some (o, pw, ks) ∧
      out = o ++ (suAttempt { c with keys := ks } v pw).1 ∧ c' = (suAttempt { c with keys := ks } v pw).2 := by
  cases hv : record c.db (suTarget a) with
  | none =>
    unfold record suTarget at hv
    unfold shSu at h
    dsimp only at h
    rw [hv] at h
    obtain ⟨-, hc⟩ := Prod.mk.inj (Option.some.inj h)
    exact absurd (congrArg Core.keys (Prod.mk.inj hc).1.symm) hkeys
  | some v =>
    cases hread : readPassword c.keys with
    | none =>
      unfold record suTarget at hv
      unfold shSu at h
      dsimp only at h
      rw [hv, hread] at h
      exact absurd h (by simp)
    | some r =>
      obtain ⟨o, pw, ks⟩ := r
      rw [shSu_eq hv hread] at h
      obtain ⟨hout, hrest⟩ := Prod.mk.inj (Option.some.inj h)
      exact ⟨v, o, pw, ks, rfl, rfl, hout.symm, (Prod.mk.inj hrest).1.symm⟩

lemma keys_suAttempt (c : Core σ) (v : User) (pw : CStr) : (suAttempt c v pw).2.keys = c.keys := by
  unfold suAttempt
  split <;> rfl

lemma suAttempt_pass (h : pw = v.pass) :
    suAttempt c v pw =
      ([.vps (cstr "switched to "), .vpln v.name], { c with user := v.name, uid := v.uid, cwd := v.home }) := by
  rw [suAttempt, if_pos (ksc_eq_zero.mpr h)]

lemma suAttempt_fail (h : pw ≠ v.pass) :
    suAttempt c v pw = ([.vpln (cstr "su: Authentication failure")], c) := by
  rw [suAttempt, if_neg (fun hk => h (ksc_eq_zero.mp hk))]

/-- What `su` prints ends with the line of a success only if the password is right. -/
lemma suAttempt_switched {name : CStr} {o : List Emission}
    (h : o ++ [.vpc newline] ++ (suAttempt c v pw).1 = out ++ [.vps (cstr "switched to "), .vpln name]) :
    pw = v.pass ∧ v.name = name := by
  by_cases hpw : pw = v.pass
  · rw [suAttempt_pass hpw] at h
    obtain ⟨-, hlast⟩ := append_inj' h rfl
    simp only [cons.injEq, Emission.vpln.injEq, true_and, and_true] at hlast
    exact ⟨hpw, hlast⟩
  · rw [suAttempt_fail hpw, append_assoc] at h
    obtain ⟨-, hlast⟩ := append_inj' h rfl
    simp at hlast

/-- One round of the login screen, for keys that give a name and end a password. -/
lemma login_round (hu : record db name = some u) (hfield : loginField [] keys = some (some (name, typed ++ 10 :: rest)))
    (hpw : loginField [] (typed ++ 10 :: rest) = some (some (pw, rest))) (rounds : Nat) :
    login db (rounds + 1) keys = if pw = u.pass then some (true, rest) else login db rounds rest := by
  unfold record at hu
  rw [login, hfield]
  dsimp only
  rw [hpw]
  rw [hu]
  simp only [ksc_eq_zero]

/-- A name that can be typed at the login screen. -/
def Typeable (name : CStr) : Prop := name.length ≤ 31 ∧ ∀ c ∈ name, 32 ≤ c.val.toNat ∧ c.val.toNat < 127

/-- The key of a character. -/
def keyOf (c : CChar) : Int := c.val.toNat

lemma printable?_keyOf {c : CChar} (hc : 32 ≤ c.val.toNat ∧ c.val.toNat < 127) : printable? (keyOf c) = some c := by
  have hchr : chr (Char.ofNat c.val.toNat) = c := by
    apply Subtype.ext
    rw [val_chr_ofNat (by omega) (by omega), UInt8.ofNat_toNat]
  rw [printable?, if_pos (by unfold keyOf; omega), keyOf, Int.toNat_natCast, hchr]

lemma Typeable.key (ht : Typeable t) (k : Int) : Typeable (loginPrompt.key t k) := by
  cases herase : loginPrompt.erases k with
  | true =>
    rw [Editor.key_erases herase]
    refine ⟨by rw [length_dropLast]; have := ht.1; omega, fun c hc => ht.2 c (mem_of_mem_dropLast hc)⟩
  | false =>
    by_cases hchar : 32 ≤ k ∧ k < 127
    · rw [Editor.key_char herase (if_pos hchar)]
      split
      next hroom =>
        refine ⟨by rw [length_append]; exact hroom, fun c hc => ?_⟩
        rcases mem_append.mp hc with hc | hc
        · exact ht.2 c hc
        · rw [mem_singleton.mp hc, val_chr_ofNat (by omega) (by omega), UInt8.toNat_ofNat']
          omega
      next => exact ht
    · rw [Editor.key_other herase (if_neg hchar)]
      exact ht

lemma typeable_of_loginField (ht : Typeable t) (h : loginField t keys = some (some (name, ks))) : Typeable name := by
  induction keys generalizing t with
  | nil => exact absurd h (by simp [loginField])
  | cons k keys ih =>
    by_cases hk : k ≠ 27 ∧ k ≠ 10 ∧ k ≠ 13
    · rw [loginField_cons hk] at h
      exact ih (ht.key k) h
    · rw [loginField] at h
      split at h
      · exact absurd (Option.some.inj h) (by simp)
      next hesc =>
        rw [if_pos (by omega)] at h
        obtain ⟨rfl, -⟩ := Prod.mk.inj (Option.some.inj (Option.some.inj h))
        exact ht

lemma loginField_name (hname : Typeable name) (rest : List Int) :
    loginField [] (name.map keyOf ++ 10 :: rest) = some (some (name, rest)) := by
  have hkey : ∀ c ∈ name, keyOf c ≠ 27 ∧ keyOf c ≠ 10 ∧ keyOf c ≠ 13 ∧ loginPrompt.erases (keyOf c) = false := by
    intro c hc
    have hrange := hname.2 c hc
    refine ⟨?_, ?_, ?_, decide_eq_false ?_⟩ <;> unfold keyOf <;> first | omega | (unfold keyDel; omega)
  rw [loginField_append]
  · change some (some (loginPrompt.text (name.map keyOf), rest)) = _
    rw [Editor.text_map (fun c hc => ⟨(hkey c hc).2.2.2, printable?_keyOf (hname.2 c hc)⟩) hname.1]
  · intro k hk
    obtain ⟨c, hc, rfl⟩ := mem_map.mp hk
    exact ⟨(hkey c hc).1, (hkey c hc).2.1, (hkey c hc).2.2.1⟩

variable (hu : record db name = some u) (hpass : u.pass = passwdPrompt.text typed)

include hu hpass

lemma shared_of_wmAccepts (hname : Typeable name) (h : WmAccepts db name typed) :
    27 ∉ typed ∧ SharedBy passwdPrompt loginPrompt typed := by
  have hfield := loginField_name hname (typed ++ 10 :: [])
  have hlogin := h _ [] 0 hfield
  have hwhole : ∃ pw, loginField [] (typed ++ 10 :: []) = some (some (pw, [])) := by
    rw [login, hfield] at hlogin
    dsimp only at hlogin
    cases hpw : loginField [] (typed ++ 10 :: []) with
    | none => rw [hpw] at hlogin; exact absurd hlogin (by simp)
    | some r =>
      rw [hpw] at hlogin
      cases r with
      | none => exact absurd hlogin (by simp)
      | some r =>
        obtain ⟨pw, ks⟩ := r
        unfold record at hu
        rw [hu] at hlogin
        dsimp only at hlogin
        split at hlogin
        · obtain ⟨-, rfl⟩ := Prod.mk.inj (Option.some.inj hlogin)
          exact ⟨pw, rfl⟩
        · exact absurd hlogin (by simp [login])
  obtain ⟨pw, hpw⟩ := hwhole
  have htyped := loginField_whole hpw
  refine ⟨fun h27 => (htyped 27 h27).1 rfl, ?_⟩
  rw [login_round hu hfield (loginField_append htyped [] [])] at hlogin
  split at hlogin
  next heq => exact (loginPrompt_tighter.text_eq_iff typed).mp (heq.trans hpass)
  next => exact absurd hlogin (by simp [login])

variable (h10 : 10 ∉ typed)

include h10

lemma wmAccepts_of_shared (h13 : 13 ∉ typed)
    (h : Typeable name → 27 ∉ typed ∧ SharedBy passwdPrompt loginPrompt typed) : WmAccepts db name typed := by
  intro keys rest rounds hfield
  obtain ⟨h27, hshared⟩ := h (typeable_of_loginField ⟨Nat.zero_le _, fun c hc => absurd hc not_mem_nil⟩ hfield)
  have htyped : ∀ k ∈ typed, k ≠ 27 ∧ k ≠ 10 ∧ k ≠ 13 := fun k hk =>
    ⟨fun heq => h27 (heq ▸ hk), fun heq => h10 (heq ▸ hk), fun heq => h13 (heq ▸ hk)⟩
  rw [login_round hu hfield (loginField_append htyped [] rest), if_pos]
  rw [hpass, ← hshared.text_eq loginPrompt_tighter]
  rfl

lemma suAccepts_of_shared (hname : name ≠ []) (hminus : name.head? ≠ some minus) (h13 : 13 ∉ typed)
    (hshared : SharedBy passwdPrompt suPrompt typed) : SuAccepts σ db name typed := by
  intro c rest hdb hkeys
  have hread := readPassword_append h13 h10 rest
  rw [← hkeys] at hread
  have hv : record c.db (suTarget name) = some u := by rw [hdb, suTarget_eq_self hname hminus, hu]
  have hpw : suPrompt.text typed = u.pass := by rw [hpass, hshared.text_eq suPrompt_tighter]
  have hsu := shSu_eq hv hread
  rw [suAttempt_pass hpw, record_name hu] at hsu
  exact ⟨u, _, _, hu, hsu⟩

lemma shared_of_suAccepts (c : Core σ) (h : SuAccepts σ db name typed) :
    name.head? ≠ some minus ∧ 13 ∉ typed ∧ SharedBy passwdPrompt suPrompt typed := by
  obtain ⟨w, out, events, -, hsu⟩ := h { c with db := db, keys := typed ++ 10 :: [] } [] rfl rfl
  obtain ⟨v, o, pw, ks, hv, hread, hout, hc⟩ := shSu_inv hsu (by simp)
  have hks : ks = [] := by
    have hkeys := congrArg Core.keys hc
    rw [keys_suAttempt] at hkeys
    exact hkeys.symm
  subst hks
  have h13 := readPassword_whole hread
  rw [readPassword_append h13 h10] at hread
  obtain ⟨rfl, htail⟩ := Prod.mk.inj (Option.some.inj hread)
  obtain ⟨rfl, -⟩ := Prod.mk.inj htail
  obtain ⟨hpw, hvname⟩ := suAttempt_switched hout.symm
  have htarget : suTarget name = name := (record_name hv).symm.trans hvname
  rw [htarget] at hv
  obtain rfl : v = u := Option.some.inj (hv.symm.trans hu)
  exact ⟨head?_of_suTarget htarget, h13, (suPrompt_tighter.text_eq_iff typed).mp (hpw.trans hpass)⟩

lemma rokAccepts_of_shared (b : Builtins σ) (h13 : 13 ∉ typed) (hshared : SharedBy passwdPrompt suPrompt typed) :
    RokAccepts b db name typed := by
  intro s a rest hdb hname huid ha hkeys
  have hread := readPassword_append h13 h10 rest
  rw [← hkeys] at hread
  have hcurrent : (ufind s.core.db s.core.user).bind (s.core.db.users[·]?) = some u := by rw [hdb, hname]; exact hu
  have hpw : ksc (suPrompt.text typed) u.pass = 0 := by
    rw [ksc_eq_zero, hpass, hshared.text_eq suPrompt_tighter]
  refine ⟨[.vps (cstr "Password: ")] ++ passwordEcho [] typed ++ [.vpc newline], suPrompt.text typed, ?_⟩
  unfold shRok
  rw [if_neg ha, if_neg huid, hread]
  dsimp only [ShState.say]
  rw [hcurrent, if_pos (Or.inl (by simpa using hpw))]
  rfl

end Prompts

/-! ## The law -/

/-- **A password that `passwd` has taken can be used** at the other prompts if and only if, since
the line was last empty, it held at most 62 characters and no key 127 was pressed, no carriage
return was, and the name does not start with `-`; and at the login screen, if besides no Escape was
pressed and since the line was last empty it held at most 31 characters and no `Del` was pressed. -/
theorem passwd_usable_iff (b : Builtins σ) (c c' : Core σ) (a : CStr) (typed rest : List Int) (out : List Emission)
    (hkeys : c.keys = typed ++ 10 :: rest) (htyped : 10 ∉ typed) (hpasswd : shPasswd c a = some (out, c'))
    (hupdated : out.getLast? = some (.vps PasswdReport.updated.text)) :
    (SuAccepts σ c'.db (passwdUser a) typed ∧ RokAccepts b c'.db (passwdUser a) typed ∧
        ((passwdUser a).length ≤ 31 → WmAccepts c'.db (passwdUser a) typed)) ↔
      ((passwdUser a).head? ≠ some minus ∧ 13 ∉ typed ∧ SharedBy passwdPrompt suPrompt typed ∧
        (Typeable (passwdUser a) → 27 ∉ typed ∧ SharedBy passwdPrompt loginPrompt typed)) := by
  obtain ⟨u, hu, hpass⟩ := record_shPasswd hkeys htyped hpasswd hupdated
  constructor
  · rintro ⟨hsu, -, hwm⟩
    obtain ⟨hminus, h13, hshared⟩ := shared_of_suAccepts hu hpass htyped c hsu
    exact ⟨hminus, h13, hshared, fun hname => shared_of_wmAccepts hu hpass hname (hwm hname.1)⟩
  · rintro ⟨hminus, h13, hshared, hwm⟩
    exact ⟨suAccepts_of_shared hu hpass htyped (passwdUser_ne_nil a) hminus h13 hshared,
      rokAccepts_of_shared hu hpass htyped b h13 hshared, fun _ => wmAccepts_of_shared hu hpass htyped h13 hwm⟩

/-- Root's new password is the letter `a`. -/
theorem passwd_usable_a :
    ∃ (c c' : Core Unit) (out : List Emission), shPasswd c [] = some (out, c') ∧
      (SuAccepts Unit c'.db (cstr "root") [97] ∧ RokAccepts idleBuiltins c'.db (cstr "root") [97] ∧
        ((cstr "root").length ≤ 31 → WmAccepts c'.db (cstr "root") [97])) := by
  refine ⟨(ShState.boot [97, 10] ()).core, _, _, rfl, ?_⟩
  have hone : ∀ done : List Int, done <+: [97] → passwdPrompt.count done ≤ 1 := by
    intro done hdone
    rcases prefix_concat_iff.mp (show done <+: [] ++ [97] from hdone) with rfl | hnil
    · decide
    · rw [prefix_nil.mp hnil]; decide
  refine (passwd_usable_iff idleBuiltins (ShState.boot [97, 10] ()).core _ [] [97] [] _ rfl (by decide) rfl rfl).mpr
    ⟨by decide, by decide, ⟨[], [97], rfl, rfl, ?_, fun done hd => (hone done hd).trans (by decide)⟩,
      fun _ => ⟨by decide, [], [97], rfl, rfl, ?_, fun done hd => (hone done hd).trans (by decide)⟩⟩
  · intro k hk
    rw [mem_singleton.mp hk]
    decide
  · intro k hk
    rw [mem_singleton.mp hk]
    decide

/-- 63 times the letter `a`: `passwd` takes it, and `su` does not. -/
theorem passwd_63_refused :
    ∃ (c c' : Core Unit) (out out' : List Emission) (events : List Event),
      c.keys = replicate 63 97 ++ [10] ∧ shPasswd c (cstr "root") = some (out, c') ∧
      out.getLast? = some (.vps PasswdReport.updated.text) ∧
      shSu { c' with keys := c.keys } (cstr "root") =
        some (out' ++ [.vpln (cstr "su: Authentication failure")], { c' with keys := [] }, events) := by
  have h10 : (10 : Int) ∉ replicate 63 97 := fun h => absurd (eq_of_mem_replicate h) (by decide)
  have h13 : (13 : Int) ∉ replicate 63 97 := fun h => absurd (eq_of_mem_replicate h) (by decide)
  obtain ⟨out, c', hpasswd, hout⟩ := shPasswd_updated (c := (ShState.boot (replicate 63 97 ++ [10]) ()).core)
    (a := cstr "root") rfl h10 (by decide) (by decide +kernel)
  obtain ⟨u, hu, hpass⟩ := record_shPasswd rfl h10 hpasswd hout
  have hne : suPrompt.text (replicate 63 97) ≠ u.pass := by
    intro heq
    have hlen := congrArg length (heq.trans hpass)
    rw [Editor.length_text, Editor.length_text] at hlen
    exact absurd hlen (by decide +kernel)
  have hsu := shSu_eq (c := { c' with keys := replicate 63 97 ++ [10] }) (a := cstr "root") hu
    (readPassword_append h13 h10 [])
  rw [suAttempt_fail hne] at hsu
  exact ⟨_, c', out, _, _, rfl, hpasswd, hout, hsu⟩

end PigOS.Shell
