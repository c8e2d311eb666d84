import PigOS.Shell.Dispatch

/-!
# `Shell.Correctness.Privilege` — which password gives root rights

`su`, `rok` and `r-` write `sh_uid` or dispatch a command with `sh_rok=1`, and each leaves an event
in the run of a session (`exec_privSpec`). `su` always asks for a current password, `rok` does but
for the built-in `toor`, and `r-` never does (`session_passwords_iff`).
-/

namespace PigOS.Shell

open Kernel List

variable {a : CStr} {out : List Emission} {events : List Event}

/-! ## The rule -/

/-- The record of an active user. -/
def record (db : UserDb) (n : CStr) : Option User := (ufind db n).bind (db.users[·]?)

/-- The user whose rights are asked for. -/
def PrivOp.target : PrivOp → CStr
  | .su target => target
  | .rok => cstr "root"
  | .rMinus => cstr "root"

/-- `pw` is the password that is stored for the current user or for the target. -/
def Authorised (op : PrivOp) (pw : CStr) (i : Ident) : Prop :=
  (record i.db i.user).map User.pass = some pw ∨ (record i.db op.target).map User.pass = some pw

/-- A session that is not root's obtains root: `sh_uid` becomes 0, or `sh_rok` is set for a
command. -/
def Event.obtainsRoot : Event → Bool
  | .priv _ _ before uid rokCall => before.uid ≠ 0 && (uid = 0 || rokCall)
  | .input _ _ => false

/-- The password typed for the step. -/
def Event.typed : Event → Option CStr
  | .priv _ typed _ _ _ => typed
  | .input _ _ => none

/-- The password typed for a step is a current one. -/
def Event.PasswordCurrent : Event → Prop
  | .priv op typed before _ _ => ∃ pw, typed = some pw ∧ Authorised op pw before
  | .input _ _ => False

/-- Root is obtained with a current password only. -/
def PasswordRule (e : Event) : Prop := e.obtainsRoot = true → e.PasswordCurrent

/-- `r-` is used by root, or under a `rok` with a current password; and `rok` gets `toor` only if it
is one. -/
def Admissible : Event → Prop
  | .priv .rMinus typed before _ _ => before.uid = 0 ∨ ∃ pw, typed = some pw ∧ Authorised .rMinus pw before
  | .priv .rok typed before _ _ => typed = some (cstr "toor") → Authorised .rok (cstr "toor") before
  | _ => True

/-! ## What each command does -/

/-- The events that a step can leave. -/
def PrivSpec : Event → Prop
  | .input _ _ => True
  | .priv (.su target) typed before uid call =>
    call = false ∧ ∃ pw u, typed = some pw ∧ record before.db target = some u ∧
      uid = if pw = u.pass then u.uid else before.uid
  | .priv .rok typed before uid call =>
    before.uid ≠ 0 ∧ uid = before.uid ∧ ∃ pw, typed = some pw ∧
      (call = true ↔ (record before.db before.user).map User.pass = some pw ∨ pw = cstr "toor")
  | .priv .rMinus _ _ uid call => uid = 0 ∧ call = false

variable {σ : Type} {c c' : Core σ} {b : Builtins σ}

lemma shSu_privSpec (h : shSu c a = some (out, c', events)) : ∀ e ∈ events, PrivSpec e := by
  unfold shSu at h
  dsimp only at h
  split at h
  · obtain ⟨-, -, rfl⟩ := h
    exact forall_mem_nil _
  · rename_i u hu
    obtain ⟨⟨out₁, pw, keys⟩, -, heq⟩ := Option.map_eq_some_iff.mp h
    obtain ⟨-, -, rfl⟩ := heq
    intro e he
    obtain rfl := mem_singleton.mp he
    refine ⟨rfl, pw, u, rfl, hu, ?_⟩
    unfold suAttempt
    by_cases hpw : pw = u.pass
    · rw [if_pos (ksc_eq_zero.mpr hpw), if_pos hpw]
    · rw [if_neg (fun h0 => hpw (ksc_eq_zero.mp h0)), if_neg hpw]
      rfl

/-- Only `su` and `r-` among the commands that call nothing leave an event. -/
lemma leaf_privSpec {typed : Option CStr} {cmd : CStr}
    (h : leaf b c typed cmd a = some (out, c', events)) : ∀ e ∈ events, PrivSpec e := by
  cases leaf_step h with
  | su _ hsu => exact shSu_privSpec hsu
  | rMinus _ =>
    intro e he
    obtain rfl := mem_singleton.mp he
    exact ⟨rfl, rfl⟩
  | users _ _ _ => exact forall_mem_nil _
  | vars _ _ => exact forall_mem_nil _
  | aliases _ _ => exact forall_mem_nil _
  | run _ => exact forall_mem_nil _

lemma shRok_privSpec {s s' : ShState σ} {fs : List (Frame b)}
    (h : shRok b s a = some (events, s', fs)) : ∀ e ∈ events, PrivSpec e := by
  unfold shRok at h
  split at h
  · obtain ⟨rfl, -, -⟩ := h
    exact forall_mem_nil _
  · split at h
    · obtain ⟨rfl, -, -⟩ := h
      exact forall_mem_nil _
    · rename_i huid
      split at h
      · exact nomatch h
      · rename_i out pw keys _
        have hcurrent : ((ufind s.core.db s.core.user).bind (s.core.db.users[·]?)).any
            (fun u => ksc pw u.pass = 0) = true ↔
            (record s.core.db s.core.user).map User.pass = some pw := by
          unfold record
          cases (ufind s.core.db s.core.user).bind (s.core.db.users[·]?) with
          | none => exact ⟨nofun, nofun⟩
          | some u =>
            show decide (ksc pw u.pass = 0) = true ↔ some u.pass = some pw
            rw [decide_eq_true_iff, ksc_eq_zero, Option.some_inj, eq_comm]
        dsimp only at h
        split at h
        · rename_i hpass
          obtain ⟨rfl, -, -⟩ := h
          intro e he
          obtain rfl := mem_singleton.mp he
          exact ⟨huid, rfl, pw, rfl, fun _ => hpass.imp hcurrent.mp ksc_eq_zero.mp, fun _ => rfl⟩
        · rename_i hfail
          obtain ⟨rfl, -, -⟩ := h
          intro e he
          obtain rfl := mem_singleton.mp he
          exact ⟨huid, rfl, pw, rfl, nofun, fun hpass => absurd (hpass.imp hcurrent.mpr ksc_eq_zero.mpr) hfail⟩

lemma fsGrep_privSpec (b : Builtins σ) (s : ShState σ) (a : CStr) : ∀ e ∈ (fsGrep b s a).1, PrivSpec e := by
  unfold fsGrep
  intro e he
  split at he
  · exact nomatch he
  · dsimp only at he
    split at he
    · exact nomatch he
    · split at he
      · split at he
        · obtain rfl := mem_singleton.mp he
          trivial
        · obtain rfl := mem_singleton.mp he
          trivial
      · exact nomatch he

/-- **The step lemma**: what a step of the dispatcher can log. -/
theorem exec_privSpec {b : Builtins σ} {s s' : ShState σ} {f : Frame b} {fs : List (Frame b)}
    (h : exec b s f = some (events, s', fs)) : ∀ e ∈ events, PrivSpec e := by
  cases (exec_steps h).1 with
  | silent _ _ _ => exact forall_mem_nil _
  | pipeRight => exact forall_mem_nil _
  | endPipe => exact forall_mem_nil _
  | rok hrok _ _ => exact shRok_privSpec hrok
  | grep _ a => exact fsGrep_privSpec b s a
  | leaf hleaf => exact leaf_privSpec hleaf

/-! ## Sessions -/

/-- An event that a step can leave keeps the rule exactly when it is admissible. -/
lemma passwordRule_iff {e : Event} (he : PrivSpec e) : PasswordRule e ↔ Admissible e := by
  cases e with
  | input feed got => exact ⟨fun _ => trivial, fun _ h => nomatch h⟩
  | priv op typed before uid call =>
    have hobtains : Event.obtainsRoot (.priv op typed before uid call) = true ↔
        before.uid ≠ 0 ∧ (uid = 0 ∨ call = true) := by
      simp [Event.obtainsRoot]
    unfold PasswordRule
    rw [hobtains]
    cases op with
    | su target =>
      -- a failed attempt leaves `sh_uid` as it was
      obtain ⟨rfl, pw, u, rfl, hu, rfl⟩ := he
      refine ⟨fun _ => trivial, fun _ ⟨hne, hzero⟩ => ⟨pw, rfl, .inr ?_⟩⟩
      by_cases hpw : pw = u.pass
      · show (record before.db target).map User.pass = some pw
        rw [hu, hpw]
        rfl
      · rw [if_neg hpw] at hzero
        exact absurd (hzero.resolve_right Bool.false_ne_true) hne
    | rok =>
      obtain ⟨hne, rfl, pw, rfl, hcall⟩ := he
      constructor
      · intro hrule htoor
        obtain rfl := Option.some_inj.mp htoor
        obtain ⟨pw', hpw', hauth⟩ := hrule ⟨hne, .inr (hcall.mpr (.inr rfl))⟩
        obtain rfl := Option.some_inj.mp hpw'
        exact hauth
      · rintro hadm ⟨-, hgot⟩
        obtain hcurrent | rfl := hcall.mp (hgot.resolve_left hne)
        · exact ⟨pw, rfl, .inl hcurrent⟩
        · exact ⟨_, rfl, hadm rfl⟩
    | rMinus =>
      obtain ⟨rfl, rfl⟩ := he
      constructor
      · intro hrule
        by_cases hzero : before.uid = 0
        · exact .inl hzero
        · exact .inr (hrule ⟨hzero, .inl rfl⟩)
      · rintro (hzero | hpw) ⟨hne, -⟩
        · exact absurd hzero hne
        · exact hpw

/-- **Which sessions obtain root with a current password only.** -/
theorem session_passwords_iff {b : Builtins σ} {s : ShState σ} {lines : List CStr} {events : List Event}
    {c : ShState σ × List (Frame b)} (hrun : Session b s lines events c) :
    (∀ e ∈ events, PasswordRule e) ↔ ∀ e ∈ events, Admissible e := by
  have hspec : ∀ e ∈ events, PrivSpec e := hrun.forall_events (fun _ _ _ _ _ h => exec_privSpec h)
  constructor
  · intro h e he
    exact (passwordRule_iff (hspec e he)).mp (h e he)
  · intro h e he
    exact (passwordRule_iff (hspec e he)).mpr (h e he)

def Event.isSu : Event → Bool
  | .priv (.su _) _ _ _ _ => true
  | _ => false

/-- Back from an ordinary user to root with root's password. -/
theorem session_passwords_su :
    (∀ e ∈ (demo (typeText "changeme" ++ typeText "toor") 10 ["adduser pig", "su pig", "su"]).1, PasswordRule e) ∧
    (demo (typeText "changeme" ++ typeText "toor") 10
      ["adduser pig", "su pig", "su"]).1.any Event.obtainsRoot = true := by
  refine ⟨(session_passwords_iff (demo_session _ 10 ["adduser pig", "su pig", "su"])).mpr ?_, by decide +kernel⟩
  -- both events are of `su`
  have hsu : (demo (typeText "changeme" ++ typeText "toor") 10
      ["adduser pig", "su pig", "su"]).1.all Event.isSu = true := by
    decide +kernel
  intro e he
  have hop := all_eq_true.mp hsu e he
  match e, hop with
  | .priv (.su _) _ _ _ _, _ => trivial

/-- `r-` makes an ordinary user root without any password. -/
theorem rMinus_needs_no_password :
    ∃ e ∈ (demo (typeText "changeme") 10 ["adduser pig", "su pig", "r-"]).1, e.obtainsRoot = true ∧ e.typed = none ∧
      ¬ PasswordRule e := by
  have hrun : (demo (typeText "changeme") 10 ["adduser pig", "su pig", "r-"]).1.any
      (fun e => e.obtainsRoot && e.typed.isNone) = true := by decide +kernel
  obtain ⟨e, he, hroot⟩ := any_eq_true.mp hrun
  rw [Bool.and_eq_true, Option.isNone_iff_eq_none] at hroot
  refine ⟨e, he, hroot.1, hroot.2, fun hrule => ?_⟩
  cases e with
  | input feed got => exact nomatch hroot.1
  | priv op typed before uid call =>
    obtain ⟨pw, hpw, -⟩ := hrule hroot.1
    exact nomatch hroot.2.symm.trans hpw

end PigOS.Shell
