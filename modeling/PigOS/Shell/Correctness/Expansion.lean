import PigOS.Kernel.Correctness.Resolve
import PigOS.Kernel.Correctness.UserDb
import PigOS.Shell.Navigation

/-!
# `Shell.Correctness.Expansion` — a line that is expanded once more

`sh_dispatch` expands its argument, and much of what it calls expands again. A second expansion
changes nothing if the first one leaves no `$`, and it leaves none as long as no `$` comes out of a
variable, `sh_user` or `sh_cwd` (`NoDollar`). Every frame keeps this (`exec_noDollar`), since all
that is stored comes out of a line that has been expanded. Aliases and the history may contain a
`$`; they are read only to be dispatched.
-/

namespace PigOS.Shell

open Kernel List

variable {σ : Type} {c : Core σ} {a : CStr} {out : List Emission} {fs : σ → Pigfs}

/-- `sh_expand` in a state. -/
abbrev Core.expand (c : Core σ) (t : CStr) (outsz : Nat) : CStr := shExpand c.vars c.user c.cwd t outsz

structure NoDollar (c : Core σ) : Prop where
  vars : ∀ slot ∈ c.vars, dollar ∉ slot.2
  user : dollar ∉ c.user
  cwd : dollar ∉ c.cwd
  names : ∀ u ∈ c.db.users, dollar ∉ u.name ∧ dollar ∉ u.home

/-! ## Expansion -/

lemma isNameChar_dollar : isNameChar dollar = false := by decide

lemma NoDollar.shValue (h : NoDollar c) {vn : CStr} (hvn : dollar ∉ vn) : dollar ∉ shValue c.vars c.user c.cwd vn := by
  unfold Shell.shValue
  split
  · rename_i val hval
    obtain ⟨slot, hslot, rfl⟩ := mem_map.mp (tableGet_mem hval)
    exact h.vars slot hslot
  · split
    · decide
    split
    · exact h.user
    split
    · exact h.cwd
    split
    · decide
    · exact hvn

lemma expandLoop_noDollar {value : CStr → CStr} (hvalue : ∀ vn, dollar ∉ vn → dollar ∉ value vn) (name : Option CStr)
    (t : CStr) (hname : ∀ vn ∈ name, dollar ∉ vn) : dollar ∉ expandLoop value name t := by
  fun_induction expandLoop value name t with
  | case1 => exact not_mem_nil
  | case2 vn => exact hvalue vn (hname vn rfl)
  | case3 cs ih => exact ih (fun vn hvn => Option.some.inj hvn ▸ not_mem_nil)
  | case4 c cs hc ih =>
    rw [mem_cons, not_or]
    exact ⟨fun heq => hc heq.symm, ih (fun _ hvn => absurd hvn (by simp))⟩
  | case5 vn c cs hc ih =>
    refine ih (fun vn' hvn' => ?_)
    rw [← Option.some.inj hvn', mem_append, not_or, mem_singleton]
    refine ⟨hname vn rfl, ?_⟩
    rintro rfl
    exact absurd hc.1 (by rw [isNameChar_dollar]; exact Bool.false_ne_true)
  | case6 vn cs hchar ih =>
    rw [mem_append, not_or]
    exact ⟨hvalue vn (hname vn rfl), ih (fun vn' hvn' => Option.some.inj hvn' ▸ not_mem_nil)⟩
  | case7 vn c cs hchar hc ih =>
    rw [mem_append, mem_cons, not_or, not_or]
    exact ⟨hvalue vn (hname vn rfl), fun heq => hc heq.symm, ih (fun _ hvn => absurd hvn (by simp))⟩

lemma NoDollar.expand (h : NoDollar c) (t : CStr) (outsz : Nat) : dollar ∉ c.expand t outsz := by
  intro hmem
  have hloop := expandLoop_noDollar (fun _ hvn => h.shValue hvn) none t (fun _ hvn => absurd hvn (by simp))
  exact hloop (mem_of_mem_take hmem)

/-- **Expansion is idempotent**, whatever the size of the buffer. -/
theorem NoDollar.expand_expand (h : NoDollar c) (t : CStr) (outsz : Nat) :
    c.expand (c.expand t outsz) outsz = c.expand t outsz := by
  cases outsz with
  | zero => simp [Core.expand, shExpand]
  | succ outsz => exact shExpand_of_no_dollar _ _ _ (h.expand t _) (length_shExpand_lt _ _ _ _ (Nat.succ_pos _))

lemma NoDollar.prepare (h : NoDollar c) (raw : CStr) : dollar ∉ prepare c raw :=
  fun hmem => h.expand raw shBuf ((trim_sublist _).mem hmem)

/-! ## What the commands store -/

variable {b : Builtins σ} {c' : Core σ} {events : List Event} {r : List Emission × CStr × List Int × σ} {cmd : CStr}

lemma mem_tableSet {max : Nat} {t : Table} {n v : CStr} {slot : CStr × CStr} (h : slot ∈ tableSet max t n v) :
    slot.2 = v ∨ slot ∈ t := by
  unfold tableSet at h
  split at h
  · obtain ⟨old, hold, rfl | rfl⟩ := mem_modify h
    · exact .inl rfl
    · exact .inr hold
  · split at h
    · rcases mem_append.mp h with h | h
      · exact .inr h
      · exact .inl (by rw [mem_singleton.mp h])
    · exact .inr h

lemma assignValue_sublist (a : CStr) : (assignValue a).Sublist a := by
  unfold assignValue
  have hdrop := drop_sublist (assignName a).length a
  split
  · rename_i c cs hcs
    rw [hcs] at hdrop
    split
    · exact (sublist_cons_self c cs).trans hdrop
    · exact nil_sublist a
  · exact nil_sublist a

section Kept

variable (h : NoDollar c)

include h

lemma NoDollar.setVar (ha : dollar ∉ a) :
    NoDollar { c with vars := shVarSet c.vars (assignName a) (assignValue a) } := by
  refine ⟨fun slot hslot => ?_, h.user, h.cwd, h.names⟩
  rcases mem_tableSet hslot with heq | hold
  · rw [heq]
    exact fun hmem => ha ((assignValue_sublist a).mem hmem)
  · exact h.vars slot hold

lemma NoDollar.unsetVar (a : CStr) : NoDollar { c with vars := clearAll c.vars a } := by
  refine ⟨fun slot hslot => ?_, h.user, h.cwd, h.names⟩
  obtain ⟨old, hold, rfl⟩ := mem_map.mp hslot
  split
  · exact not_mem_nil
  · exact h.vars old hold

lemma NoDollar.users {db : UserDb} (hdb : ∀ u ∈ db.users, NamedIn c.db.users u)
    (keys : List Int) (rest : σ) : NoDollar { c with db := db, keys := keys, rest := rest } := by
  refine ⟨h.vars, h.user, h.cwd, fun u hu => ?_⟩
  obtain ⟨v, hv, hname, hhome⟩ := hdb u hu
  rw [hname, hhome]
  exact h.names v hv

lemma NoDollar.adduser {n : CStr} (hn : dollar ∉ n) (rest : σ) :
    NoDollar { c with db := (adduserDb c.db n).2, rest := rest } := by
  refine ⟨h.vars, h.user, h.cwd, fun u hu => ?_⟩
  rcases adduserDb_users hu with ⟨v, hv, hname, hhome⟩ | ⟨hname, hhome⟩
  · rw [hname, hhome]
    exact h.names v hv
  · rw [hname, hhome]
    constructor
    · unfold storedUserName
      split
      · exact hn
      · rw [mem_append, not_or]
        exact ⟨fun hmem => hn (mem_of_mem_take hmem), by decide⟩
    · unfold homeOf
      rw [mem_append, mem_append, not_or, not_or]
      exact ⟨⟨by decide, hn⟩, by decide⟩

lemma NoDollar.passwd (hpasswd : shPasswd c a = some (out, c')) : NoDollar c' := by
  unfold shPasswd at hpasswd
  dsimp only at hpasswd
  generalize (if a ≠ [] then a else curUser) = u at hpasswd
  split at hpasswd
  · obtain ⟨-, rfl⟩ := hpasswd
    exact h
  · obtain ⟨r, -, heq⟩ := Option.map_eq_some_iff.mp hpasswd
    obtain ⟨-, rfl⟩ := heq
    exact h.users (fun _ => cmdPasswd_users) r.2 c.rest

lemma NoDollar.su (hsu : shSu c a = some (out, c', events)) : NoDollar c' := by
  unfold shSu at hsu
  dsimp only at hsu
  split at hsu
  · obtain ⟨-, rfl, -⟩ := hsu
    exact h
  · rename_i u hu
    obtain ⟨i, -, hget⟩ := Option.bind_eq_some_iff.mp hu
    obtain ⟨r, -, heq⟩ := Option.map_eq_some_iff.mp hsu
    obtain ⟨-, rfl, -⟩ := heq
    have hnames := h.names u (mem_of_getElem? hget)
    unfold suAttempt
    split
    · exact ⟨h.vars, hnames.1, hnames.2, h.names⟩
    · exact ⟨h.vars, h.user, h.cwd, h.names⟩

lemma cdRun_noDollar (ha : dollar ∉ a) {fs : Pigfs}
    (hrun : cdRun c (fsCd fs c.cwd a) out = some r) : dollar ∉ r.2.1 := by
  unfold cdRun at hrun
  split at hrun
  · exact absurd hrun (by simp)
  obtain rfl := Option.some.inj hrun
  cases hcd : fsCd fs c.cwd a with
  | entered p =>
    have hforall : ∀ x ∈ p, x ≠ dollar := fsCd_forall (by decide) (fun x hx heq => h.cwd (heq ▸ hx))
      (fun x hx heq => ha (heq ▸ hx)) hcd
    exact fun hmem => hforall dollar hmem rfl
  | noSuchFile a => exact h.cwd
  | notDirectory a => exact h.cwd
  | overflow => exact h.cwd

lemma NoDollar.run {a : CStr} (ha : dollar ∉ a) {fs : σ → Pigfs}
    (hrun : (b.withCd fs).run cmd a c = some r) : dollar ∉ r.2.1 := by
  unfold Builtins.withCd at hrun
  dsimp only at hrun
  split at hrun
  · exact cdRun_noDollar h ha hrun
  split at hrun
  · exact cdRun_noDollar h ha hrun
  split at hrun
  · exact cdRun_noDollar h (by decide) hrun
  · obtain ⟨r', -, rfl⟩ := Option.map_eq_some_iff.mp hrun
    exact h.cwd

lemma leaf_noDollar {typed : Option CStr} (ha : dollar ∉ a)
    (hleaf : leaf (b.withCd fs) c typed cmd a = some (out, c', events)) : NoDollar c' := by
  unfold leaf at hleaf
  split at hleaf
  · exact h.su hleaf
  · obtain ⟨-, rfl, -⟩ := hleaf
    exact ⟨h.vars, show dollar ∉ cstr "root" by decide, show dollar ∉ cstr "/" by decide, h.names⟩
  -- the commands of the user database
  · obtain ⟨-, rfl, -⟩ := hleaf
    exact h.adduser ha _
  · obtain ⟨-, rfl, -⟩ := hleaf
    exact h.users (fun _ => shDeluser_users) c.keys c.rest
  · obtain ⟨-, rfl, -⟩ := hleaf
    exact h.users (fun _ hu => namedIn_self (cmdUsermod_users c.db a ▸ hu)) c.keys c.rest
  · obtain ⟨-, rfl, -⟩ := hleaf
    exact h.users (fun _ hu => namedIn_self (cmdGroupadd_users c.db a ▸ hu)) c.keys c.rest
  · obtain ⟨⟨out₁, c₁⟩, hpasswd, heq⟩ := Option.map_eq_some_iff.mp hleaf
    obtain ⟨-, rfl, -⟩ := heq
    exact h.passwd hpasswd
  -- the variables
  · split at hleaf
    · obtain ⟨-, rfl, -⟩ := hleaf
      exact h
    · obtain ⟨-, rfl, -⟩ := hleaf
      exact h.setVar ha
  · split at hleaf
    · obtain ⟨-, rfl, -⟩ := hleaf
      exact h
    · obtain ⟨-, rfl, -⟩ := hleaf
      exact h.setVar ha
  · obtain ⟨-, rfl, -⟩ := hleaf
    exact h.unsetVar a
  -- the aliases
  · split at hleaf
    · obtain ⟨-, rfl, -⟩ := hleaf
      exact h
    · obtain ⟨-, rfl, -⟩ := hleaf
      exact ⟨h.vars, h.user, h.cwd, h.names⟩
  · split at hleaf
    · obtain ⟨-, rfl, -⟩ := hleaf
      exact ⟨h.vars, h.user, h.cwd, h.names⟩
    · obtain ⟨-, rfl, -⟩ := hleaf
      exact h
  -- everything else
  · split at hleaf
    · obtain ⟨-, rfl, -⟩ := hleaf
      exact h
    · obtain ⟨r, hrun, heq⟩ := Option.map_eq_some_iff.mp hleaf
      obtain ⟨-, rfl, -⟩ := heq
      exact ⟨h.vars, h.user, h.run ha hrun, h.names⟩

/-! ## One frame -/

/-- The argument of a command, and the two sides of a pipe, come out of an expansion. -/
lemma shape_noDollar (raw : CStr) : match shape c raw with
    | .pipe left right => (dollar ∉ left ∧ left.length < shBuf) ∧ dollar ∉ right ∧ right.length < shBuf
    | .command _ a => dollar ∉ a ∧ a.length < shBuf
    | _ => True := by
  have hpart {t : CStr} (hsub : t.Sublist (prepare c raw)) : dollar ∉ t ∧ t.length < shBuf :=
    ⟨fun hmem => h.prepare raw (hsub.mem hmem), lt_of_le_of_lt hsub.length_le (prepare_length_lt c raw)⟩
  have hspec := shape_spec c raw
  cases hshape : shape c raw with
  | nothing => trivial
  | pipe left right =>
    rw [hshape] at hspec
    obtain ⟨hleft, hright⟩ := splitPipe_sublist hspec
    exact ⟨hpart hleft, hpart hright⟩
  | aliased val => trivial
  | command cmd a =>
    rw [hshape] at hspec
    have hsub := splitCmd_sublist (prepare c raw)
    rw [show splitCmd (prepare c raw) = (cmd, a) from hspec] at hsub
    exact hpart hsub

end Kept

/-- **The step lemma.** -/
theorem exec_noDollar {s s' : ShState σ} {f : Frame (b.withCd fs)} {es : List Event}
    {frames : List (Frame (b.withCd fs))} (h : NoDollar s.core)
    (hexec : exec (b.withCd fs) s f = some (es, s', frames)) :
    NoDollar s'.core := by
  have hcore := (exec_steps hexec).2
  generalize s'.core = c' at hcore
  cases hcore with
  | @leaf line cmd a out _ es hshape hleaf =>
    have hparts := shape_noDollar h line
    rw [hshape] at hparts
    exact leaf_noDollar h hparts.1 hleaf
  | frame aliases hist keys rok => exact ⟨h.vars, h.user, h.cwd, h.names⟩

/-! ## Sessions -/

/-- The states that a session reaches, also inside of a command. The prompt reads keys and writes
the history. -/
inductive Reached (b : Builtins σ) : ShState σ → Prop where
  | boot (keys : List Int) (rest : σ) : Reached b (.boot keys rest)
  | prompt {s : ShState σ} (h : Reached b s) (hist : List CStr) (keys : List Int) :
      Reached b { s with core := { s.core with hist := hist, keys := keys } }
  | run {s s' : ShState σ} {fs fs' : List (Frame b)} {es : List Event} (h : Reached b s)
      (hrun : Frames.Runs (exec b) (s, fs) es (s', fs')) : Reached b s'

lemma noDollar_boot (keys : List Int) (rest : σ) : NoDollar (ShState.boot keys rest).core where
  vars := forall_mem_nil _
  user := show dollar ∉ cstr "root" by decide
  cwd := show dollar ∉ cstr "/" by decide
  names := by
    intro u hu
    rw [mem_singleton.mp hu]
    exact ⟨by decide, by decide⟩

lemma Reached.noDollar {s : ShState σ} (h : Reached (b.withCd fs) s) : NoDollar s.core := by
  induction h with
  | boot keys rest => exact noDollar_boot keys rest
  | prompt _ hist keys ih => exact ⟨ih.vars, ih.user, ih.cwd, ih.names⟩
  | run _ hrun ih =>
    exact hrun.invariant (I := fun c => NoDollar c.1.core) (fun _ _ _ _ _ _ hexec hc => exec_noDollar hc hexec) ih

/-- **Expanding once more changes nothing** in any state that a session reaches: no value has a `$`
in it, and the sides of a pipe and the argument of a command are what they are expanded to, in
whatever state `c`. -/
theorem reached_reexpansion (b : Builtins σ) (fs : σ → Pigfs) {s : ShState σ} (h : Reached (b.withCd fs) s) :
    ((∀ slot ∈ s.core.vars, dollar ∉ slot.2) ∧ dollar ∉ s.core.user ∧ dollar ∉ s.core.cwd) ∧
    (∀ t outsz, s.core.expand (s.core.expand t outsz) outsz = s.core.expand t outsz) ∧
    ∀ line, match shape s.core line with
      | .pipe left right => ∀ c : Core σ, c.expand left shBuf = left ∧ c.expand right shBuf = right
      | .command _ a => ∀ c : Core σ, c.expand a shBuf = a
      | _ => True := by
  have hs := h.noDollar
  refine ⟨⟨hs.vars, hs.user, hs.cwd⟩, hs.expand_expand, fun line => ?_⟩
  have hparts := shape_noDollar hs line
  split
  · rename_i left right hshape
    rw [hshape] at hparts
    intro c
    exact ⟨shExpand_of_no_dollar _ _ _ hparts.1.1 hparts.1.2, shExpand_of_no_dollar _ _ _ hparts.2.1 hparts.2.2⟩
  · rename_i cmd a hshape
    rw [hshape] at hparts
    exact fun c => shExpand_of_no_dollar _ _ _ hparts.1 hparts.2
  · trivial

/-- The file system at the first boot. -/
def firstFs : Unit → Pigfs := fun _ => (boot ⟨0, 0, fun _ => []⟩).fs

/-- The state behind `cd /etc` and `export X=$PWD$HOME`. -/
def behindExport : ShState Unit :=
  (Frames.run (exec (idleBuiltins.withCd firstFs)) 2
    (ShState.boot [] (), [.call (cstr "cd /etc"), .call (cstr "export X=$PWD$HOME")])).2.1

lemma reached_behindExport : Reached (idleBuiltins.withCd firstFs) behindExport :=
  .run (.boot [] ()) (Frames.run_runs 2 _)

/-- The value comes from two others, and is cut by the buffer. -/
theorem reached_reexpansion_export :
    behindExport.core.vars = [(cstr "X", cstr "/etc/root")] ∧
    behindExport.core.expand (cstr "ls $X") 8 = cstr "ls /etc" ∧
    behindExport.core.expand (behindExport.core.expand (cstr "ls $X") 8) 8 =
      behindExport.core.expand (cstr "ls $X") 8 := by
  refine ⟨by decide +kernel, by decide +kernel, ?_⟩
  exact (reached_reexpansion idleBuiltins firstFs reached_behindExport).2.1 (cstr "ls $X") 8

end PigOS.Shell
