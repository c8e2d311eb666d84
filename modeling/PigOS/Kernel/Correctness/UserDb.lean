import Mathlib.Data.Finset.Card
import PigOS.Kernel.UserDb

/-!
# `Kernel.Correctness.UserDb` — the invariant of the user database

`DbInv` is what the fixed arrays of `users.h` need. Three of the five commands can break it at once:
`adduser` and `groupadd` copy a name of any length, and `usermod` adds a user who may already be a
member. Nothing else can (`userDb_invariant_iff`).
-/

namespace PigOS.Kernel

open List

variable {i : Nat} {g : Group} {db : UserDb} {n : CStr} {u : User}
variable {j nu : Nat} {f : User → User} {c : UserCmd} {us : List User} {α : Type} {l : List α}

/-! ## The invariant -/

structure DbInv (db : UserDb) : Prop where
  nu_le : db.users.length ≤ maxU
  ng_le : db.groups.length ≤ maxG
  names : ∀ (i j : Nat) (u v : User), db.users[i]? = some u → db.users[j]? = some v →
                  u.active = true → v.active = true → u.name = v.name → i = j
  uids : ∀ (i j : Nat) (u v : User), db.users[i]? = some u → db.users[j]? = some v → u.uid = v.uid → i = j
  name_lt : ∀ u ∈ db.users, u.name.length < 32
  home_lt : ∀ u ∈ db.users, u.home.length < 64
  groupName_lt : ∀ g ∈ db.groups, g.name.length < 32
  nm_le : ∀ g ∈ db.groups, g.mem.length ≤ maxU
  mem_lt : ∀ g ∈ db.groups, ∀ j ∈ g.mem, j < db.users.length
  mem_nodup : ∀ g ∈ db.groups, g.mem.Nodup

/-- The uid of the user in slot `i`. -/
def uidAt (i : Nat) : Nat := if i = 0 then 0 else 1000 + i

lemma uidAt_inj (h : uidAt i = uidAt j) : i = j := by
  unfold uidAt at h
  split at h <;> split at h <;> omega

/-- What a group's list must be, in a table of `nu` users. -/
structure MemOk (nu : Nat) (g : Group) : Prop where
  lt : ∀ j ∈ g.mem, j < nu
  nodup : g.mem.Nodup

/-- The inductive form of the invariant: the uids are known, and the bound on `nm` follows from the
rest. -/
structure DbWf (db : UserDb) : Prop where
  nu_pos : 0 < db.users.length
  nu_le : db.users.length ≤ maxU
  ng_le : db.groups.length ≤ maxG
  names : ∀ (i j : Nat) (u v : User), db.users[i]? = some u → db.users[j]? = some v →
                   u.active = true → v.active = true → u.name = v.name → i = j
  uid_eq : ∀ (i : Nat) (u : User), db.users[i]? = some u → u.uid = uidAt i
  name_lt : ∀ u ∈ db.users, u.name.length < 32
  home_lt : ∀ u ∈ db.users, u.home.length < 64
  groupName_lt : ∀ g ∈ db.groups, g.name.length < 32
  members : ∀ g ∈ db.groups, MemOk db.users.length g

lemma MemOk.length_le (h : MemOk nu g) : g.mem.length ≤ nu := by
  have hsub : g.mem.toFinset ⊆ Finset.range nu := by
    intro j hj
    exact Finset.mem_range.mpr (h.lt j (mem_toFinset.mp hj))
  have hcard := Finset.card_le_card hsub
  rwa [toFinset_card_of_nodup h.nodup, Finset.card_range] at hcard

lemma DbWf.inv (h : DbWf db) : DbInv db where
  nu_le := h.nu_le
  ng_le := h.ng_le
  names := h.names
  uids := fun i j u v hi hj huv => uidAt_inj (by rw [← h.uid_eq i u hi, ← h.uid_eq j v hj, huv])
  name_lt := h.name_lt
  home_lt := h.home_lt
  groupName_lt := h.groupName_lt
  nm_le := fun g hg => Nat.le_trans (h.members g hg).length_le h.nu_le
  mem_lt := fun g hg => (h.members g hg).lt
  mem_nodup := fun g hg => (h.members g hg).nodup

lemma dbWf_initial : DbWf initialUsers where
  nu_pos := by decide
  nu_le := by decide
  ng_le := by decide
  names := by
    intro i j u v hi hj _ _ _
    have hi' := (List.getElem?_eq_some_iff.mp hi).1
    have hj' := (List.getElem?_eq_some_iff.mp hj).1
    simp only [initialUsers, length_singleton] at hi' hj'
    omega
  uid_eq := by
    intro i u hi
    have hi' := (List.getElem?_eq_some_iff.mp hi).1
    simp only [initialUsers, length_singleton, Nat.lt_one_iff] at hi'
    subst hi'
    cases hi
    rfl
  name_lt := by decide
  home_lt := by decide
  groupName_lt := by decide
  members := by
    intro g hg
    simp only [initialUsers, mem_cons, not_mem_nil, or_false] at hg
    rcases hg with rfl | rfl | rfl
    · exact ⟨by decide, by decide⟩
    · exact ⟨by decide, by decide⟩
    · exact ⟨by decide, by decide⟩

/-! ## The kinds of write -/

/-- A rewrite of a user's record that leaves what the invariant reads, and activates nobody. -/
structure KeepsUser (f : User → User) : Prop where
  name : ∀ u, (f u).name = u.name
  uid : ∀ u, (f u).uid = u.uid
  home : ∀ u, (f u).home = u.home
  active : ∀ u, (f u).active = true → u.active = true

lemma keepsUser_off : KeepsUser (fun u => { u with active := false }) :=
  ⟨fun _ => rfl, fun _ => rfl, fun _ => rfl, fun _ hf => absurd hf (by simp)⟩

lemma keepsUser_pass (pw : CStr) : KeepsUser (fun u => { u with pass := pw }) :=
  ⟨fun _ => rfl, fun _ => rfl, fun _ => rfl, fun _ ha => ha⟩

/-- An element of a list with one entry rewritten is the rewritten one, or an old one. -/
lemma getElem?_modify_cases {f : α → α} {b : α}
    (h : (l.modify i f)[j]? = some b) : ∃ a, l[j]? = some a ∧ (i = j ∧ b = f a ∨ b = a) := by
  rw [getElem?_modify] at h
  obtain ⟨a, ha, hb⟩ := Option.map_eq_some_iff.mp h
  refine ⟨a, ha, ?_⟩
  split at hb
  · rename_i hij
    exact Or.inl ⟨hij, hb.symm⟩
  · exact Or.inr hb.symm

lemma mem_modify {f : α → α} {b : α} (h : b ∈ l.modify i f) : ∃ a ∈ l, b = f a ∨ b = a := by
  obtain ⟨j, hj⟩ := getElem?_of_mem h
  obtain ⟨a, ha, hb⟩ := getElem?_modify_cases hj
  exact ⟨a, mem_of_getElem? ha, hb.imp_left And.right⟩

lemma DbWf.modifyUser (h : DbWf db) (i : Nat) (hf : KeepsUser f) : DbWf { db with users := db.users.modify i f } := by
  have hkeep : ∀ {u v : User}, v = f u ∨ v = u →
      v.name = u.name ∧ v.uid = u.uid ∧ v.home = u.home ∧ (v.active = true → u.active = true) := by
    rintro u v (rfl | rfl)
    · exact ⟨hf.name u, hf.uid u, hf.home u, hf.active u⟩
    · exact ⟨rfl, rfl, rfl, fun ha => ha⟩
  refine ⟨?_, ?_, h.ng_le, ?_, ?_, ?_, ?_, h.groupName_lt, ?_⟩
  · rw [length_modify]
    exact h.nu_pos
  · rw [length_modify]
    exact h.nu_le
  · intro j k u v hj hk hua hva hname
    obtain ⟨u₀, hj₀, hu⟩ := getElem?_modify_cases hj
    obtain ⟨v₀, hk₀, hv⟩ := getElem?_modify_cases hk
    obtain ⟨hun, -, -, hu'⟩ := hkeep (hu.imp_left And.right)
    obtain ⟨hvn, -, -, hv'⟩ := hkeep (hv.imp_left And.right)
    exact h.names j k u₀ v₀ hj₀ hk₀ (hu' hua) (hv' hva) (hun ▸ hvn ▸ hname)
  · intro j u hj
    obtain ⟨u₀, hj₀, hu⟩ := getElem?_modify_cases hj
    rw [(hkeep (hu.imp_left And.right)).2.1]
    exact h.uid_eq j u₀ hj₀
  · intro u hu
    obtain ⟨u₀, hu₀, hu⟩ := mem_modify hu
    rw [(hkeep hu).1]
    exact h.name_lt u₀ hu₀
  · intro u hu
    obtain ⟨u₀, hu₀, hu⟩ := mem_modify hu
    rw [(hkeep hu).2.2.1]
    exact h.home_lt u₀ hu₀
  · intro g hg
    rw [length_modify]
    exact h.members g hg

/-- A rewrite of one group that leaves its name and keeps its list in order. -/
lemma DbWf.modifyGroup (h : DbWf db) {gi : Nat} {f : Group → Group} (hname : ∀ g, (f g).name = g.name)
    (hmem : ∀ g, db.groups[gi]? = some g → MemOk db.users.length (f g)) :
    DbWf { db with groups := db.groups.modify gi f } := by
  have hcase : ∀ g ∈ db.groups.modify gi f,
      g ∈ db.groups ∨ ∃ g₀, db.groups[gi]? = some g₀ ∧ g = f g₀ := by
    intro g hg
    obtain ⟨j, hj⟩ := getElem?_of_mem hg
    obtain ⟨g₀, hg₀, ⟨rfl, rfl⟩ | rfl⟩ := getElem?_modify_cases hj
    · exact Or.inr ⟨g₀, hg₀, rfl⟩
    · exact Or.inl (mem_of_getElem? hg₀)
  refine ⟨h.nu_pos, h.nu_le, ?_, h.names, h.uid_eq, h.name_lt, h.home_lt, ?_, ?_⟩
  · rw [length_modify]
    exact h.ng_le
  · intro g hg
    rcases hcase g hg with hold | ⟨g₀, hg₀, rfl⟩
    · exact h.groupName_lt g hold
    · rw [hname]
      exact h.groupName_lt g₀ (mem_of_getElem? hg₀)
  · intro g hg
    rcases hcase g hg with hold | ⟨g₀, hg₀, rfl⟩
    · exact h.members g hold
    · exact hmem g₀ hg₀

lemma MemOk.append {ui : Nat} (h : MemOk nu g) (hlt : ui < nu) (hnew : ui ∉ g.mem) :
    MemOk nu { g with mem := g.mem ++ [ui] } := by
  refine ⟨?_, ?_⟩
  · intro j hj
    rcases mem_append.mp hj with hj | hj
    · exact h.lt j hj
    · rw [mem_singleton.mp hj]
      exact hlt
  · exact nodup_append.mpr ⟨h.nodup, nodup_singleton ui,
      fun a ha b hb hab => hnew (mem_singleton.mp hb ▸ hab ▸ ha)⟩

lemma MemOk.mono {nu' : Nat} (h : MemOk nu g) (hle : nu ≤ nu') : MemOk nu' g :=
  ⟨fun j hj => Nat.lt_of_lt_of_le (h.lt j hj) hle, h.nodup⟩

/-! ## What each command needs -/

lemma ufind_eq_none (h : ufind db n = none) : ∀ u ∈ db.users, u.active = true → u.name ≠ n := by
  intro u hu hactive hname
  have hall := findIdx?_eq_none_iff.mp h u hu
  rw [hactive, hname] at hall
  simp at hall

lemma ufind_lt (h : ufind db n = some i) : i < db.users.length :=
  (findIdx?_eq_some_iff_getElem.mp h).1

/-- A name that is stored fits its field, and a user who is added to a group is not in it. -/
def Admissible (db : UserDb) : UserCmd → Prop
  | .adduser n => (ufind db n = none ∧ db.users.length < maxU) → n.length < 32
  | .groupadd n => db.groups.length < maxG → n.length < 32
  | .usermod a => a.take 2 = cstr "-G" → ∀ ui gidx g, ufind db (usermodArgs a).2 = some ui →
      gfind db (usermodArgs a).1 = some gidx → db.groups[gidx]? = some g → ui ∉ g.mem
  | _ => True

lemma length_homeOf (n : CStr) : (homeOf n).length = n.length + 7 := by
  unfold homeOf
  rw [length_append, length_append]
  show 6 + n.length + 1 = n.length + 7
  omega

lemma newUser_of_lt (h : n.length < 32) (nu : Nat) :
    newUser n nu = ⟨n, cstr "changeme", 1000 + nu, 2, homeOf n, true⟩ := by
  unfold newUser storedUserName
  rw [if_pos h, length_homeOf, decide_eq_true (show n.length + 7 ≠ 64 by omega)]

lemma DbWf.addUser (h : DbWf db) (hnone : ufind db n = none) (hlt : db.users.length < maxU) (hn : n.length < 32) :
    DbWf ⟨db.users ++ [newUser n db.users.length], db.groups⟩ := by
  rw [newUser_of_lt hn]
  -- a slot of the longer table is an old one or the last
  have hslot : ∀ {i : Nat} {u : User},
      (db.users ++ [(⟨n, cstr "changeme", 1000 + db.users.length, 2, homeOf n, true⟩ : User)])[i]? = some u →
      db.users[i]? = some u ∨ i = db.users.length ∧
        u = ⟨n, cstr "changeme", 1000 + db.users.length, 2, homeOf n, true⟩ := by
    intro i u hi
    rcases Nat.lt_trichotomy i db.users.length with hlt | rfl | hgt
    · rw [getElem?_append_left hlt] at hi
      exact Or.inl hi
    · rw [getElem?_concat_length] at hi
      exact Or.inr ⟨rfl, (Option.some.inj hi).symm⟩
    · rw [getElem?_eq_none (by rw [length_append]; exact hgt)] at hi
      cases hi
  have hfresh : ∀ {i : Nat} {u : User}, db.users[i]? = some u → u.active = true → u.name ≠ n :=
    fun hi => ufind_eq_none hnone _ (mem_of_getElem? hi)
  refine ⟨?_, ?_, h.ng_le, ?_, ?_, ?_, ?_, h.groupName_lt, ?_⟩
  · rw [length_append]
    exact Nat.lt_add_right 1 h.nu_pos
  · rw [length_append]
    exact hlt
  · intro i j u v hi hj hua hva hname
    rcases hslot hi with hi | ⟨rfl, rfl⟩ <;> rcases hslot hj with hj | ⟨rfl, rfl⟩
    · exact h.names i j u v hi hj hua hva hname
    · exact absurd hname (hfresh hi hua)
    · exact absurd hname.symm (hfresh hj hva)
    · rfl
  · intro i u hi
    rcases hslot hi with hi | ⟨rfl, rfl⟩
    · exact h.uid_eq i u hi
    · unfold uidAt
      rw [if_neg (Nat.ne_of_gt h.nu_pos)]
  · intro u hu
    rcases mem_append.mp hu with hu | hu
    · exact h.name_lt u hu
    · rw [mem_singleton.mp hu]
      exact hn
  · intro u hu
    rcases mem_append.mp hu with hu | hu
    · exact h.home_lt u hu
    · rw [mem_singleton.mp hu]
      rw [length_homeOf]
      omega
  · intro g hg
    rw [length_append]
    exact (h.members g hg).mono (Nat.le_add_right _ _)

lemma adduserDb_wf (h : DbWf db) (hn : Admissible db (.adduser n)) : DbWf (adduserDb db n).2 := by
  unfold adduserDb
  split
  · exact h
  split
  · exact h
  rename_i hfind
  split
  · exact h
  rename_i hroom
  have hnone : ufind db n = none := Option.not_isSome_iff_eq_none.mp hfind
  have hlt : db.users.length < maxU := Nat.lt_of_not_le hroom
  have hadd := h.addUser hnone hlt (hn ⟨hnone, hlt⟩)
  unfold joinUsersGroup
  split
  · refine hadd.modifyGroup ?_ ?_
    · intro g
      split <;> rfl
    · intro g hg
      have hold : MemOk db.users.length g := h.members g (mem_of_getElem? hg)
      have hmono := hold.mono (Nat.le_add_right db.users.length 1)
      rw [length_append, length_singleton]
      split
      · -- the new index is not in the list, whose entries are all below it
        exact hmono.append (Nat.lt_succ_self _) (fun hmem => Nat.lt_irrefl _ (hold.lt _ hmem))
      · exact hmono
  · exact hadd

lemma shDeluser_wf (h : DbWf db) (a : CStr) : DbWf (shDeluser db a).2 := by
  unfold shDeluser
  split
  · exact h
  split
  · exact h
  split
  · exact h
  unfold deluser
  split
  · split
    · exact h
    · exact h.modifyUser _ keepsUser_off
  · exact h

lemma cmdPasswd_wf (h : DbWf db) (n : CStr) (keys : List Nat) : DbWf (cmdPasswd db n keys).2 := by
  unfold cmdPasswd
  split
  · exact h
  simp only
  split
  · exact h
  · exact h.modifyUser _ (keepsUser_pass _)

lemma cmdUsermod_cases (db : UserDb) (a : CStr) :
    (cmdUsermod db a).2 = db ∨
    ∃ ui gidx, a.take 2 = cstr "-G" ∧ ufind db (usermodArgs a).2 = some ui ∧
      gfind db (usermodArgs a).1 = some gidx ∧
      (cmdUsermod db a).2 = { db with groups := db.groups.modify gidx (fun x => { x with mem := x.mem ++ [ui] }) } := by
  unfold cmdUsermod
  split
  · exact Or.inl rfl
  split
  · rename_i hflag
    simp only
    split
    · exact Or.inl rfl
    · exact Or.inl rfl
    · rename_i ui gidx hui hgidx
      exact Or.inr ⟨ui, gidx, hflag, hui, hgidx, rfl⟩
  · exact Or.inl rfl

lemma cmdUsermod_wf (h : DbWf db) {a : CStr} (ha : Admissible db (.usermod a)) : DbWf (cmdUsermod db a).2 := by
  rcases cmdUsermod_cases db a with heq | ⟨ui, gidx, hflag, hui, hgidx, heq⟩
  · rw [heq]
    exact h
  · rw [heq]
    refine h.modifyGroup (fun _ => rfl) (fun g hg => ?_)
    exact (h.members g (mem_of_getElem? hg)).append (ufind_lt hui) (ha hflag ui gidx g hui hgidx hg)

lemma cmdGroupadd_wf (h : DbWf db) (hn : Admissible db (.groupadd n)) : DbWf (cmdGroupadd db n).2 := by
  unfold cmdGroupadd
  split
  · exact h
  split
  · exact h
  rename_i hroom
  have hlt : db.groups.length < maxG := Nat.lt_of_not_le hroom
  refine ⟨h.nu_pos, h.nu_le, ?_, h.names, h.uid_eq, h.name_lt, h.home_lt, ?_, ?_⟩
  · rw [length_append]
    exact hlt
  · intro g hg
    rcases mem_append.mp hg with hg | hg
    · exact h.groupName_lt g hg
    · rw [mem_singleton.mp hg]
      unfold storedGroupName
      rw [if_pos (hn hlt)]
      exact hn hlt
  · intro g hg
    rcases mem_append.mp hg with hg | hg
    · exact h.members g hg
    · rw [mem_singleton.mp hg]
      exact ⟨fun j hj => absurd hj not_mem_nil, nodup_nil⟩

/-- The step lemma: an admissible command keeps the invariant. -/
lemma userStep_wf (h : DbWf db) (hc : Admissible db c) : DbWf (userStep db c).2 := by
  cases c with
  | adduser n => exact adduserDb_wf h hc
  | deluser a => exact shDeluser_wf h a
  | usermod a => exact cmdUsermod_wf h hc
  | groupadd n => exact cmdGroupadd_wf h hc
  | passwd n keys => exact cmdPasswd_wf h n keys

/-! ## Where a record comes from -/

/-- The record has the name and the home directory of one of `us`. -/
def NamedIn (us : List User) (u : User) : Prop := ∃ v ∈ us, u.name = v.name ∧ u.home = v.home

lemma namedIn_self (h : u ∈ us) : NamedIn us u := ⟨u, h, rfl, rfl⟩

lemma namedIn_modify (hf : KeepsUser f) (h : u ∈ us.modify i f) : NamedIn us u := by
  obtain ⟨v, hv, rfl | rfl⟩ := mem_modify h
  · exact ⟨v, hv, hf.name v, hf.home v⟩
  · exact namedIn_self hv

lemma shDeluser_users {a : CStr} (h : u ∈ (shDeluser db a).2.users) : NamedIn db.users u := by
  unfold shDeluser at h
  split at h
  · exact namedIn_self h
  split at h
  · exact namedIn_self h
  split at h
  · exact namedIn_self h
  unfold deluser at h
  split at h
  · split at h
    · exact namedIn_self h
    · exact namedIn_modify keepsUser_off h
  · exact namedIn_self h

lemma cmdPasswd_users {keys : List Nat} (h : u ∈ (cmdPasswd db n keys).2.users) : NamedIn db.users u := by
  unfold cmdPasswd at h
  split at h
  · exact namedIn_self h
  simp only at h
  split at h
  · exact namedIn_self h
  · exact namedIn_modify (keepsUser_pass _) h

lemma adduserDb_users (h : u ∈ (adduserDb db n).2.users) :
    NamedIn db.users u ∨ u.name = storedUserName n ∧ u.home = homeOf n := by
  unfold adduserDb at h
  split at h
  · exact .inl (namedIn_self h)
  split at h
  · exact .inl (namedIn_self h)
  split at h
  · exact .inl (namedIn_self h)
  · rcases mem_append.mp h with h | h
    · exact .inl (namedIn_self h)
    · rw [mem_singleton.mp h]
      exact .inr ⟨rfl, rfl⟩

lemma cmdUsermod_users (db : UserDb) (a : CStr) : (cmdUsermod db a).2.users = db.users := by
  rcases cmdUsermod_cases db a with heq | ⟨ui, gidx, -, -, -, heq⟩ <;> rw [heq]

lemma cmdGroupadd_users (db : UserDb) (n : CStr) : (cmdGroupadd db n).2.users = db.users := by
  unfold cmdGroupadd
  split
  · rfl
  split <;> rfl

/-! ## What breaks the invariant -/

lemma length_storedUserName (h : ¬ n.length < 32) : 32 ≤ (storedUserName n).length := by
  unfold storedUserName
  rw [if_neg h, length_append, length_take]
  omega

lemma length_storedGroupName (h : ¬ n.length < 32) (ng : Nat) : 32 ≤ (storedGroupName n ng).length := by
  unfold storedGroupName
  rw [if_neg h, length_append, length_take]
  omega

lemma userStep_breaks (hc : ¬ Admissible db c) : ¬ DbInv (userStep db c).2 := by
  intro hinv
  cases c with
  | adduser n =>
    simp only [Admissible, Classical.not_imp] at hc
    obtain ⟨⟨hnone, hlt⟩, hlong⟩ := hc
    have hne : n ≠ [] := by
      rintro rfl
      exact hlong (by decide)
    have heq : (userStep db (.adduser n)).2.users = db.users ++ [newUser n db.users.length] := by
      show (adduserDb db n).2.users = _
      unfold adduserDb
      rw [if_neg hne, hnone, if_neg (by simp), if_neg (Nat.not_le_of_lt hlt)]
    have hname := hinv.name_lt (newUser n db.users.length) (by rw [heq]; simp)
    exact Nat.not_le_of_lt hname (length_storedUserName hlong)
  | deluser a => exact hc trivial
  | usermod a =>
    simp only [Admissible, Classical.not_imp, not_forall, not_not] at hc
    obtain ⟨hflag, ui, gidx, g, hui, hgidx, hg, hmem⟩ := hc
    have hne : a ≠ [] := by
      rintro rfl
      exact absurd hflag (by decide)
    have heq : (userStep db (.usermod a)).2.groups =
        db.groups.modify gidx (fun x => { x with mem := x.mem ++ [ui] }) := by
      show (cmdUsermod db a).2.groups = _
      unfold cmdUsermod
      rw [if_neg hne, if_pos hflag]
      simp only [hui, hgidx]
    have hin : ({ g with mem := g.mem ++ [ui] } : Group) ∈ (userStep db (.usermod a)).2.groups := by
      rw [heq]
      refine mem_of_getElem? (i := gidx) ?_
      rw [getElem?_modify, hg]
      simp
    have hnodup := nodup_append.mp (hinv.mem_nodup _ hin)
    exact hnodup.2.2 ui hmem ui (mem_singleton_self ui) rfl
  | groupadd n =>
    simp only [Admissible, Classical.not_imp] at hc
    obtain ⟨hlt, hlong⟩ := hc
    have hne : n ≠ [] := by
      rintro rfl
      exact hlong (by decide)
    have heq : (userStep db (.groupadd n)).2.groups =
        db.groups ++ [⟨storedGroupName n db.groups.length, 200 + db.groups.length, []⟩] := by
      show (cmdGroupadd db n).2.groups = _
      unfold cmdGroupadd
      rw [if_neg hne, if_neg (Nat.not_le_of_lt hlt)]
    have hname := hinv.groupName_lt ⟨storedGroupName n db.groups.length, 200 + db.groups.length, []⟩
      (by rw [heq]; simp)
    exact Nat.not_le_of_lt hname (length_storedGroupName hlong _)
  | passwd n keys => exact hc trivial

/-- **When the user database keeps its invariant.** It holds after every command of a session
exactly when no command stores a name of 32 bytes or more, and no `usermod` adds a user to a group
that lists them. -/
theorem userDb_invariant_iff (cs : List UserCmd) :
    DbInv initialUsers ∧ ((∀ e ∈ Machine.events userStep initialUsers cs, DbInv e.after) ↔
      ∀ e ∈ Machine.events userStep initialUsers cs, Admissible e.before e.input) := by
  refine ⟨dbWf_initial.inv, ?_⟩
  exact Machine.events_invariant_iff DbInv (fun _ => DbWf.inv) (fun _ _ hwf hok => userStep_wf hwf hok)
    (fun _ _ _ hbad => userStep_breaks hbad) dbWf_initial cs

/-- `root` is a member of `wheel` from the start; adding them once more lists them twice. -/
theorem usermod_lists_root_twice :
    (userStep initialUsers (.usermod (cstr "-G wheel root"))).1 = .usermod (.added (cstr "root") (cstr "wheel")) ∧
    ((userStep initialUsers (.usermod (cstr "-G wheel root"))).2.groups[1]?).map (·.mem) = some [0, 0] ∧
    ¬ DbInv (userStep initialUsers (.usermod (cstr "-G wheel root"))).2 := by
  refine ⟨by decide +kernel, by decide +kernel, userStep_breaks ?_⟩
  intro h
  exact h (by decide) 0 1 ⟨cstr "wheel", 1, [0]⟩ (by decide +kernel) (by decide +kernel) rfl (by decide)

/-! ## Accounts over time -/

/-- `v` is the account of `u` later on, with another password or without its flag. -/
structure Later (u v : User) : Prop where
  name : v.name = u.name
  uid : v.uid = u.uid
  home : v.home = u.home
  active : v.active = true → u.active = true

lemma later_modify (hf : KeepsUser f) (h : us[i]? = some u) : ∃ v, (us.modify j f)[i]? = some v ∧ Later u v := by
  rw [getElem?_modify, h]
  split
  · exact ⟨f u, rfl, hf.name u, hf.uid u, hf.home u, hf.active u⟩
  · exact ⟨u, rfl, rfl, rfl, rfl, id⟩

/-- The step lemma: no command gives a slot to someone else. -/
lemma userStep_later (c : UserCmd) (h : db.users[i]? = some u) :
    ∃ v, (userStep db c).2.users[i]? = some v ∧ Later u v := by
  have hsame : ∃ v, db.users[i]? = some v ∧ Later u v := ⟨u, h, rfl, rfl, rfl, id⟩
  cases c with
  | adduser n =>
    simp only [userStep, adduserDb]
    split_ifs
    · exact hsame
    · exact hsame
    · exact hsame
    · exact ⟨u, (getElem?_append_left (List.getElem?_eq_some_iff.mp h).1).trans h, rfl, rfl, rfl, id⟩
  | deluser a =>
    simp only [userStep, shDeluser, deluser]
    split_ifs
    · exact hsame
    · exact hsame
    · exact hsame
    · split
      · exact later_modify keepsUser_off h
      · exact hsame
  | usermod a => exact (cmdUsermod_users db a).symm ▸ hsame
  | groupadd n => exact (cmdGroupadd_users db n).symm ▸ hsame
  | passwd n keys =>
    simp only [userStep, cmdPasswd]
    split
    · exact hsame
    · split_ifs
      · exact hsame
      · exact later_modify (keepsUser_pass _) h

lemma DbWf.ufind_eq (h : DbWf db) (hi : db.users[i]? = some u) (ha : u.active = true) : ufind db u.name = some i := by
  cases hfind : ufind db u.name with
  | none => exact absurd rfl (ufind_eq_none hfind u (mem_of_getElem? hi) ha)
  | some j =>
    obtain ⟨hj, hp, -⟩ := findIdx?_eq_some_iff_getElem.mp hfind
    rw [Bool.and_eq_true, decide_eq_true_iff, ksc_eq_zero] at hp
    rw [h.names j i _ u (getElem?_eq_getElem hj) hi hp.1 ha hp.2]

/-- **Accounts are permanent**: a slot keeps its name, uid and home directory, and is found by its
name until it is deleted; it is not revived. -/
theorem accounts_permanent {cs : List UserCmd} {db : UserDb} {i : Nat} {u : User} (hdb : DbWf db)
    (hcs : ∀ e ∈ Machine.events userStep db cs, Admissible e.before e.input) (h : db.users[i]? = some u) :
    ∃ v, (Machine.exec userStep db cs).users[i]? = some v ∧ Later u v ∧
      (v.active = true → ufind (Machine.exec userStep db cs) u.name = some i) := by
  have hwf : DbWf (Machine.exec userStep db cs) := Machine.exec_of_events DbWf hdb fun e he =>
    (Machine.events_invariant DbWf (fun _ _ hw hok => userStep_wf hw hok) hdb hcs e he).2
  have hlater : ∃ v, (Machine.exec userStep db cs).users[i]? = some v ∧ Later u v := by
    refine Machine.exec_invariant (fun db : UserDb => ∃ v, db.users[i]? = some v ∧ Later u v) ?_ ⟨u,
      h, rfl, rfl, rfl, id⟩ cs
    rintro db c ⟨v, hv, hlater⟩
    obtain ⟨v', hv', hnext⟩ := userStep_later c hv
    exact ⟨v', hv', hnext.name.trans hlater.name, hnext.uid.trans hlater.uid, hnext.home.trans hlater.home,
      fun ha => hlater.active (hnext.active ha)⟩
  obtain ⟨v, hv, hlater⟩ := hlater
  exact ⟨v, hv, hlater, fun ha => hlater.name ▸ hwf.ufind_eq hv ha⟩

/-- `pig` gets a password, is deleted and added anew. The old slot stays, switched off. -/
theorem accounts_permanent_pig :
    let db := Machine.exec userStep initialUsers [.adduser (cstr "pig")]
    let changed := Machine.exec userStep db [.passwd (cstr "pig") [111, 105, 110, 107, 13]]
    let anew := Machine.exec userStep changed [.deluser (cstr "pig"), .adduser (cstr "pig")]
    ∃ u v w, db.users[1]? = some u ∧ changed.users[1]? = some v ∧ anew.users[1]? = some w ∧
      Later u v ∧ v.pass = cstr "oink" ∧ ufind changed (cstr "pig") = some 1 ∧
      Later v w ∧ w.active = false ∧ ufind anew (cstr "pig") = some 2 := by
  intro db changed anew
  have hdb : DbWf db := userStep_wf (c := .adduser (cstr "pig")) dbWf_initial (fun _ => by decide)
  have hchanged : DbWf changed := userStep_wf (c := .passwd (cstr "pig") [111, 105, 110, 107, 13]) hdb trivial
  have hpasswd : ∀ e ∈ Machine.events userStep db [.passwd (cstr "pig") [111, 105, 110, 107, 13]],
      Admissible e.before e.input := by simp [Machine.events, Admissible]
  have hanew : ∀ e ∈ Machine.events userStep changed [.deluser (cstr "pig"), .adduser (cstr "pig")],
      Admissible e.before e.input := by
    simp [Machine.events, Admissible]
    decide
  obtain ⟨v, hv, huv, hfound⟩ := accounts_permanent (i := 1) hdb hpasswd rfl
  obtain ⟨w, hw, hvw, -⟩ := accounts_permanent (i := 1) hchanged hanew hv
  obtain rfl : _ = v := Option.some.inj ((show changed.users[1]? = some _ from rfl).symm.trans hv)
  obtain rfl : _ = w := Option.some.inj ((show anew.users[1]? = some _ from rfl).symm.trans hw)
  exact ⟨_, _, _, rfl, rfl, rfl, huv, rfl, hfound rfl, hvw, rfl, rfl⟩

/-! ## `adduser` with its files -/

/-- For a name that fits, the database part of `adduser` is the one its file-system model has. -/
lemma cmdAdduser_eq (db : UserDb) (fs : Pigfs) (n : UserName) :
    ((cmdAdduser db fs n).1, (cmdAdduser db fs n).2.1) = adduserDb db n.val := by
  unfold cmdAdduser adduserDb
  split
  · rfl
  split
  · rfl
  split
  · rfl
  show (_, (⟨db.users ++ [_], _⟩ : UserDb)) = (_, ⟨db.users ++ [newUser n.val db.users.length], _⟩)
  rw [newUser_of_lt n.property]
  rfl

end PigOS.Kernel
