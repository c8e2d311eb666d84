import Mathlib.Data.List.Nodup

/-!
# `Lib.Enumeration` — listing a set, each element once

`Enumerates.append_iff` says what it takes of two tables that are printed one behind the other.
-/

namespace Enumeration

open List

variable {α β : Type*}

/-- `l` shows the elements of `S`, each of them once. -/
structure Enumerates (l : List α) (S : α → Prop) : Prop where
  nodup : l.Nodup
  mem : ∀ a, a ∈ l ↔ S a

variable {S : α → Prop}

lemma not_enumerates_nil {a : α} (ha : S a) : ¬Enumerates [] S := by
  intro h
  exact not_mem_nil ((h.mem a).mpr ha)

lemma Enumerates.append_iff {l₁ l₂ : List α} {T₁ T₂ : α → Prop} (h₁ : Enumerates l₁ T₁) (h₂ : ∀ a, a ∈ l₂ ↔ T₂ a) :
    Enumerates (l₁ ++ l₂) S ↔ l₂.Nodup ∧ (∀ a, T₁ a → ¬T₂ a) ∧ ∀ a, S a ↔ T₁ a ∨ T₂ a := by
  constructor
  · intro h
    obtain ⟨-, hnodup, hdisj⟩ := nodup_append'.mp h.nodup
    refine ⟨hnodup, ?_, ?_⟩
    · intro a ha₁ ha₂
      exact hdisj ((h₁.mem a).mpr ha₁) ((h₂ a).mpr ha₂)
    · intro a
      rw [← h.mem a, mem_append, h₁.mem a, h₂ a]
  · rintro ⟨hnodup, hdisj, hmem⟩
    refine ⟨nodup_append'.mpr ⟨h₁.nodup, hnodup, ?_⟩, ?_⟩
    · intro a ha₁ ha₂
      exact hdisj a ((h₁.mem a).mp ha₁) ((h₂ a).mp ha₂)
    · intro a
      rw [hmem a, mem_append, h₁.mem a, h₂ a]

variable {l : List α} {f : α → β}

/-- A listing by another text for each element. -/
lemma enumerates_map_iff (hf : Function.Injective f) :
    Enumerates (l.map f) (fun b => ∃ a, S a ∧ f a = b) ↔ Enumerates l S := by
  constructor
  · intro h
    refine ⟨h.nodup.of_map f, ?_⟩
    intro a
    rw [← mem_map_of_injective hf, h.mem]
    constructor
    · rintro ⟨a', ha', heq⟩
      rw [← hf heq]
      exact ha'
    · intro ha
      exact ⟨a, ha, rfl⟩
  · intro h
    refine ⟨h.nodup.map hf, ?_⟩
    intro b
    rw [mem_map]
    exact exists_congr fun a => and_congr_left fun _ => h.mem a

/-- The elements of a table that pass a test, when no two of them have one key. -/
lemma enumerates_filter (hl : (l.map f).Nodup) (p : α → Bool) :
    Enumerates ((l.filter p).map f) (fun b => ∃ a ∈ l, p a = true ∧ f a = b) := by
  refine ⟨(filter_sublist.map f).nodup hl, ?_⟩
  intro b
  rw [mem_map]
  constructor
  · rintro ⟨a, ha, hab⟩
    obtain ⟨hmem, hp⟩ := mem_filter.mp ha
    exact ⟨a, hmem, hp, hab⟩
  · rintro ⟨a, hmem, hp, hab⟩
    exact ⟨a, mem_filter.mpr ⟨hmem, hp⟩, hab⟩

/-- A pass over a table shows nothing twice when no two places of the table give one element. -/
lemma nodup_filterMap_iff {f : α → Option β} :
    (l.filterMap f).Nodup ↔ ∀ (i j : Nat) (a a' : α) (b : β), l[i]? = some a → l[j]? = some a' → f a = some b →
      f a' = some b → i = j := by
  unfold List.Nodup
  rw [pairwise_filterMap, pairwise_iff_getElem]
  constructor
  · intro h i j a a' b hi hj ha ha'
    obtain ⟨hil, rfl⟩ := List.getElem?_eq_some_iff.mp hi
    obtain ⟨hjl, rfl⟩ := List.getElem?_eq_some_iff.mp hj
    rcases Nat.lt_trichotomy i j with hlt | heq | hgt
    · exact absurd rfl (h i j hil hjl hlt b ha b ha')
    · exact heq
    · exact absurd rfl (h j i hjl hil hgt b ha' b ha)
  · intro h i j hi hj hlt b hb b' hb' heq
    have := h i j _ _ b (getElem?_eq_getElem hi) (getElem?_eq_getElem hj) hb (heq ▸ hb')
    omega

end Enumeration
