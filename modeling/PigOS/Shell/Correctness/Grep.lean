import PigOS.Kernel.Correctness.Numbers
import PigOS.Lib.LineScan
import PigOS.Shell.Grep

/-!
# `Shell.Correctness.Grep` — the lines that `grep` prints

The two inner loops find the pattern in a line exactly when the line contains it
(`grepMatches_iff`). The outer one, by induction on what is left of the text, prints those lines of
the rest, numbered on from where the loop stands (`grepLines_eq`).
-/

namespace PigOS.Shell

open Kernel LineScan List

variable {k n : Nat} {text : CStr} {g : GrepArgs}

lemma length_kiaNat_lt (h : n < 10 ^ 7) : (kiaNat n).length < numberBuf := by
  rw [kiaNat_eq, length_map]
  exact Nat.lt_succ_of_le ((Nat.length_toDigits_le_iff (by decide) (by decide)).mpr h)

/-! ## A line -/

/-- A byte as `grep` compares it. -/
def folded (g : GrepArgs) (c : CChar) : UInt8 := if g.icase then lowerByte c.val else c.val

/-- The line contains the pattern. -/
def Contains (g : GrepArgs) (line : CStr) : Prop := g.pat.map (folded g) <:+: line.map (folded g)

instance (g : GrepArgs) (line : CStr) : Decidable (Contains g line) := inferInstanceAs (Decidable (_ <:+: _))

lemma getD_map_val {w : CStr} {i : Nat} (h : i < w.length) : (w.map Subtype.val).getD i 0 = w[i].val := by
  rw [getD_eq_getElem?_getD, getElem?_map, getElem?_eq_getElem h]
  rfl

lemma grepMatches_iff (g : GrepArgs) (line : CStr) : grepMatches g (line.map Subtype.val) = true ↔ Contains g line := by
  -- what the innermost loop compares
  have hbyte : ∀ a b : CChar,
      (if g.icase = true then decide (lowerByte a.val = lowerByte b.val) else decide (a.val = b.val)) = true ↔
        folded g a = folded g b := by
    intro a b
    unfold folded
    split
    · exact decide_eq_true_iff
    · exact decide_eq_true_iff
  unfold grepMatches Contains
  simp only [any_eq_true, mem_range, decide_eq_true_eq, all_eq_true, length_map,
    infix_iff_getElem?]
  constructor
  · rintro ⟨i, -, hle, hall⟩
    refine ⟨i, by omega, fun j hj => ?_⟩
    have hj' := hall j hj
    rw [getD_map_val (show i + j < line.length by omega), getD_map_val hj, hbyte] at hj'
    rw [getElem?_map, getElem?_eq_getElem (show j + i < line.length by omega), getElem_map]
    simp only [Nat.add_comm j i, Option.map_some, hj']
  · rintro ⟨i, hle, hall⟩
    refine ⟨i, by omega, by omega, fun j hj => ?_⟩
    have hj' := hall j hj
    rw [getElem?_map, getElem?_eq_getElem (show j + i < line.length by omega), getElem_map] at hj'
    rw [getD_map_val (show i + j < line.length by omega), getD_map_val hj, hbyte]
    simpa only [Nat.add_comm j i, Option.map_some, Option.some.injEq] using hj'

/-! ## The lines of a text -/

/-- The lines of a text, with their numbers. -/
def numbered (text : CStr) (first : Nat) :
    List (CStr × Nat) := (segments (fun c => decide (c = newline)) text).zipIdx first

/-- The lines that contain the pattern. -/
def hits (g : GrepArgs) (text : CStr) (first : Nat) : List (CStr × Nat) :=
  (numbered text first).filter fun l => decide (Contains g l.1)

/-- What is printed for them. -/
def hitsText (g : GrepArgs) (fname : CStr) (ls : List (CStr × Nat)) : List Emission :=
  ls.flatMap fun l => grepHit g fname l.1 l.2

lemma takeWhile_newline_ne (text : CStr) : ∀ c ∈ text.takeWhile (· ≠ newline), decide (c = newline) = false := by
  intro c hc
  have hall := all_eq_true.mp all_takeWhile c hc
  simpa using hall

/-- The first line of a text that is not empty, and what the loop goes on with. -/
lemma numbered_eq_cons (h : text ≠ []) (first : Nat) : numbered text first = (text.takeWhile (· ≠ newline), first) ::
      numbered (text.drop ((text.takeWhile (· ≠ newline)).length + 1)) (first + 1) := by
  have hline := takeWhile_newline_ne text
  have hsplit : text.takeWhile (· ≠ newline) ++ text.dropWhile (· ≠ newline) = text := takeWhile_append_dropWhile
  unfold numbered
  generalize text.takeWhile (· ≠ newline) = line at hline hsplit ⊢
  cases hrest : text.dropWhile (· ≠ newline) with
  | nil =>
    rw [hrest, append_nil] at hsplit
    subst hsplit
    rw [segments_of_forall hline h, drop_of_length_le (Nat.le_succ _)]
    rfl
  | cons c rest =>
    have hc : c = newline := by
      have hhead := head?_dropWhile_not (fun c => decide (c ≠ newline)) text
      rw [hrest] at hhead
      simpa using hhead
    rw [hrest] at hsplit
    subst hsplit
    rw [segments_append_cons hline (decide_eq_true hc), zipIdx_cons]
    rw [drop_append, drop_of_length_le (Nat.le_succ _), Nat.add_sub_cancel_left]
    rfl

lemma hits_eq (h : text ≠ []) (first : Nat) : hits g text first =
      (if Contains g (text.takeWhile (· ≠ newline)) then [(text.takeWhile (· ≠ newline), first)] else []) ++
        hits g (text.drop ((text.takeWhile (· ≠ newline)).length + 1)) (first + 1) := by
  rw [hits, numbered_eq_cons h, filter_cons]
  by_cases hmatch : Contains g (text.takeWhile (· ≠ newline))
  · rw [if_pos hmatch, if_pos (decide_eq_true hmatch)]
    rfl
  · rw [if_neg hmatch, if_neg (by simpa using hmatch)]
    rfl

/-- The loop, from a line on: the numbers stay below a bound that fits their array. -/
lemma grepLines_eq (fname : CStr) (text : CStr) (lineno : Nat)
    (hk : text.length < k) (hbound : lineno + text.length < 10 ^ 7) (found : Nat) :
    grepLines g fname k text lineno found =
      some (hitsText g fname (hits g text (lineno + 1)), found + (hits g text (lineno + 1)).length) := by
  induction k generalizing text lineno found with
  | zero => omega
  | succ k ih =>
    rw [grepLines]
    by_cases hnil : text = []
    · subst hnil
      rw [if_pos rfl]
      rfl
    · have hpos := length_pos_of_ne_nil hnil
      have hdrop : (text.drop ((text.takeWhile (· ≠ newline)).length + 1)).length ≤ text.length - 1 := by
        rw [length_drop]
        omega
      have hfits : ¬(g.list = false ∧ g.linenum = true ∧ numberBuf ≤ (kiaNat (lineno + 1)).length) := by
        rintro ⟨-, -, hlong⟩
        have hshort := length_kiaNat_lt (n := lineno + 1) (by omega)
        omega
      have hrest := fun found => ih (text.drop ((text.takeWhile (· ≠ newline)).length + 1))
        (lineno + 1) (by omega) (by omega) found
      rw [if_neg hnil, hits_eq hnil]
      dsimp only
      rw [grepLine]
      by_cases hmatch : Contains g (text.takeWhile (· ≠ newline))
      · rw [if_pos ((grepMatches_iff g _).mpr hmatch), if_neg hfits, if_pos hmatch]
        dsimp only
        rw [hrest, Option.map_some, length_append, length_singleton, Nat.add_assoc found]
        rfl
      · rw [if_neg fun hc => hmatch ((grepMatches_iff g _).mp hc), if_neg hmatch]
        dsimp only
        rw [hrest]
        rfl

/-- **`grep` prints the matching lines**, in order and each once, with the name of the file and
under `-n` the line's number before them, and `grep_found` grows by their number. -/
theorem grepContent_prints_hits {g : GrepArgs} (hlist : g.list = false) (fname : CStr) {content : CStr}
    (hlen : content.length ≤ 4095) (found : Nat) :
    grepContent g fname content found =
      some (((numbered content 1).filter fun l => decide (Contains g l.1)).flatMap (fun l =>
          (if fname ≠ [] then [.vps fname, .vps (cstr ":")] else []) ++
          (if g.linenum then [.vps ((Nat.toDigits 10 l.2).map chr), .vps (cstr ":")] else []) ++
          (l.1.map .vpc ++ [.vpc newline])),
        found + ((numbered content 1).filter fun l => decide (Contains g l.1)).length) := by
  have hrun := grepLines_eq (g := g) fname (k := content.length + 1) content 0 (by omega)
    (by omega) found
  unfold grepContent
  rw [hrun]
  simp only [hits, hitsText, grepHit, hlist, kiaNat_eq, Bool.false_eq_true, if_false]

/-- Three lines, the second of them empty, the last without an end. -/
theorem grepContent_prints_pig :
    grepContent ⟨true, false, true, cstr "ig", []⟩ (cstr "/sty") (cstr "A pIG\n\nbig") 0 =
      some ([.vps (cstr "/sty"), .vps (cstr ":"), .vps (cstr "1"), .vps (cstr ":")] ++ (cstr "A pIG").map .vpc ++
        [.vpc newline, .vps (cstr "/sty"), .vps (cstr ":"), .vps (cstr "3"), .vps (cstr ":")] ++
        (cstr "big").map .vpc ++ [.vpc newline], 2) := by
  rw [grepContent_prints_hits rfl (cstr "/sty") (by decide) 0]
  decide

end PigOS.Shell
