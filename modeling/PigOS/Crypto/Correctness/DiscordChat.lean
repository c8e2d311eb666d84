import PigOS.Crypto.Correctness.DiscordLists
import PigOS.Crypto.DiscordChat

/-!
# `Crypto.Correctness.DiscordChat` — how many messages the chat screen lists

The parser of a response stops at the last record of `disc_messages`; the key Enter does not. The
bounds hold along a run exactly when no line is sent while the list is full and no response has a
text that reaches behind the array (`chat_bounded_iff`).
-/

namespace PigOS.Crypto

open Kernel Records Shell Machine List

/-- The message that is shown first leaves no line of the screen empty, if there are enough. -/
def Chat.Scrolled (s : Chat) : Prop := 0 ≤ s.msgScroll ∧ s.msgScroll ≤ max 0 (s.nmessages - (vgaH - 4))

/-- The bounds of the list: the number of messages, the cells that were written, and what is shown
first. -/
structure Chat.Bounded (s : Chat) : Prop where
  count : s.nmessages ≤ discMaxMessages
  written : s.messages.top ≤ discMaxMessages * messageSize
  scrolled : s.Scrolled

section Response

variable {ν : Type} (acc : Accessors ν)

/-- No text of the response reaches behind the last record. -/
def InsideMessages (root : ν) : Prop :=
  acc.type root = .array → ∀ (i : Nat) (row : Row UInt8), i < min (acc.arrayLen root) discMaxMessages →
    elementRow acc (messageRow acc) root i = some row → ∀ p ∈ row, ∀ xs, p.2 = some xs →
      i * messageSize + p.1.off + xs.length ≤ discMaxMessages * messageSize

/-- A line is sent only while there is a record for it, and a response that is parsed stays
inside. -/
def Admissible (s : Chat) : ChatInput ν → Prop
  | .start resp => s.mode = .closed → ∀ root, resp = some root → InsideMessages acc root
  | .key c => s.mode = .open → (c = 10 ∨ c = 13) → 0 < s.inputLen → s.nmessages < discMaxMessages
  | .poll resp => s.mode ≠ .closed → 500000 < s.pollCount + 1 → ∀ root, resp = some root → InsideMessages acc root

/-! ## Responses -/

lemma messageRow_ne_nil {g : ν} {p : Field × Option (List UInt8)} (hp : p ∈ messageRow acc g) {xs : List UInt8}
    (hxs : p.2 = some xs) : xs ≠ [] := by
  have htext : p.1.text = true := by
    rw [messageRow] at hp
    simp only [mem_cons, not_mem_nil, or_false] at hp
    rcases hp with rfl | rfl | rfl | rfl <;> rfl
  have htakes := (messageRow_for acc g).takes p hp xs hxs
  rw [Field.Takes, if_pos htext] at htakes
  exact ne_nil_of_mem htakes

lemma discParseMessages_count_le (root : ν) (b : Buffer UInt8) :
    (discParseMessages acc root b).1 ≤ discMaxMessages := by
  rw [discParseMessages, parseList]
  split
  · exact Nat.zero_le _
  · refine Nat.le_trans (length_filterMap_le _ _) ?_
    rw [length_map, length_range]
    exact Nat.min_le_right _ _

lemma discParseMessages_top_le_iff (root : ν) (b : Buffer UInt8) (hb : b.top ≤ discMaxMessages * messageSize) :
    (discParseMessages acc root b).2.top ≤ discMaxMessages * messageSize ↔ InsideMessages acc root := by
  rw [discParseMessages, parseList, InsideMessages]
  by_cases harr : acc.type root = .array
  · have hrows : ∀ row, some row ∈ (range (min (acc.arrayLen root) discMaxMessages)).map
        (elementRow acc (messageRow acc) root) → ∀ p ∈ row, ∀ xs, p.2 = some xs → xs ≠ [] := by
      intro row hrow p hp xs hxs
      obtain ⟨i, -, hi⟩ := mem_map.mp hrow
      obtain ⟨g, -, hg⟩ := Option.bind_eq_some_iff.mp hi
      split at hg
      · rw [← Option.some.inj hg] at hp
        exact messageRow_ne_nil acc hp hxs
      · cases hg
    rw [if_neg (fun h => h harr), top_fillAll_le_iff hrows]
    simp only [hb, harr, true_and, forall_const, Nat.zero_add]
    refine forall_congr' fun i => forall_congr' fun row => ?_
    rw [Cells.getElem?_map_range]
    by_cases hi : i < min (acc.arrayLen root) discMaxMessages
    · rw [if_pos hi, Option.some.injEq]
      exact ⟨fun h _ => h, fun h => h hi⟩
    · rw [if_neg hi]
      exact ⟨fun _ h => absurd h hi, fun _ h => absurd h (by simp)⟩
  · rw [if_pos harr]
    exact ⟨fun _ h => absurd h harr, fun _ => hb⟩

end Response

variable {ν : Type}

namespace Chat

variable {s t : Chat}

lemma scrolled_scrollToEnd (s : Chat) : s.scrollToEnd.Scrolled := by
  show (0 ≤ if (s.nmessages : Int) - (vgaH - 4) < 0 then 0 else (s.nmessages : Int) - (vgaH - 4)) ∧
    (if (s.nmessages : Int) - (vgaH - 4) < 0 then 0 else (s.nmessages : Int) - (vgaH - 4)) ≤
      max 0 ((s.nmessages : Int) - (vgaH - 4))
  split <;> omega

lemma Scrolled.congr (h : s.Scrolled) (hn : t.nmessages = s.nmessages)
    (hs : t.msgScroll = s.msgScroll) : t.Scrolled := by
  rw [Scrolled, hn, hs]
  exact h

lemma Bounded.congr (h : s.Bounded) (hm : t.messages = s.messages) (hn : t.nmessages = s.nmessages)
    (hs : t.msgScroll = s.msgScroll) : t.Bounded where
  count := hn ▸ h.count
  written := hm ▸ h.written
  scrolled := h.scrolled.congr hn hs

/-- After a jump to the end of the list, the bounds are those of the list. -/
lemma bounded_scrollToEnd_iff (s : Chat) :
    s.scrollToEnd.Bounded ↔ s.nmessages ≤ discMaxMessages ∧ s.messages.top ≤ discMaxMessages * messageSize :=
  ⟨fun h => ⟨h.count, h.written⟩, fun h => ⟨h.1, h.2, s.scrolled_scrollToEnd⟩⟩

lemma bounded_getMessages_iff (acc : Accessors ν) (h : s.Bounded) (resp : Option ν) :
    (s.getMessages acc resp).Bounded ↔ ∀ root, resp = some root → InsideMessages acc root := by
  cases resp with
  | none => exact ⟨fun _ root hroot => absurd hroot (by simp), fun _ => h⟩
  | some root =>
    rw [getMessages]
    rw [bounded_scrollToEnd_iff]
    show (discParseMessages acc root s.messages).1 ≤ discMaxMessages ∧
      (discParseMessages acc root s.messages).2.top ≤ _ ↔ _
    rw [discParseMessages_top_le_iff acc root _ h.written]
    constructor
    · rintro ⟨-, hin⟩ root' ⟨⟩
      exact hin
    · exact fun hin => ⟨discParseMessages_count_le acc root _, hin root rfl⟩

/-! ## Keys -/

lemma length_line_le (s : Chat) : s.line.length ≤ 256 := Cells.length_textAt_le 0 _ 256 0

/-- The record behind the last message is written, and it is inside if there is one. -/
lemma bounded_send_iff (h : s.Bounded) : s.send.Bounded ↔ s.nmessages < discMaxMessages := by
  rw [send]
  rw [bounded_scrollToEnd_iff]
  refine ⟨fun h => h.1, fun hlt => ⟨hlt, ?_⟩⟩
  have hwritten := h.written
  have hline := s.length_line_le
  have hyou : ((cstr "You").map Subtype.val ++ [0]).length = 4 := by decide
  rw [discMaxMessages] at hlt
  rw [discMaxMessages, messageSize] at hwritten
  rw [Buffer.top_writeAll_le_iff _ _ (by simp), Buffer.top_writeAll_le_iff _ _ (by simp), hyou, length_append,
    length_map, length_singleton, discMaxMessages, messageSize]
  omega

/-- Every other key leaves the messages, and moves the first one that is shown by one at most. -/
structure Moves (s t : Chat) : Prop where
  messages : t.messages = s.messages
  nmessages : t.nmessages = s.nmessages
  msgScroll : t.msgScroll = s.msgScroll ∨ (0 < s.msgScroll ∧ t.msgScroll = s.msgScroll - 1) ∨
    (s.msgScroll < s.nmessages - (vgaH - 4) ∧ t.msgScroll = s.msgScroll + 1)

lemma moves_of_line (hm : t.messages = s.messages) (hn : t.nmessages = s.nmessages) (hs : t.msgScroll = s.msgScroll) :
    Moves s t := ⟨hm, hn, Or.inl hs⟩

lemma key_moves (s : Chat) {c : Int} (hc : ¬(c = 10 ∨ c = 13)) : Moves s (s.key c) := by
  rw [key]
  by_cases hesc : c = 27
  · rw [if_pos hesc]
    exact moves_of_line rfl rfl rfl
  by_cases hup : c = keyUp
  · rw [if_neg hesc, if_pos hup]
    split
    next hpos => exact ⟨rfl, rfl, Or.inr (Or.inl ⟨hpos, rfl⟩)⟩
    next => exact moves_of_line rfl rfl rfl
  by_cases hdown : c = keyDown
  · rw [if_neg hesc, if_neg hup, if_pos hdown]
    split
    next hlt => exact ⟨rfl, rfl, Or.inr (Or.inr ⟨hlt, rfl⟩)⟩
    next => exact moves_of_line rfl rfl rfl
  rw [if_neg hesc, if_neg hup, if_neg hdown, if_neg hc]
  -- the keys that are left change the line and the cursor only
  by_cases hleft : c = keyLeft
  · rw [if_pos hleft]
    split <;> exact moves_of_line rfl rfl rfl
  by_cases hright : c = keyRight
  · rw [if_neg hleft, if_pos hright]
    split <;> exact moves_of_line rfl rfl rfl
  rw [if_neg hleft, if_neg hright]
  by_cases hback : c = 8 ∨ c = 127
  · rw [if_pos hback]
    split <;> exact moves_of_line rfl rfl rfl
  rw [if_neg hback]
  split <;> exact moves_of_line rfl rfl rfl

lemma Moves.scrolled (hmove : Moves s t) (h : s.Scrolled) : t.Scrolled := by
  rw [Scrolled, hmove.nmessages]
  rcases hmove.msgScroll with hs | ⟨hpos, hs⟩ | ⟨hlt, hs⟩
  · rw [hs]
    exact h
  · rw [hs]
    exact ⟨by omega, Int.le_trans (Int.sub_le_self _ (by decide)) h.2⟩
  · rw [hs]
    have hnonneg := h.1
    omega

lemma Moves.bounded (hmove : Moves s t) (h : s.Bounded) : t.Bounded where
  count := hmove.nmessages ▸ h.count
  written := hmove.messages ▸ h.written
  scrolled := hmove.scrolled h.scrolled

lemma key_enter {c : Int} (hc : c = 10 ∨ c = 13) : s.key c = if 0 < s.inputLen then s.send else s := by
  rw [key, if_neg (by omega), if_neg (by unfold keyUp; omega), if_neg (by unfold keyDown; omega),
    if_neg (by unfold keyLeft; omega), if_neg (by unfold keyRight; omega), if_pos hc]

lemma bounded_key_iff (h : s.Bounded) (c : Int) :
    (s.key c).Bounded ↔ ((c = 10 ∨ c = 13) → 0 < s.inputLen → s.nmessages < discMaxMessages) := by
  by_cases hc : c = 10 ∨ c = 13
  · rw [key_enter hc]
    by_cases hlen : 0 < s.inputLen
    · rw [if_pos hlen, bounded_send_iff h]
      exact ⟨fun hlt _ _ => hlt, fun hlt => hlt hc hlen⟩
    · rw [if_neg hlen]
      exact ⟨fun _ _ hpos => absurd hpos hlen, fun _ => h⟩
  · exact ⟨fun _ hc' => absurd hc' hc, fun _ => (key_moves s hc).bounded h⟩

/-! ## Rounds -/

lemma bounded_refresh_iff (acc : Accessors ν) (h : s.Bounded) (resp : Option ν) :
    (s.refresh acc resp).Bounded ↔ (500000 < s.pollCount + 1 → ∀ root, resp = some root → InsideMessages acc root) := by
  rw [refresh]
  by_cases hdue : 500000 < s.pollCount + 1
  · have hreset : { s with pollCount := 0 }.Bounded := h.congr rfl rfl rfl
    rw [if_pos hdue, bounded_getMessages_iff acc hreset]
    exact ⟨fun hin _ => hin, fun hin => hin hdue⟩
  · rw [if_neg hdue]
    exact ⟨fun _ h => absurd h hdue, fun _ => h.congr rfl rfl rfl⟩

lemma bounded_poll_iff (acc : Accessors ν) (h : s.Bounded) (resp : Option ν) :
    (s.poll acc resp).Bounded ↔ (500000 < s.pollCount + 1 → ∀ root, resp = some root → InsideMessages acc root) := by
  rw [← bounded_refresh_iff acc h resp, poll]
  split
  · exact ⟨fun h => h.congr rfl rfl rfl, fun h => h.congr rfl rfl rfl⟩
  · exact Iff.rfl

end Chat

/-- **One input** keeps the bounds exactly when it is admissible. -/
theorem chatStep_bounded_iff {ν : Type} (acc : Accessors ν) {s : Chat} (h : s.Bounded) (i : ChatInput ν) :
    (chatStep acc s i).2.Bounded ↔ Admissible acc s i := by
  cases i with
  | start resp =>
    show (if s.mode = .closed then s.start acc resp else s).Bounded ↔ (s.mode = .closed → _)
    by_cases hmode : s.mode = .closed
    · rw [if_pos hmode]
      have hiff := Chat.bounded_getMessages_iff acc h resp
      exact ⟨fun hb _ => hiff.mp (hb.congr rfl rfl rfl), fun hin => (hiff.mpr (hin hmode)).congr rfl rfl rfl⟩
    · rw [if_neg hmode]
      exact ⟨fun _ hm => absurd hm hmode, fun _ => h⟩
  | key c =>
    show (if s.mode = .open then s.key c else s).Bounded ↔ (s.mode = .open → _)
    by_cases hmode : s.mode = .open
    · rw [if_pos hmode, Chat.bounded_key_iff h]
      exact ⟨fun hlt _ => hlt, fun hlt => hlt hmode⟩
    · rw [if_neg hmode]
      exact ⟨fun _ hm => absurd hm hmode, fun _ => h⟩
  | poll resp =>
    show (if s.mode = .closed then s else s.poll acc resp).Bounded ↔ (s.mode ≠ .closed → _)
    by_cases hmode : s.mode = .closed
    · rw [if_pos hmode]
      exact ⟨fun _ hm => absurd hmode hm, fun _ => h⟩
    · rw [if_neg hmode, Chat.bounded_poll_iff acc h]
      exact ⟨fun hin _ => hin, fun hin => hin hmode⟩

lemma bootChat_bounded : bootChat.Bounded := ⟨Nat.zero_le _, Nat.zero_le _, Int.le_refl 0, by decide⟩

/-- **The bounds of the list** hold all along a run exactly when every line is sent while fewer than
128 messages are listed, and no text of a response that is parsed reaches behind the array. -/
theorem chat_bounded_iff {ν : Type} (acc : Accessors ν) (inputs : List (ChatInput ν)) :
    (∀ e ∈ events (chatStep acc) bootChat inputs, e.after.Bounded) ↔
      ∀ e ∈ events (chatStep acc) bootChat inputs, Admissible acc e.before e.input :=
  events_invariant_iff Chat.Bounded (fun _ h => h) (fun _ i h hok => (chatStep_bounded_iff acc h i).mpr hok)
    (fun _ i h hbad hinv => hbad ((chatStep_bounded_iff acc h i).mp hinv)) bootChat_bounded inputs

/-! A line of one character, again and again. -/

lemma exec_send (acc : Accessors ν) {s : Chat} (hmode : s.mode = .open) (hlen : s.inputLen = 0) (n : Nat) :
    (exec (chatStep acc) s (replicate n [.key 97, .key 10]).flatten).nmessages = s.nmessages + n := by
  induction n generalizing s with
  | zero => rfl
  | succ n ih =>
    have htyped : s.key 97 = s.insert 97 := by
      rw [Chat.key, if_neg (by decide), if_neg (by decide), if_neg (by decide), if_neg (by decide), if_neg (by decide),
        if_neg (by decide), if_neg (by decide), if_pos ⟨by decide, by decide, by omega⟩]
      rfl
    have hsent : (s.insert 97).key 10 = (s.insert 97).send := by
      rw [Chat.key_enter (Or.inl rfl)]
      exact if_pos (Nat.succ_pos _)
    have hstep₁ : (chatStep acc s (.key 97)).2 = s.insert 97 := by
      show (if s.mode = .open then s.key 97 else s) = _
      rw [if_pos hmode, htyped]
    have hstep₂ : (chatStep acc (s.insert 97) (.key 10)).2 = (s.insert 97).send := by
      show (if s.mode = .open then (s.insert 97).key 10 else _) = _
      rw [if_pos hmode, hsent]
    have hmode₂ : (s.insert 97).send.mode = .open := hmode
    rw [replicate_succ, flatten_cons, cons_append, cons_append, nil_append, exec_cons, exec_cons,
      hstep₁, hstep₂, ih hmode₂ rfl]
    show s.nmessages + 1 + n = s.nmessages + (n + 1)
    omega

/-- Without a response, 129 lines are 129 messages: one more than there are records. -/
theorem chat_overflow : (exec (chatStep valueAccessors) bootChat
      (.start none :: (replicate 129 [.key 97, .key 10]).flatten)).nmessages = 129 ∧
    ¬(exec (chatStep valueAccessors) bootChat (.start none :: (replicate 129 [.key 97,
      .key 10]).flatten)).Bounded := by
  have hcount : (exec (chatStep valueAccessors) bootChat
      (.start none :: (replicate 129 [.key 97, .key 10]).flatten)).nmessages = 129 := by
    rw [exec_cons, exec_send valueAccessors rfl rfl]
    rfl
  refine ⟨hcount, fun h => ?_⟩
  have hle := h.count
  rw [hcount] at hle
  exact absurd hle (by decide)

end PigOS.Crypto
