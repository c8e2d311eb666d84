import PigOS.Crypto.Correctness.JsonParse
import PigOS.Crypto.Discord

/-!
# `Crypto.Correctness.DiscordLists` — when a list shows its response

The parsers of the three lists are one loop with different rows, and the accessors are taken to be
right. What a list shows is a question about records that are stored field by field, which
`Lib.Records` answers (`parseList_shows_iff`).
-/

namespace PigOS.Crypto

open Kernel Records List

/-! ## Right accessors -/

def Json.kind : Json → JsonType
  | .null => .null
  | .bool _ => .bool
  | .num _ => .number
  | .str _ => .string
  | .arr _ => .array
  | .obj _ => .object

def Json.elements : Json → List Json
  | .arr es => es
  | _ => []

def Json.members : Json → List (CStr × Json)
  | .obj ms => ms
  | _ => []

/-- The first member with a key. -/
def Json.member (v : Json) (k : CStr) : Option Json := (v.members.find? (·.1 = k)).map Prod.snd

def Json.str? : Json → Option CStr
  | .str s => some s
  | _ => none

def Json.num? : Json → Option Int64
  | .num z => some z
  | _ => none

/-- The accessors of `json.h`, on the value that a text stands for. -/
def valueAccessors : Accessors Json where
  type v := v.kind
  arrayLen v := v.elements.length
  arrayGet v i := v.elements[i]?
  getString v k := (v.member k).bind Json.str?
  getInt v k := (((v.member k).bind Json.num?).getD 0).toInt32
  getObject v k := (v.member k).filter (·.kind = .object)

def Json.isObject (v : Json) : Bool := v.kind = .object

/-! ## The property and the condition -/

/-- A list shows its response whatever the array held before, at index `k` the `k`-th object. -/
structure ShowsResponse (parse : Json → Buffer UInt8 → Nat × Buffer UInt8) (stride : Nat) (fields : List Field)
    (row : Json → Row UInt8) (v : Json) : Prop where
  same : ∀ b b' k, k < (parse v b).1 → ∀ f ∈ fields,
    shown 0 stride k f (parse v b).2 = shown 0 stride k f (parse v b').2
  describes : ∀ b k g, k < (parse v b).1 → (v.elements.filter Json.isObject)[k]? = some g →
    Describes stride k (row g) (parse v b).2

/-- The objects among the elements looked at come first, and each has every field, which fits. -/
def ObjectsFirst (max : Nat) (row : Json → Row UInt8) (v : Json) : Prop :=
  ∀ k < ((v.elements.take max).filter Json.isObject).length,
    ∃ g, v.elements[k]? = some g ∧ g.isObject = true ∧ (row g).Complete

/-! ## The loop -/

section Loop

variable {max stride : Nat} {fields : List Field} {row : Json → Row UInt8}

/-- What is stored for one element. -/
def rowOf (row : Json → Row UInt8) (g : Json) : Option (Row UInt8) := if g.isObject then some (row g) else none

lemma map_elementRow (v : Json) :
    (range (min v.elements.length max)).map (elementRow valueAccessors row v) =
      (v.elements.take max).map (rowOf row) := by
  refine ext_getElem? fun i => ?_
  rw [Cells.getElem?_map_range, getElem?_map, getElem?_take]
  by_cases hmax : i < max
  · by_cases hlen : i < v.elements.length
    · rw [if_pos (by omega), if_pos hmax, getElem?_eq_getElem hlen]
      show some ((v.elements[i]?).bind _) = _
      rw [getElem?_eq_getElem hlen, Option.bind_some, Option.map_some, rowOf]
      simp only [Json.isObject, decide_eq_true_eq]
      rfl
    · rw [if_neg (by omega), if_pos hmax, getElem?_eq_none (Nat.le_of_not_lt hlen)]
      rfl
  · rw [if_neg (by omega), if_neg hmax]
    rfl

lemma filterMap_rowOf (l : List Json) : (l.map (rowOf row)).filterMap id = (l.filter Json.isObject).map row := by
  induction l with
  | nil => rfl
  | cons g l ih =>
    by_cases hg : g.isObject = true
    · rw [map_cons, rowOf, if_pos hg, filterMap_cons_some (show id (some (row g)) =
        some (row g) from rfl), ih, filter_cons_of_pos hg,
        map_cons]
    · rw [map_cons, rowOf, if_neg hg, filterMap_cons_none rfl, ih, filter_cons_of_neg hg]

lemma getElem?_objects (l : List Json) {k : Nat} (hk : k < ((l.take max).filter Json.isObject).length) :
    (l.filter Json.isObject)[k]? = ((l.take max).filter Json.isObject)[k]? := by
  conv_lhs => rw [← take_append_drop max l, filter_append, getElem?_append_left hk]

lemma parseList_array {v : Json} (hv : v.kind = .array) (b : Buffer UInt8) :
    parseList valueAccessors max stride row v b =
      (((v.elements.take max).filter Json.isObject).length,
        fillAll stride 0 ((v.elements.take max).map (rowOf row)) b) := by
  rw [parseList, if_neg (fun h => h hv)]
  show ((((range (min v.elements.length max)).map _).filterMap id).length, _) = _
  rw [map_elementRow, filterMap_rowOf, length_map]
  show (_, fillAll stride 0 ((range (min v.elements.length max)).map _) b) = _
  rw [map_elementRow]

lemma showsResponse_array_iff {v : Json} (hv : v.kind = .array) :
    ShowsResponse (parseList valueAccessors max stride row) stride fields row v ↔
      Records.Faithful 0 stride fields ((v.elements.take max).map (rowOf row)) := by
  have hcount (b : Buffer UInt8) :
      (parseList valueAccessors max stride row v b).1 = ((v.elements.take max).filter Json.isObject).length := by
    rw [parseList_array hv]
  have hfill (b : Buffer UInt8) :
      (parseList valueAccessors max stride row v b).2 = fillAll stride 0 ((v.elements.take max).map (rowOf row)) b := by
    rw [parseList_array hv]
  have hlen : (((v.elements.take max).map (rowOf row)).filterMap id).length =
      ((v.elements.take max).filter Json.isObject).length := by
    rw [filterMap_rowOf, length_map]
  constructor
  · intro h
    refine ⟨fun b b' k f hk hf => ?_, fun b k r hr => ?_⟩
    · have hsame := h.same b b' k (by rw [hcount, ← hlen]; exact hk) f hf
      rwa [hfill, hfill] at hsame
    · rw [filterMap_rowOf, getElem?_map] at hr
      obtain ⟨g, hg, rfl⟩ := Option.map_eq_some_iff.mp hr
      have hk := (List.getElem?_eq_some_iff.mp hg).1
      rw [← hfill]
      exact h.describes b k g (by rwa [hcount]) (by rwa [getElem?_objects _ hk])
  · intro h
    refine ⟨fun b b' k hk f hf => ?_, fun b k g hk hg => ?_⟩
    · rw [hcount, ← hlen] at hk
      rw [hfill, hfill]
      exact h.same b b' k f hk hf
    · rw [hcount] at hk
      rw [getElem?_objects _ hk] at hg
      rw [hfill]
      refine h.describes b k (row g) ?_
      rw [filterMap_rowOf, getElem?_map, hg]
      rfl

lemma objectsFirst_iff (v : Json) : ObjectsFirst max row v ↔
      ∀ (k : Nat) (r : Row UInt8), (((v.elements.take max).map (rowOf row)).filterMap id)[k]? = some r →
        ((v.elements.take max).map (rowOf row))[k]? = some (some r) ∧ r.Complete := by
  have hle : ((v.elements.take max).filter Json.isObject).length ≤ max :=
    Nat.le_trans (length_filter_le _ _) (length_take_le _ _)
  constructor
  · intro h k r hr
    have hk := (List.getElem?_eq_some_iff.mp hr).1
    rw [filterMap_rowOf, length_map] at hk
    -- all elements up to this one are objects
    have hfirst : ∀ j ≤ k, ∃ g, ((v.elements.take max).map (rowOf row))[j]? = some (some (row g)) ∧
        (row g).Complete := by
      intro j hj
      obtain ⟨g, hg, hobj, hcomplete⟩ := h j (Nat.lt_of_le_of_lt hj hk)
      refine ⟨g, ?_, hcomplete⟩
      rw [getElem?_map, getElem?_take_of_lt (by omega), hg, Option.map_some, rowOf, if_pos hobj]
    obtain ⟨g, hg, hcomplete⟩ := hfirst k (Nat.le_refl k)
    have hsame := filterMap_getElem? fun j hj => (hfirst j hj).imp' row fun _ h => h.1
    rw [hr, hg] at hsame
    obtain rfl := Option.some.inj (Option.some.inj hsame)
    exact ⟨hg, hcomplete⟩
  · intro h k hk
    have hget := getElem?_eq_getElem hk
    obtain ⟨hrow, hcomplete⟩ := h k (row ((v.elements.take max).filter Json.isObject)[k])
      (by rw [filterMap_rowOf, getElem?_map, hget]; rfl)
    rw [getElem?_map, getElem?_take_of_lt (by omega)] at hrow
    obtain ⟨g, hg, hrow⟩ := Option.map_eq_some_iff.mp hrow
    rw [rowOf] at hrow
    split at hrow
    next hobj =>
      rw [← Option.some.inj hrow] at hcomplete
      exact ⟨g, hg, hobj, hcomplete⟩
    next => cases hrow

/-- **When a list shows its response.** -/
theorem parseList_shows_iff (hlayout : Layout stride fields) (hrow : ∀ g, (row g).For 0 fields) (v : Json) :
    ShowsResponse (parseList valueAccessors max stride row) stride fields row v ↔ ObjectsFirst max row v := by
  by_cases hv : v.kind = .array
  · have hbytes : Nontrivial UInt8 := ⟨0, 1, by decide⟩
    rw [showsResponse_array_iff hv, objectsFirst_iff]
    refine faithful_iff hlayout fun r hr => ?_
    obtain ⟨g, -, hg⟩ := mem_map.mp hr
    rw [rowOf] at hg
    split at hg
    · rw [← Option.some.inj hg]
      exact hrow g
    · cases hg
  · -- nothing is stored, and there is nothing to show
    have hparse (b : Buffer UInt8) : parseList valueAccessors max stride row v b = (0, b) := if_pos hv
    have helems : v.elements = [] := by
      cases v with
      | arr es => exact absurd rfl hv
      | _ => rfl
    refine ⟨fun _ k hk => ?_, fun _ => ⟨fun b b' k hk => ?_, fun b k g hk => ?_⟩⟩
    · rw [helems, take_nil] at hk
      exact absurd hk (Nat.not_lt_zero k)
    · rw [hparse] at hk
      exact absurd hk (Nat.not_lt_zero k)
    · rw [hparse] at hk
      exact absurd hk (Nat.not_lt_zero k)

end Loop

/-! ## The three lists -/

lemma kcpField_takes (off size : Nat) (s : Option CStr) {xs : List UInt8} (h : (kcpField off size s).2 = some xs) :
    (kcpField off size s).1.Takes 0 xs := by
  obtain ⟨t, -, rfl⟩ := Option.map_eq_some_iff.mp h
  exact mem_append_right _ (mem_singleton_self 0)

lemma intField_takes (off : Nat) (n : Int32) {xs : List UInt8} (h : (intField off n).2 = some xs) :
    (intField off n).1.Takes 0 xs := by
  rw [← Option.some.inj h]
  rfl

def guildFields : List Field := [⟨0, 128, true⟩, ⟨128, 128, true⟩]

def channelFields : List Field := [⟨0, 128, true⟩, ⟨128, 128, true⟩, ⟨384, 4, false⟩, ⟨256, 128, true⟩]

def messageFields : List Field := [⟨0, 128, true⟩, ⟨768, 128, true⟩, ⟨128, 128, true⟩, ⟨256, 512, true⟩]

lemma guild_layout : Layout guildSize guildFields where
  inside := by decide
  size_pos := by decide
  apart := by simp [guildFields, Records.Apart]
  ne_nil := by simp [guildFields]

lemma channel_layout : Layout channelSize channelFields where
  inside := by decide
  size_pos := by decide
  apart := by simp [channelFields, Records.Apart]
  ne_nil := by simp [channelFields]

lemma message_layout : Layout messageSize messageFields where
  inside := by decide
  size_pos := by decide
  apart := by simp [messageFields, Records.Apart]
  ne_nil := by simp [messageFields]

section Rows

variable {ν : Type} (acc : Accessors ν) (g : ν)

lemma guildRow_for : (guildRow acc g).For 0 guildFields where
  fields := rfl
  takes := by
    rw [guildRow, forall_mem_cons, forall_mem_singleton]
    exact ⟨fun _ => kcpField_takes _ _ _, fun _ => kcpField_takes _ _ _⟩

lemma channelRow_for : (channelRow acc g).For 0 channelFields where
  fields := rfl
  takes := by
    rw [channelRow, forall_mem_cons, forall_mem_cons, forall_mem_cons, forall_mem_singleton]
    exact ⟨fun _ => kcpField_takes _ _ _, fun _ => kcpField_takes _ _ _, fun _ => intField_takes _ _,
      fun _ => kcpField_takes _ _ _⟩

lemma messageRow_for : (messageRow acc g).For 0 messageFields where
  fields := rfl
  takes := by
    rw [messageRow, forall_mem_cons, forall_mem_cons, forall_mem_cons, forall_mem_singleton]
    exact ⟨fun _ => kcpField_takes _ _ _, fun _ => kcpField_takes _ _ _, fun _ => kcpField_takes _ _ _,
      fun _ => kcpField_takes _ _ _⟩

end Rows

/-- **The lists depend on their responses alone** exactly when, among the elements that are looked
at, the objects come first, with all the texts of a record, each shorter than its array. -/
theorem discLists_shows_iff (v : Json) :
    (ShowsResponse (discParseGuilds valueAccessors) guildSize guildFields (guildRow valueAccessors) v ↔
      ObjectsFirst discMaxGuilds (guildRow valueAccessors) v) ∧
    (ShowsResponse (discParseChannels valueAccessors) channelSize channelFields (channelRow valueAccessors) v ↔
      ObjectsFirst discMaxChannels (channelRow valueAccessors) v) ∧
    (ShowsResponse (discParseMessages valueAccessors) messageSize messageFields (messageRow valueAccessors) v ↔
      ObjectsFirst discMaxMessages (messageRow valueAccessors) v) :=
  ⟨parseList_shows_iff guild_layout (guildRow_for valueAccessors) v,
    parseList_shows_iff channel_layout (channelRow_for valueAccessors) v,
    parseList_shows_iff message_layout (messageRow_for valueAccessors) v⟩

/-- A message without an author: `[{"id":"1","timestamp":"2","content":"3"}]`. -/
def anonymousMessage : Json :=
  .arr [.obj [(cstr "id", .str (cstr "1")), (cstr "timestamp", .str (cstr "2")), (cstr "content", .str (cstr "3"))]]

/-- Its author is whoever wrote the message that stood there before. -/
theorem discParseMessages_stale : (discParseMessages valueAccessors anonymousMessage (Buffer.fresh fun _ => 0)).1 = 1 ∧
    shown 0 messageSize 0 ⟨128, 128, true⟩
      (discParseMessages valueAccessors anonymousMessage (Buffer.fresh fun _ => 0)).2 = [] ∧
    shown 0 messageSize 0 ⟨128, 128, true⟩
      (discParseMessages valueAccessors anonymousMessage ((Buffer.fresh fun _ => 0).writeAll 128 [0x42, 0x6F, 0x62])).2 =
        [0x42, 0x6F, 0x62] ∧
    ¬ShowsResponse (discParseMessages valueAccessors) messageSize messageFields
      (messageRow valueAccessors) anonymousMessage := by
  have hcount (b : Buffer UInt8) : (discParseMessages valueAccessors anonymousMessage b).1 = 1 := by rfl
  have hempty : shown 0 messageSize 0 ⟨128, 128, true⟩
      (discParseMessages valueAccessors anonymousMessage (Buffer.fresh fun _ => 0)).2 = [] := by decide +kernel
  have hbob : shown 0 messageSize 0 ⟨128, 128, true⟩
      (discParseMessages valueAccessors anonymousMessage ((Buffer.fresh fun _ => 0).writeAll 128 [0x42, 0x6F, 0x62])).2 =
        [0x42, 0x6F, 0x62] := by decide +kernel
  refine ⟨hcount _, hempty, hbob, fun h => ?_⟩
  have hsame := h.same (Buffer.fresh fun _ => 0) ((Buffer.fresh fun _ => 0).writeAll 128 [0x42, 0x6F, 0x62]) 0
    (by rw [hcount]; exact Nat.one_pos) ⟨128, 128, true⟩ (by simp [messageFields])
  rw [hempty, hbob] at hsame
  cases hsame

end PigOS.Crypto
