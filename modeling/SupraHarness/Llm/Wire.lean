import SupraHarness.Lib.OrdMap
import SupraHarness.Llm.Spelling
import SupraHarness.Llm.Value

/-!
# Content blocks on the wire

The JSON value a content block is sent as, and the block a value is read as. The blocks that are
interpreted carry their kind in a type field and are read back from it. A block that is not interpreted
is sent as the object it came as, and comes back as such where the type in it is no other kind's.
-/
namespace SupraHarness.Llm

variable {φ : Type}

namespace Value

def asBool : Value φ → Option Bool
  | bool b => some b
  | _ => none

/-- The value with an entry put into it, where it is an object. -/
def putEntry (value : Value φ) (key : String) (item : Value φ) : Value φ :=
  match value with
  | object map => object (OrdMap.insertIn key item map)
  | value => value

end Value

namespace ContentBlock

def wireValue : ContentBlock φ → Value φ
  | .text prose citations =>
    .object ((if citations.isEmpty then [] else [("citations", .array citations)]) ++
      [("text", .string prose), ("type", .string "text")])
  | .thinking thought signature =>
    .object [("signature", .string signature), ("thinking", .string thought), ("type", .string "thinking")]
  | .redactedThinking data => .object [("data", .string data), ("type", .string "redacted_thinking")]
  | .toolUse id name input =>
    .object [("id", .string id), ("input", input), ("name", .string name), ("type", .string "tool_use")]
  | .toolResult toolUseId content isError =>
    .object (("content", content) :: ((if isError then [("is_error", .bool true)] else []) ++
      [("tool_use_id", .string toolUseId), ("type", .string "tool_result")]))
  | .unknown raw => raw

/-- The text a block of some kind has in a field. -/
def stringField (value : Value φ) (kind field : String) : Except String String :=
  match (value.get field).bind Value.asStr with
  | none => .error s!"{kind} content block has no string {field}"
  | some found => .ok found

def fromWireValue (value : Value φ) : Except String (ContentBlock φ) :=
  match (value.get "type").bind Value.asStr with
  | none => .error "content block has no string type"
  | some "text" => do
    let prose ← stringField value "text" "text"
    .ok (.text prose (((value.get "citations").bind Value.asArray).getD []))
  | some "thinking" => do
    let thought ← stringField value "thinking" "thinking"
    let signature ← stringField value "thinking" "signature"
    .ok (.thinking thought signature)
  | some "redacted_thinking" => do
    let data ← stringField value "redacted_thinking" "data"
    .ok (.redactedThinking data)
  | some "tool_use" => do
    let id ← stringField value "tool_use" "id"
    let name ← stringField value "tool_use" "name"
    .ok (.toolUse id name ((value.get "input").getD .null))
  | some "tool_result" => do
    let toolUseId ← stringField value "tool_result" "tool_use_id"
    .ok (.toolResult toolUseId ((value.get "content").getD (.string ""))
      (((value.get "is_error").bind Value.asBool).getD false))
  | some _ => .ok (.unknown value)

/-- How reading a value changes with the value, where the texts of its fields stay and `f` does to the block
what becomes of the rest. -/
theorem fromWireValue_map {value value' : Value φ} {f : ContentBlock φ → ContentBlock φ}
    (hstring : ∀ field ≠ "cache_control", (value'.get field).bind Value.asStr = (value.get field).bind Value.asStr)
    (htext : ∀ prose, .text prose (((value'.get "citations").bind Value.asArray).getD []) =
      f (.text prose (((value.get "citations").bind Value.asArray).getD [])))
    (hthinking : ∀ thought signature, .thinking thought signature = f (.thinking thought signature))
    (hredacted : ∀ data, .redactedThinking data = f (.redactedThinking data))
    (huse : ∀ id name, .toolUse id name ((value'.get "input").getD .null) =
      f (.toolUse id name ((value.get "input").getD .null)))
    (hresult : ∀ toolUseId, .toolResult toolUseId ((value'.get "content").getD (.string ""))
        (((value'.get "is_error").bind Value.asBool).getD false) =
      f (.toolResult toolUseId ((value.get "content").getD (.string ""))
        (((value.get "is_error").bind Value.asBool).getD false)))
    (hunknown : .unknown value' = f (.unknown value)) : fromWireValue value' = (fromWireValue value).map f := by
  have hfield : ∀ kind, ∀ field ≠ "cache_control", stringField value' kind field = stringField value kind field := by
    intro kind field hne
    rw [stringField, stringField, hstring field hne]
  unfold fromWireValue
  rw [hstring "type" (by decide)]
  split
  · rfl
  · rw [hfield "text" "text" (by decide)]
    cases stringField value "text" "text" with
    | error e => rfl
    | ok prose => exact congrArg Except.ok (htext prose)
  · rw [hfield "thinking" "thinking" (by decide), hfield "thinking" "signature" (by decide)]
    cases stringField value "thinking" "thinking" with
    | error e => rfl
    | ok thought =>
      cases stringField value "thinking" "signature" with
      | error e => rfl
      | ok signature => exact congrArg Except.ok (hthinking thought signature)
  · rw [hfield "redacted_thinking" "data" (by decide)]
    cases stringField value "redacted_thinking" "data" with
    | error e => rfl
    | ok data => exact congrArg Except.ok (hredacted data)
  · rw [hfield "tool_use" "id" (by decide), hfield "tool_use" "name" (by decide)]
    cases stringField value "tool_use" "id" with
    | error e => rfl
    | ok id =>
      cases stringField value "tool_use" "name" with
      | error e => rfl
      | ok name => exact congrArg Except.ok (huse id name)
  · rw [hfield "tool_result" "tool_use_id" (by decide)]
    cases stringField value "tool_result" "tool_use_id" with
    | error e => rfl
    | ok toolUseId => exact congrArg Except.ok (hresult toolUseId)
  · exact congrArg Except.ok hunknown

/-- The kinds of blocks that are interpreted. -/
def kinds : List String := ["text", "thinking", "redacted_thinking", "tool_use", "tool_result"]

/-- A block that is not interpreted has a type, and not one that is. -/
def Named : ContentBlock φ → Prop
  | .unknown raw => ∃ kind, raw.get "type" = some (.string kind) ∧ kind ∉ kinds
  | _ => True

theorem fromWireValue_unknown {raw : Value φ} {kind : String} (hkind : raw.get "type" = some (.string kind))
    (h : kind ∉ kinds) : fromWireValue raw = .ok (.unknown raw) := by
  unfold fromWireValue
  rw [hkind, Option.bind_some, Value.asStr]
  split
  · next hnone => cases hnone
  all_goals first
    | next heq =>
      cases heq
      exact absurd (by decide) h
    | rfl

/-- A block that is sent is read as the block it was. -/
theorem fromWireValue_wireValue (block : ContentBlock φ) (h : block.Named) :
    fromWireValue block.wireValue = .ok block := by
  cases block with
  | text prose citations =>
    cases citations with
    | nil => rfl
    | cons citation citations => rfl
  | thinking thought signature => rfl
  | redactedThinking data => rfl
  | toolUse id name input => rfl
  | toolResult toolUseId content isError => cases isError <;> rfl
  | unknown raw =>
    obtain ⟨kind, hkind, hother⟩ := h
    exact fromWireValue_unknown hkind hother

end ContentBlock

/-! ## The order of entries -/

theorem lookup_eq_filter {β : Type} (key : String) (entries : List (String × β)) :
    entries.lookup key = ((entries.filter fun entry => entry.1 = key).head?).map Prod.snd := by
  induction entries with
  | nil => rfl
  | cons entry entries ih =>
    obtain ⟨key', item⟩ := entry
    by_cases h : key' = key
    · subst h
      rw [List.lookup_cons_self, List.filter_cons_of_pos (by simp)]
      rfl
    · rw [List.lookup_cons, beq_false_of_ne (Ne.symm h), List.filter_cons_of_neg (by simpa using h), ih]

/-- Entries of one key stay in their order. -/
theorem filter_sortByKey {β : Type} (key : String) (entries : List (String × β)) :
    ((sortByKey entries).filter fun entry => entry.1 = key) = entries.filter fun entry => entry.1 = key := by
  have hpairwise : (entries.filter fun entry => entry.1 = key).Pairwise fun a b => decide (a.1 ≤ b.1) = true := by
    apply List.pairwise_of_forall_mem_list
    intro a ha b hb
    have ha := (List.mem_filter.mp ha).2
    have hb := (List.mem_filter.mp hb).2
    rw [decide_eq_true_eq] at ha hb ⊢
    exact (ha.trans hb.symm).le
  have hsub : (entries.filter fun entry => entry.1 = key).Sublist (sortByKey entries) := by
    refine List.sublist_mergeSort ?_ ?_ hpairwise List.filter_sublist
    · intro a b c hab hbc
      rw [decide_eq_true_eq] at hab hbc ⊢
      exact le_trans hab hbc
    · intro a b
      rw [Bool.or_eq_true, decide_eq_true_eq, decide_eq_true_eq]
      exact le_total a.1 b.1
  have hfilter := hsub.filter fun entry => decide (entry.1 = key)
  simp only [List.filter_filter, Bool.and_self] at hfilter
  exact (hfilter.eq_of_length (((List.mergeSort_perm entries _).filter _).length_eq.symm)).symm

theorem lookup_sortByKey {β : Type} (key : String) (entries : List (String × β)) :
    (sortByKey entries).lookup key = entries.lookup key := by
  rw [lookup_eq_filter, filter_sortByKey, ← lookup_eq_filter]

theorem lookup_map_snd {α β : Type} (f : α → β) (key : String) (entries : List (String × α)) :
    (entries.map (Prod.map id f)).lookup key = (entries.lookup key).map f := by
  induction entries with
  | nil => rfl
  | cons entry entries ih =>
    obtain ⟨key', item⟩ := entry
    by_cases h : key' = key
    · subst h
      rw [List.map_cons, Prod.map, id, List.lookup_cons_self, List.lookup_cons_self]
      rfl
    · rw [List.map_cons, Prod.map, id, List.lookup_cons, List.lookup_cons, beq_false_of_ne (Ne.symm h), ih]

namespace Value

theorem get_ordered (value : Value φ) (key : String) : value.ordered.get key = (value.get key).map ordered := by
  cases value with
  | object map => rw [ordered_object, get, get, lookup_map_snd, lookup_sortByKey]
  | _ => rfl

@[simp] theorem asStr_ordered (value : Value φ) : value.ordered.asStr = value.asStr := by
  cases value <;> rfl

@[simp] theorem asBool_ordered (value : Value φ) : value.ordered.asBool = value.asBool := by
  cases value <;> rfl

theorem asArray_ordered (value : Value φ) : value.ordered.asArray = value.asArray.map (List.map ordered) := by
  cases value with
  | array items => rw [ordered_array, asArray, asArray, Option.map_some]
  | _ => rfl

theorem getIdx_ordered (value : Value φ) (index : Nat) :
    value.ordered.getIdx index = (value.getIdx index).map ordered := by
  cases value with
  | array items => rw [ordered_array, getIdx, getIdx, List.getElem?_map]
  | _ => rfl

theorem bind_asStr_ordered (found : Option (Value φ)) : (found.map ordered).bind asStr = found.bind asStr := by
  cases found with
  | none => rfl
  | some value => exact asStr_ordered value

theorem bind_asBool_ordered (found : Option (Value φ)) : (found.map ordered).bind asBool = found.bind asBool := by
  cases found with
  | none => rfl
  | some value => exact asBool_ordered value

theorem bind_asArray_ordered (found : Option (Value φ)) :
    ((found.map ordered).bind asArray).getD [] = ((found.bind asArray).getD []).map ordered := by
  cases found with
  | none => rfl
  | some value =>
    rw [Option.map_some, Option.bind_some, Option.bind_some, asArray_ordered]
    cases value.asArray <;> rfl

end Value

namespace ContentBlock

/-- The block with the entries of every object in it in the order of their keys. -/
def ordered : ContentBlock φ → ContentBlock φ
  | .text prose citations => .text prose (citations.map Value.ordered)
  | .toolUse id name input => .toolUse id name input.ordered
  | .toolResult toolUseId content isError => .toolResult toolUseId content.ordered isError
  | .unknown raw => .unknown raw.ordered
  | block => block

/-- Blocks that differ in the order of entries only. -/
def Same (block block' : ContentBlock φ) : Prop := block.ordered = block'.ordered

theorem ordered_ordered (block : ContentBlock φ) : block.ordered.ordered = block.ordered := by
  cases block with
  | text prose citations =>
    rw [ordered, ordered, List.map_map]
    congr 1
    exact List.map_congr_left fun citation _ => citation.ordered_ordered
  | toolUse id name input => rw [ordered, ordered, input.ordered_ordered]
  | toolResult toolUseId content isError => rw [ordered, ordered, content.ordered_ordered]
  | unknown raw => rw [ordered, ordered, raw.ordered_ordered]
  | thinking thought signature => rfl
  | redactedThinking data => rfl

/-- The order of entries makes no difference to how a block is read. -/
theorem fromWireValue_ordered (value : Value φ) :
    fromWireValue value.ordered = (fromWireValue value).map ordered := by
  apply fromWireValue_map
  · intro field _
    rw [Value.get_ordered, Value.bind_asStr_ordered]
  · intro prose
    rw [Value.get_ordered, Value.bind_asArray_ordered]
    rfl
  · exact fun _ _ => rfl
  · exact fun _ => rfl
  · intro id name
    rw [Value.get_ordered]
    cases value.get "input" <;> rfl
  · intro toolUseId
    rw [Value.get_ordered, Value.get_ordered, Value.bind_asBool_ordered]
    cases value.get "content" <;> rfl
  · rfl

end ContentBlock

/-! ## Cache markers -/

namespace Value

theorem get_putEntry_ne {key key' : String} (h : key' ≠ key) (value item : Value φ) :
    (value.putEntry key item).get key' = value.get key' := by
  cases value with
  | object map =>
    rw [putEntry, get, get, ← OrdMap.getIn_eq_lookup, ← OrdMap.getIn_eq_lookup, OrdMap.getIn_insertIn, if_neg h]
  | _ => rfl

theorem putEntry_putEntry (value : Value φ) (key : String) (item : Value φ) :
    (value.putEntry key item).putEntry key item = value.putEntry key item := by
  cases value with
  | object map =>
    rw [putEntry, putEntry]
    congr 1
    induction map with
    | nil => rw [OrdMap.insertIn, OrdMap.insertIn, if_neg (lt_irrefl key), if_pos rfl]
    | cons entry map ih =>
      rw [OrdMap.insertIn]
      split_ifs with hlt heq
      · rw [OrdMap.insertIn, if_neg (lt_irrefl key), if_pos rfl]
      · rw [OrdMap.insertIn, if_neg (lt_irrefl key), if_pos rfl]
      · rw [OrdMap.insertIn, if_neg hlt, if_neg heq, ih]
  | _ => rfl

end Value

namespace ContentBlock

/-- The block whose object has a cache marker. The kinds that are interpreted do not keep it. -/
def mark (marker : Value φ) : ContentBlock φ → ContentBlock φ
  | .unknown raw => .unknown (raw.putEntry "cache_control" marker)
  | block => block

/-- A cache marker makes no difference to what is read of the kinds that are interpreted. -/
theorem fromWireValue_mark (value marker : Value φ) :
    fromWireValue (value.putEntry "cache_control" marker) = (fromWireValue value).map (mark marker) := by
  apply fromWireValue_map
  · intro field hfield
    rw [Value.get_putEntry_ne hfield]
  · intro prose
    rw [Value.get_putEntry_ne (by decide)]
    rfl
  · exact fun _ _ => rfl
  · exact fun _ => rfl
  · intro id name
    rw [Value.get_putEntry_ne (by decide)]
    rfl
  · intro toolUseId
    rw [Value.get_putEntry_ne (by decide), Value.get_putEntry_ne (by decide)]
    rfl
  · rfl

theorem ordered_mark_named {block : ContentBlock φ} (h : block.Named) (marker : Value φ) :
    fromWireValue ((block.wireValue.putEntry "cache_control" marker).ordered) = .ok (block.mark marker).ordered := by
  rw [fromWireValue_ordered, fromWireValue_mark, fromWireValue_wireValue block h]
  rfl

theorem ordered_named {block : ContentBlock φ} (h : block.Named) :
    fromWireValue block.wireValue.ordered = .ok block.ordered := by
  rw [fromWireValue_ordered, fromWireValue_wireValue block h]
  rfl

/-! ## Floats -/

/-- The block has no float at any depth. -/
def exact : ContentBlock φ → Bool
  | .text _ citations => citations.all Value.exact
  | .toolUse _ _ input => input.exact
  | .toolResult _ content _ => content.exact
  | .unknown raw => raw.exact
  | _ => true

theorem exact_wireValue (block : ContentBlock φ) : block.wireValue.exact = block.exact := by
  cases block with
  | text prose citations =>
    cases citations with
    | nil => rfl
    | cons citation citations =>
      simp [wireValue, exact, Value.exact, Value.exactEntries, Value.exactItems, Value.exactItems_eq]
  | toolUse id name input => simp [wireValue, exact, Value.exact, Value.exactEntries]
  | toolResult toolUseId content isError =>
    cases isError <;> simp [wireValue, exact, Value.exact, Value.exactEntries]
  | _ => rfl

end ContentBlock

theorem Value.exact_putEntry {value item : Value φ} (h : value.exact = true) (hitem : item.exact = true) (key : String) :
    (value.putEntry key item).exact = true := by
  cases value with
  | object map =>
    rw [exact, exactEntries_eq, List.all_eq_true] at h
    rw [putEntry, exact, exactEntries_eq, List.all_eq_true]
    intro entry hentry
    rcases OrdMap.mem_insertIn hentry with rfl | hentry
    · exact hitem
    · exact h entry hentry
  | _ => exact h

end SupraHarness.Llm
