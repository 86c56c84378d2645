import SupraHarness.Lib.JsonUnique
import SupraHarness.Lib.Trim
import SupraHarness.Llm.Blocks
import SupraHarness.Llm.CanonicalForm
import SupraHarness.Llm.RenderBody

/-!
# Replaying a completion

A conversation goes on by sending back what the model said. The blocks that the Anthropic reader
completes are rendered into the next request, and read from its text they are the blocks they were: a
block is left as it came only where its type is none that the reader interprets. A request with a float
is not rendered at all.
-/
namespace SupraHarness.Llm

open Json (Text)
open Results (bind_eq_ok)
open Utf8 (encode)
open SupraHarness.Prompt (Breakpoint)

variable {φ : Type} (fromStr : String → Except String (Value φ))

/-! ## What the reader leaves as it came -/

/-- A value with a type that the reader does not interpret. -/
def Foreign (raw : Value φ) : Prop :=
  raw.strOrDefault "type" ∉ ["text", "thinking", "redacted_thinking", "tool_use"]

/-- What the reader leaves as it came has a foreign type. -/
structure Received (s : AnthropicStream φ) : Prop where
  opened : ∀ (index : UInt32) raw partialJson,
    s.opened[index]? = some (AnthropicBlock.unknown raw partialJson) → Foreign raw
  complete : ∀ (index : UInt32) raw, s.complete[index]? = some (ContentBlock.unknown raw) → Foreign raw

theorem start_foreign {raw raw' : Value φ} {partialJson : String}
    (h : AnthropicBlock.start raw = .unknown raw' partialJson) : Foreign raw' := by
  unfold AnthropicBlock.start at h
  split at h
  case h_5 h₁ h₂ h₃ h₄ =>
    cases h
    simp only [Foreign, List.mem_cons, List.not_mem_nil, or_false, not_or]
    exact ⟨h₁, h₂, h₃, h₄⟩
  all_goals cases h

theorem applyDelta_foreign {block : AnthropicBlock φ} {delta raw : Value φ} {partialJson : String}
    (hblock : ∀ raw partialJson, block = .unknown raw partialJson → Foreign raw)
    (h : block.applyDelta delta = .ok (.unknown raw partialJson)) : Foreign raw := by
  obtain ⟨-, hextended⟩ := applyDelta_eq_ok h
  cases block with
  | unknown raw' partialJson' =>
    cases hextended
    exact hblock _ _ rfl
  | _ => cases hextended

theorem lookup_setEntry_ne {key key' : String} (h : key' ≠ key) (item : Value φ) (map : List (String × Value φ)) :
    (Value.setEntry key item map).lookup key' = map.lookup key' := by
  induction map with
  | nil => rw [Value.setEntry, Value.lookup_cons, if_neg h]
  | cons entry map ih =>
    rw [Value.setEntry, Value.lookup_cons]
    by_cases hkey : entry.1 = key
    · rw [if_pos hkey, Value.lookup_cons, if_neg h, if_neg (hkey ▸ h)]
    · rw [if_neg hkey, Value.lookup_cons, ih]

/-- An input set in a value leaves its type. -/
theorem foreign_assign {raw raw' input : Value φ} (hraw : Foreign raw) (h : raw.assign "input" input = some raw') :
    Foreign raw' := by
  cases raw with
  | null =>
    cases h
    exact hraw
  | object map =>
    cases h
    rw [Foreign, Value.strOrDefault, Value.get] at hraw ⊢
    rw [lookup_setEntry_ne (by decide)]
    exact hraw
  | _ => cases h

theorem finish_foreign {block : AnthropicBlock φ} {raw : Value φ}
    (hblock : ∀ raw partialJson, block = .unknown raw partialJson → Foreign raw)
    (h : block.finish fromStr = .ok (.unknown raw)) : Foreign raw := by
  cases block with
  | toolUse id name input partialJson =>
    rw [AnthropicBlock.finish] at h
    split at h
    · cases h
    · split at h <;> cases h
  | unknown raw' partialJson =>
    have hraw := hblock raw' partialJson rfl
    rw [AnthropicBlock.finish] at h
    split at h
    · cases h
      exact hraw
    · split at h
      · cases h
      · split at h
        · cases h
        · next hassign =>
          cases h
          exact foreign_assign hraw hassign
  | _ => cases h

theorem Moves.received {s s' : AnthropicStream φ} {xs : List (UInt32 × BlockEvent φ)} (hm : Moves fromStr s xs s')
    (h : Received s) : Received s' := by
  induction hm with
  | quiet ho hc =>
    constructor
    · rw [ho]
      exact h.opened
    · rw [hc]
      exact h.complete
  | start index raw hopen hdone ho hc =>
    constructor
    · intro j raw' partialJson hj
      rw [ho, getElem?_insert] at hj
      split_ifs at hj
      · exact start_foreign (Option.some.inj hj)
      · exact h.opened j raw' partialJson hj
    · rw [hc]
      exact h.complete
  | delta index delta hopen happly ho hc =>
    constructor
    · intro j raw' partialJson hj
      rw [ho, getElem?_insert] at hj
      split_ifs at hj
      · cases hj
        refine applyDelta_foreign (fun raw partialJson hblock => ?_) happly
        exact h.opened index raw partialJson (hblock ▸ hopen)
      · exact h.opened j raw' partialJson hj
    · rw [hc]
      exact h.complete
  | stop index hopen hfinish hdone ho hc =>
    constructor
    · intro j raw' partialJson hj
      rw [ho, getElem?_erase] at hj
      split_ifs at hj
      exact h.opened j raw' partialJson hj
    · intro j raw' hj
      rw [hc, getElem?_insert] at hj
      split_ifs at hj
      · cases hj
        refine finish_foreign fromStr (fun raw partialJson hblock => ?_) hfinish
        exact h.opened index raw partialJson (hblock ▸ hopen)
      · exact h.complete j raw' hj
  | arrive index raw hfinish hdone ho hc =>
    constructor
    · rw [ho]
      exact h.opened
    · intro j raw' hj
      rw [hc, getElem?_insert] at hj
      split_ifs at hj
      · cases hj
        exact finish_foreign fromStr (fun raw partialJson => start_foreign) hfinish
      · exact h.complete j raw' hj
  | append _ _ ih ih' => exact ih' (ih h)

theorem anthropicEvent_received {s s' : AnthropicStream φ} {event : List UInt8} (hs : Received s)
    (h : anthropicEvent fromStr s event = .ok s') : Received s' := by
  rw [anthropicEvent] at h
  split at h
  · cases h
  · split at h
    · cases h
    · cases h
      exact hs
    · split at h
      · cases h
        exact ⟨hs.opened, hs.complete⟩
      · split at h
        · cases h
        · next json hjson =>
          cases hevent : s.event fromStr json with
          | error e =>
            rw [hevent] at h
            cases h
          | ok next =>
            rw [hevent] at h
            cases h
            exact (event_moves fromStr hevent).received fromStr hs

theorem anthropicChunks_received {received : Nat} {s : AnthropicStream φ} {buffer : List UInt8}
    {chunks : List (List UInt8)} {r : AnthropicStream φ × List UInt8} (hs : Received s)
    (h : anthropicChunks fromStr received s buffer chunks = .ok r) : Received r.1 := by
  induction chunks generalizing received s buffer with
  | nil =>
    cases h
    exact hs
  | cons chunk chunks ih =>
    rw [anthropicChunks] at h
    split at h
    · cases h
    · split at h
      · cases h
      · next s' rest hdrain =>
        split at h
        · cases h
        · have hs' := sseFraming.drain_keeps (anthropicEvent fromStr)
            (fun s frame s' hs h => anthropicEvent_received fromStr hs h) hdrain hs
          exact ih hs' h

/-- In every completion that is read, the blocks left as they came are of foreign types. -/
theorem readAnthropicSse_foreign {response : Response} {thinking : Thinking} {completion : Completion φ}
    (h : readAnthropicSse fromStr response thinking = .ok completion) {raw : Value φ}
    (hraw : .unknown raw ∈ completion.content) : Foreign raw := by
  rw [readAnthropicSse, bind_eq_ok] at h
  obtain ⟨⟨s, buffer⟩, hchunks, h⟩ := h
  have hs : Received s := anthropicChunks_received fromStr ⟨by simp, by simp⟩ hchunks
  rw [bind_eq_ok] at h
  obtain ⟨-, -, h⟩ := h
  obtain ⟨-, hcontent⟩ := anthropicEnd_eq_ok h
  rw [hcontent, List.mem_map] at hraw
  obtain ⟨⟨index, block⟩, hmem, rfl⟩ := hraw
  exact hs.complete index raw (Std.ExtTreeMap.mem_toList_iff_getElem?_eq_some.mp hmem)

/-! ## What a rendered text says -/

/-- The text is JSON and spells the value. -/
def IsText (float : List UInt8 → Option φ) (text : String) (value : Value φ) : Prop :=
  ∃ raw, Text Json.standard (bytesOf text) raw ∧ spelled float raw = some value

/-- What is emitted for a value without floats spells it in order, and nothing else. -/
theorem isText_emit (float : List UInt8 → Option φ) (showFloat : φ → List Char) {value : Value φ}
    (h : value.exact = true) (value' : Value φ) :
    IsText float (String.ofList (emit showFloat value)) value' ↔ value' = value.ordered := by
  have hordered : value.ordered.exact = true := (Value.exact_ordered value).trans h
  have htext : Text Json.standard (bytesOf (String.ofList (emit showFloat value))) (value.ordered.raw showFloat) := by
    rw [bytesOf, String.toList_ofList, encode_emit]
    exact Json.Raw.text_write (standard_raw showFloat hordered)
  have hspelled := spelled_raw float showFloat hordered
  constructor
  · rintro ⟨raw, hraw, hvalue⟩
    rw [Json.text_unique hraw htext, hspelled] at hvalue
    exact (Option.some.inj hvalue).symm
  · rintro rfl
    exact ⟨_, htext, hspelled⟩

/-- The content that a message has in a body. -/
def contentAt (body : Value φ) (index : Nat) : Option (List (Value φ)) :=
  (((body.get "messages").bind fun messages => messages.getIdx index).bind fun message => message.get "content").bind
    Value.asArray

theorem contentAt_ordered (body : Value φ) (index : Nat) :
    contentAt body.ordered index = (contentAt body index).map (List.map Value.ordered) := by
  rw [contentAt, contentAt, Value.get_ordered]
  cases body.get "messages" with
  | none => rfl
  | some messages =>
    rw [Option.map_some, Option.bind_some, Option.bind_some, Value.getIdx_ordered]
    cases messages.getIdx index with
    | none => rfl
    | some message =>
      rw [Option.map_some, Option.bind_some, Option.bind_some, Value.get_ordered]
      cases message.get "content" with
      | none => rfl
      | some content => exact Value.asArray_ordered content

/-- What the items of a message are sent as, with the marker of the conversation in the last of them. -/
def sentItems (marker : Value φ) (marked : Bool) (content : List (ContentBlock φ)) : List (Value φ) :=
  if marked then (content.map ContentBlock.wireValue).modifyLast fun block => block.putEntry "cache_control" marker
  else content.map ContentBlock.wireValue

/-- The blocks with the marker in the last of them. -/
def sentBlocks (marker : Value φ) (marked : Bool) (content : List (ContentBlock φ)) : List (ContentBlock φ) :=
  if marked then content.modifyLast (ContentBlock.mark marker) else content

theorem mapM_wireValue {content : List (ContentBlock φ)} (h : ∀ block ∈ content, block.Named) :
    (content.map ContentBlock.wireValue).mapM ContentBlock.fromWireValue = .ok content := by
  induction content with
  | nil => rfl
  | cons block content ih =>
    obtain ⟨hblock, hcontent⟩ := List.forall_mem_cons.mp h
    rw [List.map_cons, List.mapM_cons, ContentBlock.fromWireValue_wireValue block hblock, ih hcontent]
    rfl

/-- The items that are sent for blocks that have a name are read as these blocks. -/
theorem mapM_sentItems {content : List (ContentBlock φ)} (h : ∀ block ∈ content, block.Named) (marker : Value φ)
    (marked : Bool) :
    (sentItems marker marked content).mapM ContentBlock.fromWireValue = .ok (sentBlocks marker marked content) := by
  cases marked with
  | false => exact mapM_wireValue h
  | true =>
    rw [sentItems, sentBlocks, if_pos rfl, if_pos rfl]
    rcases List.eq_nil_or_concat content with rfl | ⟨init, block, rfl⟩
    · rfl
    · rw [List.concat_eq_append, List.forall_mem_append] at h
      have hnamed := h.2 block (List.mem_singleton_self block)
      have hblock : ContentBlock.fromWireValue (block.wireValue.putEntry "cache_control" marker) =
          .ok (block.mark marker) := by
        rw [ContentBlock.fromWireValue_mark, ContentBlock.fromWireValue_wireValue block hnamed]
        rfl
      rw [List.concat_eq_append, List.map_append, List.map_singleton, List.modifyLast_concat, List.modifyLast_concat,
        List.mapM_append, mapM_wireValue h.1, List.mapM_cons, hblock]
      rfl

theorem mapM_ordered (items : List (Value φ)) :
    (items.map Value.ordered).mapM ContentBlock.fromWireValue =
      (items.mapM ContentBlock.fromWireValue).map (List.map ContentBlock.ordered) := by
  induction items with
  | nil => rfl
  | cons item items ih =>
    rw [List.map_cons, List.mapM_cons, List.mapM_cons, ih, ContentBlock.fromWireValue_ordered]
    cases ContentBlock.fromWireValue item with
    | error e => rfl
    | ok block => cases items.mapM ContentBlock.fromWireValue <;> rfl

theorem forall₂_ordered {blocks content : List (ContentBlock φ)} :
    List.Forall₂ ContentBlock.Same (blocks.map ContentBlock.ordered) content ↔
      List.Forall₂ ContentBlock.Same blocks content := by
  rw [List.forall₂_map_left_iff]
  have hsame : ∀ block block' : ContentBlock φ, block.ordered.Same block' ↔ block.Same block' := by
    intro block block'
    rw [ContentBlock.Same, ContentBlock.ordered_ordered]
    rfl
  simp only [hsame]

theorem modifyEntry_messageValue (message : Message φ) (f : Value φ → Value φ) :
    ((messageValue message).modifyEntry "content" f).get "content" =
      some (f (.array (message.content.map ContentBlock.wireValue))) := by
  have hget : (messageValue message).get "content" = some (.array (message.content.map ContentBlock.wireValue)) := rfl
  rw [Value.modifyEntry, hget]
  exact Value.get_putEntry_self hget _

/-- A marker is put into a message only where no other follows. -/
theorem contentAt_markMessages (marker : Value φ) (before after : List (Message φ)) (message : Message φ) :
    (((markMessages marker (messagesValue (before ++ message :: after))).getIdx before.length).bind fun message =>
      message.get "content").bind Value.asArray = some (sentItems marker after.isEmpty message.content) := by
  rw [markMessages, messagesValue, List.map_append, List.map_cons, Value.modifyLast, Value.getIdx]
  cases after with
  | nil =>
    rw [List.map_nil, List.modifyLast_concat, List.getElem?_append_right (by simp), List.length_map, Nat.sub_self,
      List.getElem?_cons_zero, Option.bind_some, modifyEntry_messageValue]
    rfl
  | cons next after =>
    rw [List.append_cons, List.modifyLast_append_of_right_ne_nil _ _ _ (by simp), List.getElem?_append_left (by simp),
      List.getElem?_append_right (by simp), List.length_map, Nat.sub_self]
    rfl

theorem contentAt_messagesValue (before after : List (Message φ)) (message : Message φ) :
    (((messagesValue (before ++ message :: after)).getIdx before.length).bind fun message =>
      message.get "content").bind Value.asArray = some (message.content.map ContentBlock.wireValue) := by
  rw [messagesValue, List.map_append, List.map_cons, Value.getIdx, List.getElem?_append_right (by simp), List.length_map,
    Nat.sub_self]
  rfl

section

variable (float : List UInt8 → Option φ) (showFloat : φ → List Char) (model : String) (request : PlannedRequest φ)

/-- What replaying is for: the request is rendered, and the content that the message has in the one value its text spells
is read as the same blocks in the same order. -/
def Replays (index : Nat) (content : List (ContentBlock φ)) : Prop :=
  ∃ out, (Client.mk (.forKind .anthropic) model).renderBody fromStr showFloat request = .ok out ∧
    ∃ body, (∀ body', IsText float out body' ↔ body' = body) ∧ ∃ items blocks, contentAt body index = some items ∧
      items.mapM ContentBlock.fromWireValue = .ok blocks ∧ List.Forall₂ ContentBlock.Same blocks content

/-- The request puts a marker into the last block of its last message. -/
def marksLast (after : List (Message φ)) : Bool := .bp4PreviousTurn ∈ request.effectiveBreakpoints && after.isEmpty

variable {request} {before after : List (Message φ)} {message : Message φ}

/-- The content of a message in the text a request is rendered to. -/
theorem renderBody_content (hmessages : request.messages = before ++ message :: after)
    (hexact : request.exact fromStr = true) :
    ∃ out body, (Client.mk (.forKind .anthropic) model).renderBody fromStr showFloat request = .ok out ∧
      (∀ body', IsText float out body' ↔ body' = body) ∧ contentAt body before.length =
        some ((sentItems (cacheControl .bp4PreviousTurn) (marksLast request after) message.content).map
          Value.ordered) := by
  obtain ⟨body, -, hbody, hrender, hget⟩ := renderBody_ok fromStr showFloat model hexact
  refine ⟨_, _, hrender, isText_emit float showFloat hbody, ?_⟩
  rw [contentAt_ordered, contentAt]
  have hlookup : (Value.object body.entries).get "messages" = body.get "messages" :=
    (OrdMap.getIn_eq_lookup "messages" body.entries).symm
  rw [hlookup, hget, hmessages, Option.bind_some]
  by_cases hmarked : .bp4PreviousTurn ∈ request.effectiveBreakpoints
  · rw [if_pos hmarked, contentAt_markMessages, marksLast, decide_eq_true hmarked, Bool.true_and]
    rfl
  · rw [if_neg hmarked, id, contentAt_messagesValue, marksLast, decide_eq_false hmarked, Bool.false_and]
    rfl

/-- A rendered request replays a message exactly where the items that are sent for it are read as its blocks. -/
theorem replays_iff (hmessages : request.messages = before ++ message :: after) (hexact : request.exact fromStr = true)
    (content : List (ContentBlock φ)) :
    Replays fromStr float showFloat model request before.length content ↔
      ∃ blocks, (sentItems (cacheControl .bp4PreviousTurn) (marksLast request after) message.content).mapM
        ContentBlock.fromWireValue = .ok blocks ∧ List.Forall₂ ContentBlock.Same blocks content := by
  obtain ⟨out, body, hrender, htext, hcontent⟩ := renderBody_content fromStr float showFloat model hmessages hexact
  constructor
  · rintro ⟨out', hrender', body', htext', items, blocks, hitems, hblocks, hsame⟩
    obtain rfl := Except.ok.inj (hrender.symm.trans hrender')
    obtain rfl := (htext body').mp ((htext' body').mpr rfl)
    obtain rfl := Option.some.inj (hcontent.symm.trans hitems)
    rw [mapM_ordered] at hblocks
    cases hread : (sentItems (cacheControl .bp4PreviousTurn) (marksLast request after) message.content).mapM
        ContentBlock.fromWireValue with
    | error e =>
      rw [hread] at hblocks
      cases hblocks
    | ok read =>
      rw [hread] at hblocks
      cases hblocks
      exact ⟨read, rfl, forall₂_ordered.mp hsame⟩
  · rintro ⟨blocks, hblocks, hsame⟩
    refine ⟨out, hrender, body, htext, _, blocks.map ContentBlock.ordered, hcontent, ?_, forall₂_ordered.mpr hsame⟩
    rw [mapM_ordered, hblocks]
    rfl

/-- Every completion that is read is replayed by the requests that carry it, with a marker in the last block where one
belongs there, if no value in the request is a float and each block left as it came has a type, and not that of a
result. A request that is not rendered is refused for a float. -/
theorem replays_completion {response : Response} {thinking : Thinking} {completion : Completion φ}
    (hread : readAnthropicSse fromStr response thinking = .ok completion)
    (hmessages : request.messages = before ++ ⟨.assistant, completion.content⟩ :: after)
    (hkinds : ∀ raw, .unknown raw ∈ completion.content →
      ∃ kind, raw.get "type" = some (.string kind) ∧ kind ≠ "tool_result") :
    (request.exact fromStr = true → Replays fromStr float showFloat model request before.length
      (sentBlocks (cacheControl .bp4PreviousTurn) (marksLast request after) completion.content)) ∧
    ∀ e, (Client.mk (.forKind .anthropic) model).renderBody fromStr showFloat request = .error e →
      ∃ path, e = .float path := by
  refine ⟨fun hexact => ?_, fun e => renderBody_error fromStr showFloat model⟩
  have hnamed : ∀ block ∈ completion.content, block.Named := by
    intro block hblock
    cases block with
    | unknown raw =>
      obtain ⟨kind, hkind, hresult⟩ := hkinds raw hblock
      have hforeign := readAnthropicSse_foreign fromStr hread hblock
      rw [Foreign, Value.strOrDefault, hkind] at hforeign
      refine ⟨kind, hkind, fun hmem => ?_⟩
      simp only [ContentBlock.kinds, List.mem_cons, List.not_mem_nil, or_false] at hmem
      simp only [Option.bind_some, Value.asStr, Option.getD_some, List.mem_cons, List.not_mem_nil, or_false] at hforeign
      rcases hmem with h | h | h | h | h
      · exact hforeign (.inl h)
      · exact hforeign (.inr (.inl h))
      · exact hforeign (.inr (.inr (.inl h)))
      · exact hforeign (.inr (.inr (.inr h)))
      · exact hresult h
    | _ => trivial
  rw [replays_iff fromStr float showFloat model hmessages hexact]
  exact ⟨_, mapM_sentItems hnamed _ _, List.forall₂_same.mpr fun _ _ => rfl⟩

end

/-! ## Responses of one block -/

/-- The bytes of an event. -/
def frame (payload : String) : List UInt8 := bytesOf "data:" ++ bytesOf payload ++ [10, 10]

/-- The payload of an event, that the reader finds in it. -/
def Framed (payload : String) : Prop :=
  findSseEventEnd (frame payload) = some (frame payload).length ∧ ssePayload (frame payload) = .ok (some payload) ∧
    payload ≠ "[DONE]" ∧ (frame payload).length ≤ maxAnthropicEventBytes

instance (payload : String) : Decidable (Framed payload) := inferInstanceAs (Decidable (_ ∧ _))

/-- The two line feeds behind a text without line breaks are where it ends. -/
theorem not_end_early {text : List UInt8} (feed : 10 ∉ text) (return_ : 13 ∉ text) {earlier : Nat}
    (early : earlier < (text ++ [10, 10]).length) :
    ¬ ([10, 10] <:+ (text ++ [10, 10]).take earlier ∨ [13, 10, 13, 10] <:+ (text ++ [10, 10]).take earlier) := by
  have inside (front : List UInt8) {a b : UInt8} (ends : front ++ [a, b] = (text ++ [10, 10]).take earlier) :
      a ∈ text := by
    have shorter := congrArg List.dropLast ends
    rw [List.append_cons, List.dropLast_concat, List.dropLast_take early] at shorter
    rw [List.length_append, List.length_cons, List.length_singleton] at early
    rw [List.take_append_of_le_length (by omega)] at shorter
    exact List.mem_of_mem_take (shorter ▸ List.mem_append_right _ (List.mem_singleton_self a))
  rintro (⟨front, ends⟩ | ⟨front, ends⟩)
  · exact feed (inside front ends)
  · exact return_ (inside (front ++ [13, 10]) (by rw [List.append_assoc]; exact ends))

theorem length_encode_le (cs : List Char) : (encode cs).length ≤ 4 * cs.length := by
  induction cs with
  | nil => exact Nat.zero_le _
  | cons c cs ih =>
    have := c.utf8Size_le_four
    rw [Utf8.encode_cons, List.length_append, String.length_utf8EncodeChar, List.length_cons]
    omega

/-- A text between characters that are no white space is trimmed. -/
theorem trim_of_ends {text : List Char} {c d : Char} (first : text.head? = some c) (last : text.getLast? = some d)
    (hc : Str.isWhitespace c = false) (hd : Str.isWhitespace d = false) : Str.trim text = text := by
  have front : text.dropWhile Str.isWhitespace = text := Trim.dropWhile_of_head fun e mem => by
    rw [first] at mem
    exact Option.some.inj mem ▸ hc
  have back : text.reverse.dropWhile Str.isWhitespace = text.reverse := Trim.dropWhile_of_head fun e mem => by
    rw [List.head?_reverse, last] at mem
    exact Option.some.inj mem ▸ hd
  rw [Str.trim, front, back, List.reverse_reverse]

theorem framed_of_plain {payload : String} (feed : '\n' ∉ payload.toList) (return_ : '\r' ∉ payload.toList)
    (first : payload.toList.head? = some '\x7b') (last : payload.toList.getLast? = some '\x7d')
    (short : payload.toList.length < 2 ^ 17) : Framed payload := by
  have bytes : frame payload = encode ("data:".toList ++ payload.toList) ++ [10, 10] := by
    rw [Utf8.encode_append]
    rfl
  have noFeed : '\n' ∉ "data:".toList ++ payload.toList := by simp [feed]
  have noReturn : '\r' ∉ "data:".toList ++ payload.toList := by simp [return_]
  have undone : payload ≠ "[DONE]" := by
    rintro rfl
    exact absurd first (by decide)
  refine ⟨?_, ?_, undone, ?_⟩
  · rw [bytes]
    refine (findSseEventEnd_finds _ _).2 ⟨le_refl _, ?_, fun earlier early => ?_⟩
    · rw [List.take_length]
      exact .inl (List.suffix_append _ _)
    · exact not_end_early (fun mem => noFeed (Utf8.mem_of_mem_encode (by decide) mem))
        (fun mem => noReturn (Utf8.mem_of_mem_encode (by decide) mem)) early
  · have text : frame payload = encode (("data:".toList ++ payload.toList) ++ '\n' :: ['\n']) := by
      rw [bytes, Utf8.encode_append _ ['\n', '\n']]
      rfl
    have found : dataOf ("data:".toList ++ payload.toList) = some payload := by
      have stripped : Str.stripPrefix "data:".toList ("data:".toList ++ payload.toList) = some payload.toList := by
        rw [Str.stripPrefix, if_pos (by simp), List.drop_left]
      rw [dataOf, stripped, Option.map_some, trim_of_ends first last rfl rfl, String.ofList_toList]
    rw [ssePayload, text, Str.fromUtf8_encode]
    dsimp only
    rw [Str.lines, Str.linesFrom_append noFeed, List.nil_append, Str.linesFrom_feed noReturn, List.filterMap_cons_some found]
    rfl
  · have bound := length_encode_le ("data:".toList ++ payload.toList)
    rw [List.length_append] at bound
    have five : "data:".toList.length = 5 := rfl
    rw [bytes, maxAnthropicEventBytes, List.length_append, List.length_cons, List.length_singleton]
    omega

/-- The characters of a payload that is written out need not be read from its bytes. -/
theorem framed_of_chars {payload : String} {cs : List Char} (chars : payload = String.ofList cs)
    (plain : '\n' ∉ cs ∧ '\r' ∉ cs ∧ cs.head? = some '\x7b' ∧ cs.getLast? = some '\x7d' ∧ cs.length < 2 ^ 17) :
    Framed payload := by
  have listed : cs = payload.toList := by rw [chars, String.toList_ofList]
  rw [listed] at plain
  obtain ⟨feed, return_, first, last, short⟩ := plain
  exact framed_of_plain feed return_ first last short

theorem anthropicEvent_frame {payload : String} (h : Framed payload) {event : Value φ}
    (hevent : fromStr payload = .ok event) {s s' : AnthropicStream φ} (happly : s.event fromStr event = .ok s') :
    anthropicEvent fromStr s (frame payload) = .ok s' := by
  obtain ⟨-, hpayload, hdone, hlen⟩ := h
  simp only [anthropicEvent, if_neg (Nat.not_lt.mpr hlen), hpayload, if_neg hdone, hevent, happly]
  rfl

/-- A body of events, one in each chunk, is read as they say. -/
theorem anthropicChunks_frames {payloads : List String} (hframed : ∀ payload ∈ payloads, Framed payload)
    {events : List (Value φ)} (hevents : payloads.mapM fromStr = .ok events) {s s' : AnthropicStream φ}
    (hfeed : feed fromStr s events = .ok s') {received : Nat}
    (hbound : received + (payloads.map frame).flatten.length ≤ maxAnthropicStreamBytes) :
    anthropicChunks fromStr received s [] (payloads.map frame) = .ok (s', []) := by
  induction payloads generalizing events s received with
  | nil =>
    cases hevents
    cases hfeed
    rfl
  | cons payload payloads ih =>
    obtain ⟨hhead, htail⟩ := List.forall_mem_cons.mp hframed
    rw [List.mapM_cons, bind_eq_ok] at hevents
    obtain ⟨event, hevent, hevents⟩ := hevents
    rw [bind_eq_ok] at hevents
    obtain ⟨rest, hrest, hevents⟩ := hevents
    cases hevents
    rw [feed, List.foldlM_cons, bind_eq_ok] at hfeed
    obtain ⟨next, happly, hfeed⟩ := hfeed
    rw [List.map_cons, List.flatten_cons, List.length_append, ← Nat.add_assoc] at hbound
    have hend : sseFraming.findEnd (frame payload) = some (frame payload).length := hhead.1
    have hnone : sseFraming.findEnd [] = none := findSseEventEnd_nil
    have hdrain : sseFraming.drain (anthropicEvent fromStr) s ([] ++ frame payload) = .ok (next, []) := by
      rw [List.nil_append, Framing.drain_some sseFraming _ hend, List.take_length, List.drop_length,
        anthropicEvent_frame fromStr hhead hevent happly]
      exact Framing.drain_none sseFraming _ hnone next
    have htotal := Nat.not_lt.mpr (Nat.le_trans (Nat.le_add_right _ _) hbound)
    simp only [List.map_cons, anthropicChunks, if_neg htotal, hdrain]
    exact ih htail hrest hfeed hbound

def deltaText : String := "\x7b\"type\":\"message_delta\",\"delta\":\x7b\"stop_reason\":\"end_turn\"\x7d\x7d"

def stopText : String := "\x7b\"type\":\"message_stop\"\x7d"

def startEvent (raw : Value Unit) : Value Unit :=
  .object [("message", .object [("content", .array [raw])]), ("type", .string "message_start")]

def deltaEvent : Value Unit :=
  .object [("delta", .object [("stop_reason", .string "end_turn")]), ("type", .string "message_delta")]

def stopEvent : Value Unit := .object [("type", .string "message_stop")]

/-- The parser on these texts and on one that starts a message with a block. -/
def sampleFromStr (start : String) (raw : Value Unit) (text : String) : Except String (Value Unit) :=
  if text = start then .ok (startEvent raw)
  else if text = deltaText then .ok deltaEvent
  else if text = stopText then .ok stopEvent
  else .error "expected value"

def samplePayloads (start : String) : List String := [start, deltaText, stopText]

def sampleResponse (start : String) : Response := ⟨none, [], (samplePayloads start).map frame, none⟩

def sampleCompletion (content : ContentBlock Unit) : Completion Unit :=
  ⟨[content], .endTurn, none, "", none, none, ⟨0⟩⟩

theorem mapM_samplePayloads {start : String} (raw : Value Unit) (h : (samplePayloads start).Nodup) :
    (samplePayloads start).mapM (sampleFromStr start raw) = .ok [startEvent raw, deltaEvent, stopEvent] := by
  simp only [samplePayloads, List.nodup_cons, List.mem_cons, List.not_mem_nil, or_false, not_or] at h
  obtain ⟨⟨hdelta, hstop⟩, hboth, -⟩ := h
  have hstart : sampleFromStr start raw (start) = .ok (startEvent raw) := if_pos rfl
  have hdelta' : sampleFromStr start raw deltaText = .ok deltaEvent := by
    rw [sampleFromStr, if_neg (Ne.symm hdelta), if_pos rfl]
  have hstop' : sampleFromStr start raw stopText = .ok stopEvent := by
    rw [sampleFromStr, if_neg (Ne.symm hstop), if_neg (Ne.symm hboth), if_pos rfl]
  rw [samplePayloads, List.mapM_cons, List.mapM_cons, List.mapM_cons, hstart, hdelta', hstop']
  rfl

/-- A response of one block is read as the completion of that block. -/
theorem read_sample {start : String} {raw : Value Unit} {content : ContentBlock Unit}
    (hframed : ∀ payload ∈ samplePayloads start, Framed payload) (hdistinct : (samplePayloads start).Nodup)
    (hfinish : (AnthropicBlock.start raw).finish (sampleFromStr start raw) = .ok content) :
    readAnthropicSse (sampleFromStr start raw) (sampleResponse start) ⟨0⟩ = .ok (sampleCompletion content) := by
  have hstart : AnthropicStream.event (sampleFromStr start raw) {} (startEvent raw) =
      .ok { complete := (∅ : Std.ExtTreeMap UInt32 (ContentBlock Unit)).insert 0 content } := by
    have hblocks : AnthropicStream.insertBlocks (sampleFromStr start raw) {} 0 [raw] =
        .ok { complete := (∅ : Std.ExtTreeMap UInt32 (ContentBlock Unit)).insert 0 content } := by
      simp only [AnthropicStream.insertBlocks, hfinish]
      rfl
    exact hblocks
  have hfeed : feed (sampleFromStr start raw) {} [startEvent raw, deltaEvent, stopEvent] =
      .ok { complete := (∅ : Std.ExtTreeMap UInt32 (ContentBlock Unit)).insert 0 content,
            stopReason := some .endTurn, sawMessageStop := true } := by
    rw [feed, List.foldlM_cons, hstart]
    rfl
  have hbound : 0 + ((samplePayloads start).map frame).flatten.length ≤ maxAnthropicStreamBytes := by
    have hstartLen := (hframed (start) (by simp [samplePayloads])).2.2.2
    have hdeltaLen := (hframed deltaText (by simp [samplePayloads])).2.2.2
    have hstopLen := (hframed stopText (by simp [samplePayloads])).2.2.2
    simp only [samplePayloads, List.map_cons, List.map_nil, List.flatten_cons, List.flatten_nil, List.length_append,
      List.length_nil]
    rw [maxAnthropicEventBytes] at hstartLen hdeltaLen hstopLen
    rw [maxAnthropicStreamBytes]
    omega
  have hchunks := anthropicChunks_frames (sampleFromStr start raw) hframed (mapM_samplePayloads raw hdistinct) hfeed hbound
  rw [readAnthropicSse, sampleResponse, hchunks]
  rfl

/-- A request that carries a completion and nothing else. -/
def sampleRequest (content : List (ContentBlock Unit)) (breakpoints : List Breakpoint) : PlannedRequest Unit :=
  ⟨⟨[⟨.assistant, content⟩], [], ⟨0⟩⟩, .anthropic, breakpoints⟩

theorem messages_sampleRequest (content : List (ContentBlock Unit)) (breakpoints : List Breakpoint) :
    (sampleRequest content breakpoints).messages = [] ++ ⟨.assistant, content⟩ :: [] := rfl

/-- A tool call with a float in its input. -/
def floatText : String :=
  "\x7b\"type\":\"message_start\",\"message\":\x7b\"content\":[\x7b\"id\":\"a\",\"input\":\x7b\"t\":0.5\x7d,\"name\":\"b\",\"type\":\"tool_use\"\x7d]\x7d\x7d"

def floatRaw : Value Unit := .object [("id", .string "a"), ("input", .object [("t", .number (.float ()))]),
  ("name", .string "b"), ("type", .string "tool_use")]

/-- A block without a type. -/
def untypedText : String :=
  "\x7b\"type\":\"message_start\",\"message\":\x7b\"content\":[\x7b\"text\":\"a\"\x7d]\x7d\x7d"

def untypedRaw : Value Unit := .object [("text", .string "a")]

/-- A block with the type of a result. -/
def resultText : String :=
  "\x7b\"type\":\"message_start\",\"message\":\x7b\"content\":[\x7b\"tool_use_id\":\"a\",\"type\":\"tool_result\"\x7d]\x7d\x7d"

def resultRaw : Value Unit := .object [("tool_use_id", .string "a"), ("type", .string "tool_result")]

/-- A block of a type that is not interpreted. -/
def foreignText : String :=
  "\x7b\"type\":\"message_start\",\"message\":\x7b\"content\":[\x7b\"type\":\"container_upload\"\x7d]\x7d\x7d"

def foreignRaw : Value Unit := .object [("type", .string "container_upload")]

theorem payloads_framed :
    ∀ payload ∈ [floatText, untypedText, resultText, foreignText] ++ [deltaText, stopText], Framed payload := by
  simp only [List.cons_append, List.nil_append, List.forall_mem_cons]
  refine ⟨?_, ?_, ?_, ?_, ?_, ?_, List.forall_mem_nil _⟩
  · exact framed_of_chars rfl (by decide)
  · exact framed_of_chars rfl (by decide)
  · exact framed_of_chars rfl (by decide)
  · exact framed_of_chars rfl (by decide)
  · exact framed_of_chars rfl (by decide)
  · exact framed_of_chars rfl (by decide)

theorem payloads_distinct : ∀ start ∈ [floatText, untypedText, resultText, foreignText], (samplePayloads start).Nodup := by
  decide

theorem samples_framed {start : String} (hstart : start ∈ [floatText, untypedText, resultText, foreignText]) :
    (∀ payload ∈ samplePayloads start, Framed payload) ∧ (samplePayloads start).Nodup := by
  refine ⟨?_, payloads_distinct start hstart⟩
  intro payload hpayload
  apply payloads_framed
  rcases List.mem_cons.mp hpayload with rfl | hpayload
  · exact List.mem_append_left _ hstart
  · exact List.mem_append_right _ hpayload

theorem replays_completion_foreign :
    let content := (sampleCompletion (.unknown foreignRaw)).content
    let request := sampleRequest content [.bp4PreviousTurn]
    let fromStr := sampleFromStr foreignText foreignRaw
    (request.exact fromStr = true → Replays fromStr (fun _ => some ()) (fun _ => []) "claude-opus-5" request 0
      (sentBlocks (cacheControl .bp4PreviousTurn) (marksLast request []) content)) ∧
    ∀ e, (Client.mk (.forKind .anthropic) "claude-opus-5").renderBody fromStr (fun _ => []) request = .error e →
      ∃ path, e = .float path := by
  obtain ⟨hframed, hdistinct⟩ := samples_framed (show foreignText ∈ _ from by simp)
  refine replays_completion (sampleFromStr foreignText foreignRaw) (fun _ => some ()) (fun _ => []) "claude-opus-5"
    (read_sample hframed hdistinct rfl) (messages_sampleRequest _ _) ?_
  intro raw hraw
  obtain rfl := ContentBlock.unknown.inj (List.mem_singleton.mp hraw)
  exact ⟨"container_upload", rfl, by decide⟩

/-- The response is read, and the request that carries the completion does not replay it. -/
def Loses (start : String) (raw : Value Unit) (breakpoints : List Breakpoint) : Prop :=
  ∃ completion, readAnthropicSse (sampleFromStr start raw) (sampleResponse start) ⟨0⟩ = .ok completion ∧
    ¬ Replays (sampleFromStr start raw) (fun _ => some ()) (fun _ => []) "claude-opus-5"
      (sampleRequest completion.content breakpoints) 0 completion.content

/-- A completion with a float is not rendered, a block without a type is not read back, one with the type of a result is
read as a result, and the last block comes back with the marker. -/
theorem replays_fails : Loses floatText floatRaw [] ∧ Loses untypedText untypedRaw [] ∧
    Loses resultText resultRaw [] ∧ Loses foreignText foreignRaw [.bp4PreviousTurn] := by
  refine ⟨?_, ?_, ?_, ?_⟩
  · obtain ⟨hframed, hdistinct⟩ := samples_framed (show floatText ∈ _ from by simp)
    refine ⟨_, read_sample hframed hdistinct rfl, ?_⟩
    rintro ⟨out, hout, -⟩
    obtain ⟨body, hbody, hcanonical⟩ := bind_eq_ok.mp hout
    obtain ⟨_, hcheck, -⟩ := bind_eq_ok.mp hcanonical
    cases hbody
    exact absurd ((check_iff "$" _).mp hcheck) (by decide)
  · obtain ⟨hframed, hdistinct⟩ := samples_framed (show untypedText ∈ _ from by simp)
    refine ⟨_, read_sample hframed hdistinct rfl, ?_⟩
    intro h
    obtain ⟨blocks, hblocks, -⟩ := (replays_iff _ _ _ _ (messages_sampleRequest _ _) rfl _).mp h
    cases hblocks
  · obtain ⟨hframed, hdistinct⟩ := samples_framed (show resultText ∈ _ from by simp)
    refine ⟨_, read_sample hframed hdistinct rfl, ?_⟩
    intro h
    obtain ⟨blocks, hblocks, hsame⟩ := (replays_iff _ _ _ _ (messages_sampleRequest _ _) rfl _).mp h
    cases hblocks
    cases hsame with
    | cons hhead _ => cases hhead
  · obtain ⟨hframed, hdistinct⟩ := samples_framed (show foreignText ∈ _ from by simp)
    refine ⟨_, read_sample hframed hdistinct rfl, ?_⟩
    intro h
    obtain ⟨blocks, hblocks, hsame⟩ := (replays_iff _ _ _ _ (messages_sampleRequest _ _) rfl _).mp h
    cases hblocks
    cases hsame with
    | cons hhead _ =>
      have hraw := ContentBlock.unknown.inj hhead
      have hget := congrArg (Value.get · "cache_control") hraw
      simp only [Value.get_ordered] at hget
      cases hget

end SupraHarness.Llm
