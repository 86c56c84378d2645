import SupraHarness.Llm.Sse

/-!
# The blocks of a message

What the events of a stream say about its content, told block by block: each index has a history
of its own, and a block that was started and closed once is its start value extended by its deltas.
The protocol state keeps exactly this, and the completion holds the blocks in the order of their
indices. The one event that is neither applied nor refused closes a block that was started from a
value no input can be set in.
-/
namespace SupraHarness.Llm

open AnthropicBlock (applyDelta)
open Results (bind_eq_ok bind_eq_error)

variable {φ : Type} (fromStr : String → Except String (Value φ))

/-! ## Histories -/

inductive BlockEvent (φ : Type) where
  | start (raw : Value φ)
  | delta (delta : Value φ)
  | stop

/-- What a protocol event that names an index does to the block there. -/
def addressed (event : Value φ) (what : Option (BlockEvent φ)) : List (UInt32 × BlockEvent φ) :=
  match eventIndex event, what with
  | .ok index, some what => [(index, what)]
  | _, _ => []

/-- A block that comes complete is started and closed at once. -/
def arrive (index : Nat) : List (Value φ) → List (UInt32 × BlockEvent φ)
  | [] => []
  | raw :: raws => (.ofNat index, .start raw) :: (.ofNat index, .stop) :: arrive (index + 1) raws

def blockEvents (event : Value φ) : List (UInt32 × BlockEvent φ) :=
  match event.strOrDefault "type" with
  | "message_start" =>
    arrive 0 (((event.get "message").bind fun message =>
      (message.get "content").bind Value.asArray).getD [])
  | "content_block_start" => addressed event ((event.get "content_block").map .start)
  | "content_block_delta" => addressed event ((event.get "delta").map .delta)
  | "content_block_stop" => addressed event (some .stop)
  | _ => []

/-- The part of a history that is about one index. -/
def onlyAt (index : UInt32) (history : List (UInt32 × BlockEvent φ)) : List (BlockEvent φ) :=
  history.filterMap fun entry => if entry.1 = index then some entry.2 else none

/-- What the events say about one index. -/
def historyOf (events : List (Value φ)) (index : UInt32) : List (BlockEvent φ) :=
  onlyAt index (events.flatMap blockEvents)

/-! ## Blocks extended by their deltas -/

/-- The texts of the deltas of one kind, joined. -/
def joined (kind key : String) : List (Value φ) → String
  | [] => ""
  | delta :: deltas =>
    (if delta.strOrDefault "type" = kind then delta.strOrDefault key else "") ++
      joined kind key deltas

/-- The citations the deltas carry. -/
def cited : List (Value φ) → List (Value φ)
  | [] => []
  | delta :: deltas =>
    (if delta.strOrDefault "type" = "citations_delta" ∨ delta.strOrDefault "type" = "citation_delta"
      then (delta.get "citation").toList else []) ++ cited deltas

def Only (kinds : List String) (deltas : List (Value φ)) : Prop :=
  ∀ delta ∈ deltas, delta.strOrDefault "type" ∈ kinds

/-- The input of a tool: what its deltas spell, or what it was started with if they spell nothing. -/
def Spells (spelled : String) (initial input : Value φ) : Prop :=
  if spelled = "" then input = initial else fromStr spelled = .ok input

/-- The block that a start value has become, extended by its deltas. -/
def Extends (raw : Value φ) (deltas : List (Value φ)) (block : ContentBlock φ) : Prop :=
  match raw.strOrDefault "type" with
  | "text" =>
    Only ["text_delta", "citations_delta", "citation_delta"] deltas ∧
      block = .text (raw.strOrDefault "text" ++ joined "text_delta" "text" deltas)
        (((raw.get "citations").bind Value.asArray).getD [] ++ cited deltas)
  | "thinking" =>
    Only ["thinking_delta", "signature_delta"] deltas ∧
      block = .thinking (raw.strOrDefault "thinking" ++ joined "thinking_delta" "thinking" deltas)
        (raw.strOrDefault "signature" ++ joined "signature_delta" "signature" deltas)
  | "redacted_thinking" => deltas = [] ∧ block = .redactedThinking (raw.strOrDefault "data")
  | "tool_use" =>
    Only ["input_json_delta"] deltas ∧
      ∃ input, Spells fromStr (joined "input_json_delta" "partial_json" deltas)
          ((raw.get "input").getD .null) input ∧
        block = .toolUse (raw.strOrDefault "id") (raw.strOrDefault "name") input
  | _ =>
    Only ["input_json_delta"] deltas ∧
      ∃ raw', block = .unknown raw' ∧
        if joined "input_json_delta" "partial_json" deltas = "" then raw' = raw
        else ∃ input, fromStr (joined "input_json_delta" "partial_json" deltas) = .ok input ∧
          raw.assign "input" input = some raw'

/-- The kinds of deltas a block takes. -/
def accepted : AnthropicBlock φ → List String
  | .text .. => ["text_delta", "citations_delta", "citation_delta"]
  | .thinking .. => ["thinking_delta", "signature_delta"]
  | .redactedThinking _ => []
  | .toolUse .. => ["input_json_delta"]
  | .unknown .. => ["input_json_delta"]

/-- A block with what its deltas add. -/
def extended (block : AnthropicBlock φ) (deltas : List (Value φ)) : AnthropicBlock φ :=
  match block with
  | .text prose citations =>
    .text (prose ++ joined "text_delta" "text" deltas) (citations ++ cited deltas)
  | .thinking thought signature =>
    .thinking (thought ++ joined "thinking_delta" "thinking" deltas)
      (signature ++ joined "signature_delta" "signature" deltas)
  | .redactedThinking data => .redactedThinking data
  | .toolUse id name input partialJson =>
    .toolUse id name input (partialJson ++ joined "input_json_delta" "partial_json" deltas)
  | .unknown raw partialJson =>
    .unknown raw (partialJson ++ joined "input_json_delta" "partial_json" deltas)

@[simp] theorem accepted_extended (block : AnthropicBlock φ) (deltas : List (Value φ)) :
    accepted (extended block deltas) = accepted block := by
  cases block <;> rfl

@[simp] theorem extended_nil (block : AnthropicBlock φ) : extended block [] = block := by
  cases block <;> simp [extended, joined, cited]

theorem extended_cons (block : AnthropicBlock φ) (delta : Value φ) (deltas : List (Value φ)) :
    extended block (delta :: deltas) = extended (extended block [delta]) deltas := by
  cases block <;> simp [extended, joined, cited, String.append_assoc]

theorem applyDelta_eq_ok {block block' : AnthropicBlock φ} {delta : Value φ}
    (h : applyDelta block delta = .ok block') :
    delta.strOrDefault "type" ∈ accepted block ∧ block' = extended block [delta] := by
  cases block with
  | text prose citations =>
    simp only [applyDelta] at h
    by_cases ht : delta.strOrDefault "type" = "text_delta"
    · rw [if_pos ht] at h
      cases h
      simp [accepted, extended, joined, cited, ht]
    · rw [if_neg ht] at h
      by_cases hc : delta.strOrDefault "type" = "citations_delta" ∨
          delta.strOrDefault "type" = "citation_delta"
      · rw [if_pos hc] at h
        cases h
        simp [accepted, extended, joined, cited, ht, hc]
      · rw [if_neg hc] at h
        cases h
  | thinking thought signature =>
    simp only [applyDelta] at h
    by_cases ht : delta.strOrDefault "type" = "thinking_delta"
    · rw [if_pos ht] at h
      cases h
      simp [accepted, extended, joined, ht]
    · rw [if_neg ht] at h
      by_cases hs : delta.strOrDefault "type" = "signature_delta"
      · rw [if_pos hs] at h
        cases h
        simp [accepted, extended, joined, hs]
      · rw [if_neg hs] at h
        cases h
  | redactedThinking data => cases h
  | toolUse id name input partialJson =>
    simp only [applyDelta] at h
    by_cases ht : delta.strOrDefault "type" = "input_json_delta"
    · rw [if_pos ht] at h
      cases h
      simp [accepted, extended, joined, ht]
    · rw [if_neg ht] at h
      cases h
  | unknown raw partialJson =>
    simp only [applyDelta] at h
    by_cases ht : delta.strOrDefault "type" = "input_json_delta"
    · rw [if_pos ht] at h
      cases h
      simp [accepted, extended, joined, ht]
    · rw [if_neg ht] at h
      cases h

/-- Deltas that were all applied have extended the block, each in its turn. -/
theorem fold_eq_ok {block block' : AnthropicBlock φ} {deltas : List (Value φ)}
    (h : deltas.foldlM applyDelta block = .ok block') :
    Only (accepted block) deltas ∧ block' = extended block deltas := by
  induction deltas generalizing block with
  | nil =>
    cases h
    exact ⟨by simp [Only], (extended_nil _).symm⟩
  | cons delta deltas ih =>
    rw [List.foldlM_cons, bind_eq_ok] at h
    obtain ⟨next, hd, h⟩ := h
    obtain ⟨hkind, rfl⟩ := applyDelta_eq_ok hd
    obtain ⟨honly, rfl⟩ := ih h
    rw [accepted_extended] at honly
    exact ⟨List.forall_mem_cons.mpr ⟨hkind, honly⟩, (extended_cons block delta deltas).symm⟩

/-- A block that was started, extended and closed. -/
theorem extends_of_finish {raw : Value φ} {deltas : List (Value φ)} {block : AnthropicBlock φ}
    {content : ContentBlock φ} (h : deltas.foldlM applyDelta (AnthropicBlock.start raw) = .ok block)
    (hf : block.finish fromStr = .ok content) : Extends fromStr raw deltas content := by
  obtain ⟨honly, rfl⟩ := fold_eq_ok h
  unfold Extends
  split
  · next htype =>
    simp only [AnthropicBlock.start, htype] at honly hf
    cases hf
    exact ⟨honly, rfl⟩
  · next htype =>
    simp only [AnthropicBlock.start, htype] at honly hf
    cases hf
    exact ⟨honly, rfl⟩
  · next htype =>
    simp only [AnthropicBlock.start, htype] at honly hf
    cases hf
    refine ⟨?_, rfl⟩
    cases deltas with
    | nil => rfl
    | cons delta deltas => exact absurd (honly delta List.mem_cons_self) List.not_mem_nil
  · next htype =>
    simp only [AnthropicBlock.start, htype] at honly hf
    refine ⟨honly, ?_⟩
    simp only [extended, AnthropicBlock.finish, String.empty_append] at hf
    by_cases hempty : joined "input_json_delta" "partial_json" deltas = ""
    · rw [if_pos hempty] at hf
      cases hf
      exact ⟨_, by rw [Spells, if_pos hempty], rfl⟩
    · rw [if_neg hempty] at hf
      split at hf
      · cases hf
      · next input hparse =>
        cases hf
        exact ⟨input, by rw [Spells, if_neg hempty, hparse], rfl⟩
  · next =>
    simp only [AnthropicBlock.start] at honly hf
    refine ⟨honly, ?_⟩
    simp only [extended, AnthropicBlock.finish, String.empty_append] at hf
    by_cases hempty : joined "input_json_delta" "partial_json" deltas = ""
    · rw [if_pos hempty] at hf
      cases hf
      exact ⟨raw, rfl, by rw [if_pos hempty]⟩
    · rw [if_neg hempty] at hf
      split at hf
      · cases hf
      · next input hparse =>
        split at hf
        · cases hf
        · next raw' hassign =>
          cases hf
          exact ⟨raw', rfl, by rw [if_neg hempty]; exact ⟨input, hparse, hassign⟩⟩

/-! ## What an event does to the two maps -/

/-- The moves of blocks between the maps, each with the history it adds. -/
inductive Moves : AnthropicStream φ → List (UInt32 × BlockEvent φ) → AnthropicStream φ → Prop
  | quiet {s s'} (ho : s'.opened = s.opened) (hc : s'.complete = s.complete) : Moves s [] s'
  | start {s s'} (index raw) (hopen : s.opened[index]? = none) (hdone : s.complete[index]? = none)
      (ho : s'.opened = s.opened.insert index (AnthropicBlock.start raw))
      (hc : s'.complete = s.complete) : Moves s [(index, .start raw)] s'
  | delta {s s'} (index delta) {block block'} (hopen : s.opened[index]? = some block)
      (happly : applyDelta block delta = .ok block')
      (ho : s'.opened = s.opened.insert index block')
      (hc : s'.complete = s.complete) : Moves s [(index, .delta delta)] s'
  | stop {s s'} (index) {block content} (hopen : s.opened[index]? = some block)
      (hfinish : block.finish fromStr = .ok content) (hdone : s.complete[index]? = none)
      (ho : s'.opened = s.opened.erase index)
      (hc : s'.complete = s.complete.insert index content) : Moves s [(index, .stop)] s'
  | arrive {s s'} (index raw) {content}
      (hfinish : (AnthropicBlock.start raw).finish fromStr = .ok content)
      (hdone : s.complete[index]? = none) (ho : s'.opened = s.opened)
      (hc : s'.complete = s.complete.insert index content) :
      Moves s [(index, .start raw), (index, .stop)] s'
  | append {s s' s'' xs ys} (h : Moves s xs s') (h' : Moves s' ys s'') : Moves s (xs ++ ys) s''

open AnthropicStream

theorem insertComplete_eq_ok {s s' : AnthropicStream φ} {index : UInt32}
    {content : ContentBlock φ} (h : s.insertComplete index content = .ok s') :
    s.complete[index]? = none ∧ s'.opened = s.opened ∧
      s'.complete = s.complete.insert index content := by
  simp only [insertComplete, bind_eq_ok] at h
  obtain ⟨-, -, h⟩ := h
  by_cases hmem : s.complete.contains index
  · rw [if_pos hmem] at h
    cases h
  · rw [if_neg hmem] at h
    cases h
    exact ⟨Std.ExtTreeMap.getElem?_eq_none_of_contains_eq_false (Bool.eq_false_iff.mpr hmem),
      rfl, rfl⟩

theorem insertBlocks_moves {s s' : AnthropicStream φ} {index : Nat} {raws : List (Value φ)}
    (h : s.insertBlocks fromStr index raws = .ok s') :
    Moves fromStr s (arrive index raws) s' := by
  induction raws generalizing s index with
  | nil =>
    cases h
    exact .quiet rfl rfl
  | cons raw raws ih =>
    rw [insertBlocks] at h
    by_cases hrange : 2 ^ 32 ≤ index
    · rw [if_pos hrange] at h
      cases h
    · rw [if_neg hrange] at h
      simp only [bind_eq_ok] at h
      obtain ⟨content, hfinish, next, hinsert, h⟩ := h
      obtain ⟨hdone, ho, hc⟩ := insertComplete_eq_ok hinsert
      exact .append (.arrive _ raw hfinish hdone ho hc) (ih h)

@[simp] theorem mergeUsage_opened (s : AnthropicStream φ) (value : Value φ) :
    (s.mergeUsage value).opened = s.opened := by
  rw [mergeUsage]
  split <;> rfl

@[simp] theorem mergeUsage_complete (s : AnthropicStream φ) (value : Value φ) :
    (s.mergeUsage value).complete = s.complete := by
  rw [mergeUsage]
  split <;> rfl

theorem field_eq_ok {event value : Value φ} {key missing : String}
    (h : field event key missing = .ok value) : event.get key = some value := by
  rw [field] at h
  split at h
  · cases h
  · next found hfound =>
    cases h
    exact hfound

theorem addressed_of_ok {event : Value φ} {index : UInt32} {what : BlockEvent φ}
    (h : eventIndex event = .ok index) : addressed event (some what) = [(index, what)] := by
  simp only [addressed, h]

theorem messageStart_moves {s s' : AnthropicStream φ} {event : Value φ}
    (h : s.messageStart fromStr event = .ok s') :
    Moves fromStr s (arrive 0 (((event.get "message").bind fun message =>
      (message.get "content").bind Value.asArray).getD [])) s' := by
  simp only [messageStart, bind_eq_ok] at h
  obtain ⟨message, hmessage, h⟩ := h
  rw [field_eq_ok hmessage, Option.bind_some]
  have hmoves := insertBlocks_moves fromStr h
  exact .append (.quiet (by simp) (by simp)) hmoves

theorem blockStart_moves {s s' : AnthropicStream φ} {event : Value φ}
    (h : s.blockStart event = .ok s') :
    Moves fromStr s (addressed event ((event.get "content_block").map .start)) s' := by
  simp only [blockStart, bind_eq_ok] at h
  obtain ⟨index, hindex, h⟩ := h
  by_cases hmem : (s.opened.contains index || s.complete.contains index) = true
  · rw [if_pos hmem] at h
    cases h
  · rw [if_neg hmem, bind_eq_ok] at h
    obtain ⟨-, -, h⟩ := h
    rw [bind_eq_ok] at h
    obtain ⟨raw, hraw, h⟩ := h
    cases h
    rw [Bool.or_eq_true, not_or] at hmem
    rw [field_eq_ok hraw, Option.map_some, addressed_of_ok hindex]
    exact .start index raw
      (Std.ExtTreeMap.getElem?_eq_none_of_contains_eq_false (Bool.eq_false_iff.mpr hmem.1))
      (Std.ExtTreeMap.getElem?_eq_none_of_contains_eq_false (Bool.eq_false_iff.mpr hmem.2))
      rfl rfl

theorem blockDelta_moves {s s' : AnthropicStream φ} {event : Value φ}
    (h : s.blockDelta event = .ok s') :
    Moves fromStr s (addressed event ((event.get "delta").map .delta)) s' := by
  simp only [blockDelta, bind_eq_ok] at h
  obtain ⟨index, hindex, delta, hdelta, h⟩ := h
  rw [field_eq_ok hdelta, Option.map_some, addressed_of_ok hindex]
  split at h
  · cases h
  · next block hopen =>
    split at h
    · cases h
    · next block' happly =>
      cases h
      exact .delta index delta hopen happly rfl rfl

theorem blockStop_moves {s s' : AnthropicStream φ} {event : Value φ}
    (h : s.blockStop fromStr event = .ok s') :
    Moves fromStr s (addressed event (some .stop)) s' := by
  simp only [blockStop, bind_eq_ok] at h
  obtain ⟨index, hindex, h⟩ := h
  rw [addressed_of_ok hindex]
  split at h
  · cases h
  · next block hopen =>
    rw [bind_eq_ok] at h
    obtain ⟨content, hfinish, h⟩ := h
    obtain ⟨hdone, ho, hc⟩ := insertComplete_eq_ok h
    exact .stop index hopen hfinish hdone ho hc

theorem messageDelta_moves {s s' : AnthropicStream φ} {event : Value φ}
    (h : s.messageDelta event = .ok s') : Moves fromStr s [] s' := by
  simp only [messageDelta, bind_eq_ok] at h
  obtain ⟨delta, -, h⟩ := h
  cases h
  exact .quiet (by simp) (by simp)

/-- An event that is applied moves the blocks as its history says. -/
theorem event_moves {s s' : AnthropicStream φ} {event : Value φ}
    (h : s.event fromStr event = .ok s') : Moves fromStr s (blockEvents event) s' := by
  unfold AnthropicStream.event at h
  unfold blockEvents
  split at h
  · next htype =>
    simp only [htype]
    exact messageStart_moves fromStr h
  · next htype =>
    simp only [htype]
    exact blockStart_moves fromStr h
  · next htype =>
    simp only [htype]
    exact blockDelta_moves fromStr h
  · next htype =>
    simp only [htype]
    exact blockStop_moves fromStr h
  · next htype =>
    simp only [htype]
    exact messageDelta_moves fromStr h
  · next htype =>
    simp only [htype]
    cases h
    exact .quiet rfl rfl
  · next htype =>
    simp only [htype]
    cases h
    exact .quiet rfl rfl
  · cases h
  · cases h

/-! ## Histories of the indices -/

/-- What the two maps hold under an index, given its history. Blocks that came complete under the
index of an open one spoil it: it is in both maps, and stays there. -/
inductive IndexState : List (BlockEvent φ) → Option (AnthropicBlock φ) → Option (ContentBlock φ) → Prop
  | untouched : IndexState [] none none
  | opened (raw : Value φ) (deltas : List (Value φ)) {block : AnthropicBlock φ}
      (h : deltas.foldlM applyDelta (AnthropicBlock.start raw) = .ok block) :
      IndexState (.start raw :: deltas.map .delta) (some block) none
  | closed (raw : Value φ) (deltas : List (Value φ)) {block : AnthropicBlock φ}
      {content : ContentBlock φ}
      (h : deltas.foldlM applyDelta (AnthropicBlock.start raw) = .ok block)
      (hfinish : block.finish fromStr = .ok content) :
      IndexState (.start raw :: deltas.map .delta ++ [.stop]) none (some content)
  | spoiled {history block content} : IndexState history (some block) (some content)

theorem getElem?_insert {β : Type} (m : Std.ExtTreeMap UInt32 β) (a b : UInt32) (x : β) :
    (m.insert a x)[b]? = if a = b then some x else m[b]? := by
  simp only [Std.ExtTreeMap.getElem?_insert, Std.compare_eq_iff_eq]

theorem getElem?_erase {β : Type} (m : Std.ExtTreeMap UInt32 β) (a b : UInt32) :
    (m.erase a)[b]? = if a = b then none else m[b]? := by
  simp only [Std.ExtTreeMap.getElem?_erase, Std.compare_eq_iff_eq]

/-- The maps hold what the histories say. -/
def Tracks (history : UInt32 → List (BlockEvent φ)) (s : AnthropicStream φ) : Prop :=
  ∀ index, IndexState fromStr (history index) s.opened[index]? s.complete[index]?

@[simp] theorem onlyAt_nil (index : UInt32) : onlyAt (φ := φ) index [] = [] := rfl

theorem onlyAt_append (index : UInt32) (xs ys : List (UInt32 × BlockEvent φ)) :
    onlyAt index (xs ++ ys) = onlyAt index xs ++ onlyAt index ys :=
  List.filterMap_append

theorem onlyAt_self (index : UInt32) (es : List (BlockEvent φ)) :
    onlyAt index (es.map fun e => (index, e)) = es := by
  induction es with
  | nil => rfl
  | cons e es ih => simp [onlyAt]

theorem onlyAt_other {index index' : UInt32} (h : index ≠ index') (es : List (BlockEvent φ)) :
    onlyAt index' (es.map fun e => (index, e)) = [] := by
  induction es with
  | nil => rfl
  | cons e es ih => simp [onlyAt, h]

/-- A move of one block leaves every other index as it was. -/
theorem tracks_of_index {history : UInt32 → List (BlockEvent φ)} {s s' : AnthropicStream φ}
    {index : UInt32} (es : List (BlockEvent φ))
    (hother : ∀ j, index ≠ j → s'.opened[j]? = s.opened[j]? ∧ s'.complete[j]? = s.complete[j]?)
    (hself : IndexState fromStr (history index ++ es) s'.opened[index]? s'.complete[index]?)
    (h : Tracks fromStr history s) :
    Tracks fromStr (fun i => history i ++ onlyAt i (es.map fun e => (index, e))) s' := by
  intro j
  by_cases hj : index = j
  · subst hj
    beta_reduce
    rw [onlyAt_self]
    exact hself
  · beta_reduce
    rw [onlyAt_other hj, List.append_nil, (hother j hj).1, (hother j hj).2]
    exact h j

theorem tracks_start {history : UInt32 → List (BlockEvent φ)} {s s' : AnthropicStream φ}
    (index : UInt32) (raw : Value φ) (hopen : s.opened[index]? = none)
    (hdone : s.complete[index]? = none)
    (ho : s'.opened = s.opened.insert index (AnthropicBlock.start raw))
    (hc : s'.complete = s.complete) (h : Tracks fromStr history s) :
    Tracks fromStr (fun i => history i ++ onlyAt i [(index, .start raw)]) s' := by
  apply tracks_of_index fromStr [.start raw] _ _ h
  · intro j hj
    rw [ho, hc, getElem?_insert, if_neg hj]
    exact ⟨rfl, rfl⟩
  · have hi := h index
    rw [hopen, hdone] at hi
    rw [ho, hc, getElem?_insert, if_pos rfl, hdone]
    generalize history index = past at hi
    cases hi
    exact .opened raw [] rfl

theorem tracks_delta {history : UInt32 → List (BlockEvent φ)} {s s' : AnthropicStream φ}
    (index : UInt32) (delta : Value φ) {block block' : AnthropicBlock φ}
    (hopen : s.opened[index]? = some block) (happly : applyDelta block delta = .ok block')
    (ho : s'.opened = s.opened.insert index block') (hc : s'.complete = s.complete)
    (h : Tracks fromStr history s) :
    Tracks fromStr (fun i => history i ++ onlyAt i [(index, .delta delta)]) s' := by
  apply tracks_of_index fromStr [.delta delta] _ _ h
  · intro j hj
    rw [ho, hc, getElem?_insert, if_neg hj]
    exact ⟨rfl, rfl⟩
  · have hi := h index
    rw [hopen] at hi
    rw [ho, hc, getElem?_insert, if_pos rfl]
    generalize history index = past at hi
    generalize s.complete[index]? = done at hi
    cases hi with
    | opened raw deltas hfold =>
      have hfold' : (deltas ++ [delta]).foldlM applyDelta (AnthropicBlock.start raw) = .ok block' := by
        rw [List.foldlM_append, bind_eq_ok]
        exact ⟨block, hfold, by rw [List.foldlM_cons, happly]; rfl⟩
      rw [List.cons_append, ← List.map_singleton, ← List.map_append]
      exact .opened raw _ hfold'
    | spoiled => exact .spoiled

theorem tracks_stop {history : UInt32 → List (BlockEvent φ)} {s s' : AnthropicStream φ}
    (index : UInt32) {block : AnthropicBlock φ} {content : ContentBlock φ}
    (hopen : s.opened[index]? = some block) (hfinish : block.finish fromStr = .ok content)
    (hdone : s.complete[index]? = none) (ho : s'.opened = s.opened.erase index)
    (hc : s'.complete = s.complete.insert index content) (h : Tracks fromStr history s) :
    Tracks fromStr (fun i => history i ++ onlyAt i [(index, .stop)]) s' := by
  apply tracks_of_index fromStr [.stop] _ _ h
  · intro j hj
    rw [ho, hc, getElem?_insert, getElem?_erase, if_neg hj, if_neg hj]
    exact ⟨rfl, rfl⟩
  · have hi := h index
    rw [hopen, hdone] at hi
    rw [ho, hc, getElem?_insert, getElem?_erase, if_pos rfl, if_pos rfl]
    generalize history index = past at hi
    cases hi with
    | opened raw deltas hfold => exact .closed raw deltas hfold hfinish

theorem tracks_arrive {history : UInt32 → List (BlockEvent φ)} {s s' : AnthropicStream φ}
    (index : UInt32) (raw : Value φ) {content : ContentBlock φ}
    (hfinish : (AnthropicBlock.start raw).finish fromStr = .ok content)
    (hdone : s.complete[index]? = none) (ho : s'.opened = s.opened)
    (hc : s'.complete = s.complete.insert index content) (h : Tracks fromStr history s) :
    Tracks fromStr (fun i => history i ++ onlyAt i [(index, .start raw), (index, .stop)]) s' := by
  apply tracks_of_index fromStr [.start raw, .stop] _ _ h
  · intro j hj
    rw [ho, hc, getElem?_insert, if_neg hj]
    exact ⟨rfl, rfl⟩
  · have hi := h index
    rw [hdone] at hi
    rw [ho, hc, getElem?_insert, if_pos rfl]
    generalize history index = past at hi
    generalize s.opened[index]? = pending at hi
    cases hi with
    | untouched => exact .closed raw [] rfl hfinish
    | opened raw deltas hfold => exact .spoiled

/-- Moves keep the maps to the histories. -/
theorem Moves.tracks {s s' : AnthropicStream φ} {xs : List (UInt32 × BlockEvent φ)}
    (hm : Moves fromStr s xs s') {history : UInt32 → List (BlockEvent φ)}
    (h : Tracks fromStr history s) : Tracks fromStr (fun i => history i ++ onlyAt i xs) s' := by
  induction hm generalizing history with
  | quiet ho hc =>
    intro index
    beta_reduce
    rw [onlyAt_nil, List.append_nil, ho, hc]
    exact h index
  | start index raw hopen hdone ho hc => exact tracks_start fromStr index raw hopen hdone ho hc h
  | delta index delta hopen happly ho hc =>
    exact tracks_delta fromStr index delta hopen happly ho hc h
  | stop index hopen hfinish hdone ho hc =>
    exact tracks_stop fromStr index hopen hfinish hdone ho hc h
  | arrive index raw hfinish hdone ho hc =>
    exact tracks_arrive fromStr index raw hfinish hdone ho hc h
  | append _ _ ih ih' =>
    intro index
    beta_reduce
    rw [onlyAt_append, ← List.append_assoc]
    exact ih' (ih h) index

/-! ## Runs -/

/-- The events of a stream in order. -/
def feed (s : AnthropicStream φ) (events : List (Value φ)) :
    Except (Halt String) (AnthropicStream φ) :=
  events.foldlM (fun s event => s.event fromStr event) s

/-- In every accepted run the maps hold what the events say. -/
theorem feed_tracks {s s' : AnthropicStream φ} {events : List (Value φ)}
    {history : UInt32 → List (BlockEvent φ)} (h : feed fromStr s events = .ok s')
    (ht : Tracks fromStr history s) :
    Tracks fromStr (fun i => history i ++ historyOf events i) s' := by
  induction events generalizing s history with
  | nil =>
    cases h
    intro index
    beta_reduce
    rw [show historyOf (φ := φ) [] index = [] from rfl, List.append_nil]
    exact ht index
  | cons event events ih =>
    rw [feed, List.foldlM_cons, bind_eq_ok] at h
    obtain ⟨next, hevent, h⟩ := h
    have hnext := ih h ((event_moves fromStr hevent).tracks fromStr ht)
    intro index
    have hi := hnext index
    beta_reduce at hi
    rw [List.append_assoc] at hi
    have hsplit : historyOf (event :: events) index =
        onlyAt index (blockEvents event) ++ historyOf events index := by
      simp only [historyOf, List.flatMap_cons, onlyAt_append]
    beta_reduce
    rw [hsplit]
    exact hi

/-! ## Panics -/

/-- An event closes a block whose input, spelled by its deltas, cannot be set in the value the
block was started from. -/
def Jams (s : AnthropicStream φ) (event : Value φ) : Prop :=
  event.strOrDefault "type" = "content_block_stop" ∧
    ∃ index raw partialJson input, eventIndex event = .ok index ∧
      s.opened[index]? = some (.unknown raw partialJson) ∧ partialJson ≠ "" ∧
      fromStr partialJson = .ok input ∧ raw.indexable = false

theorem finish_panics_iff (block : AnthropicBlock φ) :
    block.finish fromStr = .error .panic ↔
      ∃ raw partialJson input, block = .unknown raw partialJson ∧ partialJson ≠ "" ∧
        fromStr partialJson = .ok input ∧ raw.indexable = false := by
  constructor
  · intro h
    cases block with
    | text prose citations => cases h
    | thinking thought signature => cases h
    | redactedThinking data => cases h
    | toolUse id name input partialJson =>
      simp only [AnthropicBlock.finish] at h
      by_cases hempty : partialJson = ""
      · rw [if_pos hempty] at h
        cases h
      · rw [if_neg hempty] at h
        split at h <;> cases h
    | unknown raw partialJson =>
      simp only [AnthropicBlock.finish] at h
      by_cases hempty : partialJson = ""
      · rw [if_pos hempty] at h
        cases h
      · rw [if_neg hempty] at h
        split at h
        · cases h
        · next input hparse =>
          split at h
          · next hassign =>
            refine ⟨raw, partialJson, input, rfl, hempty, hparse, ?_⟩
            rw [← Value.assign_isSome raw "input" input, hassign]
            rfl
          · cases h
  · rintro ⟨raw, partialJson, input, rfl, hempty, hparse, hindex⟩
    have hassign : raw.assign "input" input = none := by
      rw [← Option.isNone_iff_eq_none, ← Option.not_isSome, Value.assign_isSome, hindex]
      rfl
    rw [AnthropicBlock.finish, if_neg hempty, hparse]
    simp only [hassign]

theorem start_finish_no_panic (raw : Value φ) :
    (AnthropicBlock.start raw).finish fromStr ≠ .error .panic := by
  intro h
  obtain ⟨raw', partialJson, input, hstart, hempty, -⟩ := (finish_panics_iff fromStr _).mp h
  unfold AnthropicBlock.start at hstart
  split at hstart
  all_goals cases hstart
  exact hempty rfl

theorem insertComplete_no_panic (s : AnthropicStream φ) (index : UInt32) (block : ContentBlock φ) :
    s.insertComplete index block ≠ .error .panic := by
  intro h
  rw [insertComplete, bind_eq_error] at h
  rcases h with h | ⟨-, -, h⟩
  · rw [ensureBlockCapacity] at h
    split at h <;> cases h
  · split at h <;> cases h

theorem insertBlocks_no_panic (s : AnthropicStream φ) (index : Nat) (raws : List (Value φ)) :
    s.insertBlocks fromStr index raws ≠ .error .panic := by
  induction raws generalizing s index with
  | nil => intro h; cases h
  | cons raw raws ih =>
    intro h
    rw [insertBlocks] at h
    by_cases hrange : 2 ^ 32 ≤ index
    · rw [if_pos hrange] at h
      cases h
    · rw [if_neg hrange, bind_eq_error] at h
      rcases h with h | ⟨content, -, h⟩
      · exact start_finish_no_panic fromStr raw h
      · rcases bind_eq_error.mp h with h | ⟨next, -, h⟩
        · exact insertComplete_no_panic s _ content h
        · exact ih next (index + 1) h

theorem eventIndex_no_panic (event : Value φ) : eventIndex event ≠ .error .panic := by
  intro h
  rw [eventIndex] at h
  split at h
  · cases h
  · split at h <;> cases h

theorem field_no_panic (event : Value φ) (key missing : String) :
    field event key missing ≠ .error .panic := by
  intro h
  rw [field] at h
  split at h <;> cases h

theorem messageStart_no_panic (s : AnthropicStream φ) (event : Value φ) :
    s.messageStart fromStr event ≠ .error .panic := by
  intro h
  rcases bind_eq_error.mp h with h | ⟨message, -, h⟩
  · exact field_no_panic _ _ _ h
  · exact insertBlocks_no_panic fromStr _ _ _ h

theorem blockStart_no_panic (s : AnthropicStream φ) (event : Value φ) :
    s.blockStart event ≠ .error .panic := by
  intro h
  rcases bind_eq_error.mp h with h | ⟨index, -, h⟩
  · exact eventIndex_no_panic _ h
  · split at h
    · cases h
    · rcases bind_eq_error.mp h with h | ⟨-, -, h⟩
      · rw [ensureBlockCapacity] at h
        split at h <;> cases h
      · rcases bind_eq_error.mp h with h | ⟨raw, -, h⟩
        · exact field_no_panic _ _ _ h
        · cases h

theorem blockDelta_no_panic (s : AnthropicStream φ) (event : Value φ) :
    s.blockDelta event ≠ .error .panic := by
  intro h
  rcases bind_eq_error.mp h with h | ⟨index, -, h⟩
  · exact eventIndex_no_panic _ h
  · rcases bind_eq_error.mp h with h | ⟨delta, -, h⟩
    · exact field_no_panic _ _ _ h
    · split at h
      · cases h
      · split at h <;> cases h

theorem messageDelta_no_panic (s : AnthropicStream φ) (event : Value φ) :
    s.messageDelta event ≠ .error .panic := by
  intro h
  rcases bind_eq_error.mp h with h | ⟨delta, -, h⟩
  · exact field_no_panic _ _ _ h
  · cases h

theorem blockStop_panics_iff (s : AnthropicStream φ) (event : Value φ) :
    s.blockStop fromStr event = .error .panic ↔
      ∃ index raw partialJson input, eventIndex event = .ok index ∧
        s.opened[index]? = some (.unknown raw partialJson) ∧ partialJson ≠ "" ∧
        fromStr partialJson = .ok input ∧ raw.indexable = false := by
  rw [blockStop, bind_eq_error]
  constructor
  · rintro (h | ⟨index, hindex, h⟩)
    · exact absurd h (eventIndex_no_panic event)
    · split at h
      · cases h
      · next block hopen =>
        rcases bind_eq_error.mp h with h | ⟨content, -, h⟩
        · obtain ⟨raw, partialJson, input, rfl, hjam⟩ := (finish_panics_iff fromStr block).mp h
          exact ⟨index, raw, partialJson, input, hindex, hopen, hjam⟩
        · exact absurd h (insertComplete_no_panic _ _ _)
  · rintro ⟨index, raw, partialJson, input, hindex, hopen, hjam⟩
    refine .inr ⟨index, hindex, ?_⟩
    simp only [hopen]
    exact bind_eq_error.mpr
      (.inl ((finish_panics_iff fromStr _).mpr ⟨raw, partialJson, input, rfl, hjam⟩))

/-- The one event that is neither applied nor refused. -/
theorem event_panics_iff (s : AnthropicStream φ) (event : Value φ) :
    s.event fromStr event = .error .panic ↔ Jams fromStr s event := by
  unfold AnthropicStream.event Jams
  split
  · next htype => simp [htype, messageStart_no_panic]
  · next htype => simp [htype, blockStart_no_panic]
  · next htype => simp [htype, blockDelta_no_panic]
  · next htype => rw [blockStop_panics_iff, htype, eq_self, true_and]
  · next htype => simp [htype, messageDelta_no_panic]
  · next htype => simp [htype]
  · next htype => simp [htype]
  · next htype => simp [htype]
  · next hstop _ _ _ _ =>
    constructor
    · intro h
      cases h
    · intro h
      exact (hstop h.1).elim

/-- A run panics at an event before which it went well. -/
theorem feed_panics_iff (s : AnthropicStream φ) (events : List (Value φ)) :
    feed fromStr s events = .error .panic ↔
      ∃ before event after s', events = before ++ event :: after ∧
        feed fromStr s before = .ok s' ∧ Jams fromStr s' event := by
  induction events generalizing s with
  | nil =>
    constructor
    · intro h
      cases h
    · rintro ⟨before, event, after, s', h, -⟩
      simp at h
  | cons event events ih =>
    rw [feed, List.foldlM_cons, bind_eq_error]
    constructor
    · rintro (h | ⟨next, hnext, h⟩)
      · exact ⟨[], event, events, s, rfl, rfl, (event_panics_iff fromStr s event).mp h⟩
      · obtain ⟨before, event', after, s', rfl, hbefore, hjam⟩ := (ih next).mp h
        refine ⟨event :: before, event', after, s', rfl, ?_, hjam⟩
        rw [feed, List.foldlM_cons, hnext]
        exact hbefore
    · rintro ⟨before, event', after, s', heq, hbefore, hjam⟩
      cases before with
      | nil =>
        cases heq
        cases hbefore
        exact .inl ((event_panics_iff fromStr s event).mpr hjam)
      | cons first before =>
        cases heq
        rw [feed, List.foldlM_cons, bind_eq_ok] at hbefore
        obtain ⟨next, hnext, hbefore⟩ := hbefore
        exact .inr ⟨next, hnext, (ih next).mpr ⟨before, event', after, s', rfl, hbefore, hjam⟩⟩

/-! ## What a completion holds -/

/-- Content that is exactly the blocks the events started, in the order of their indices, each of
them started and closed once and extended by its deltas in between. -/
def HoldsBlocks (events : List (Value φ)) (content : List (ContentBlock φ)) : Prop :=
  ∃ entries : List (UInt32 × ContentBlock φ), content = entries.map Prod.snd ∧
    entries.Pairwise (fun a b => a.1 < b.1) ∧
    (∀ index, historyOf events index ≠ [] ↔ ∃ block, (index, block) ∈ entries) ∧
    ∀ index block, (index, block) ∈ entries → ∃ raw deltas,
      historyOf events index = .start raw :: deltas.map .delta ++ [.stop] ∧
        Extends fromStr raw deltas block

theorem holdsBlocks_of_tracks {s : AnthropicStream φ} {events : List (Value φ)}
    (h : Tracks fromStr (historyOf events) s) (hclosed : s.opened.isEmpty) :
    HoldsBlocks fromStr events (s.complete.toList.map Prod.snd) := by
  have hopen : ∀ index : UInt32, s.opened[index]? = none := by
    rw [Std.ExtTreeMap.isEmpty_iff] at hclosed
    intro index
    rw [hclosed]
    exact Std.ExtTreeMap.getElem?_empty
  refine ⟨s.complete.toList, rfl, ?_, ?_, ?_⟩
  · exact Std.ExtTreeMap.ordered_keys_toList.imp fun hlt => Std.compare_eq_lt.mp hlt
  · intro index
    simp only [Std.ExtTreeMap.mem_toList_iff_getElem?_eq_some]
    have hi := h index
    rw [hopen index] at hi
    generalize historyOf events index = past at hi
    generalize s.complete[index]? = done at hi
    cases hi <;> simp
  · intro index block hmem
    rw [Std.ExtTreeMap.mem_toList_iff_getElem?_eq_some] at hmem
    have hi := h index
    rw [hopen index, hmem] at hi
    generalize historyOf events index = past at hi
    cases hi with
    | closed raw deltas hfold hfinish =>
      exact ⟨raw, deltas, rfl, extends_of_finish fromStr hfold hfinish⟩

theorem anthropicEnd_eq_ok {s : AnthropicStream φ} {buffer : List UInt8}
    {headerId : Option String} {thinking : Thinking} {completion : Completion φ}
    (h : anthropicEnd s buffer headerId thinking = .ok completion) :
    s.opened.isEmpty = true ∧ completion.content = s.complete.toList.map Prod.snd := by
  simp only [anthropicEnd] at h
  split at h
  · cases h
  · split at h
    · cases h
    · split at h
      · cases h
      · next hopened =>
        split at h
        · cases h
        · cases h
          exact ⟨by simpa using hopened, rfl⟩

/-- What the stream is to do with a sequence of events: no panic, and a completion that holds the
blocks whenever all of them are accepted and the end of the body is. The sentinel is no event, and
may have been seen among them. -/
def KeepsBlocks (events : List (Value φ)) : Prop :=
  feed fromStr {} events ≠ .error .panic ∧
    ∀ s, feed fromStr {} events = .ok s → ∀ sentinel buffer headerId thinking completion,
      anthropicEnd { s with sawMessageStop := s.sawMessageStop || sentinel } buffer headerId
        thinking = .ok completion → HoldsBlocks fromStr events completion.content

/-- The stream does so unless an event of the run jams in the state before it. -/
theorem keepsBlocks_iff (events : List (Value φ)) :
    KeepsBlocks fromStr events ↔
      ∀ before event after s, events = before ++ event :: after →
        feed fromStr {} before = .ok s → ¬ Jams fromStr s event := by
  constructor
  · rintro ⟨hpanic, -⟩ before event after s heq hbefore hjam
    exact hpanic ((feed_panics_iff fromStr {} events).mpr
      ⟨before, event, after, s, heq, hbefore, hjam⟩)
  · intro h
    constructor
    · intro hpanic
      obtain ⟨before, event, after, s, heq, hbefore, hjam⟩ :=
        (feed_panics_iff fromStr {} events).mp hpanic
      exact h before event after s heq hbefore hjam
    · intro s hfeed sentinel buffer headerId thinking completion hend
      obtain ⟨hclosed, hcontent⟩ := anthropicEnd_eq_ok hend
      have hempty : Tracks fromStr (fun _ => []) ({} : AnthropicStream φ) := by
        intro index
        exact .untouched
      have htracks := feed_tracks fromStr hfeed hempty
      simp only [List.nil_append] at htracks
      rw [hcontent]
      exact holdsBlocks_of_tracks fromStr htracks hclosed

/-- A block started as an array, given an input and closed. -/
theorem keepsBlocks_fails_on_array :
    let event := fun (type : String) (rest : List (String × Value Unit)) =>
      Value.object (("type", .string type) :: ("index", .number (.posInt 0)) :: rest)
    let fromStr : String → Except String (Value Unit) := fun text =>
      if text = "1" then .ok (.number (.posInt 1)) else .error "expected value"
    ¬ KeepsBlocks fromStr [
      event "content_block_start" [("content_block", .array [])],
      event "content_block_delta" [("delta", .object [
        ("type", .string "input_json_delta"), ("partial_json", .string "1")])],
      event "content_block_stop" []] := by
  intro event fromStr h
  exact h.1 rfl

end SupraHarness.Llm
