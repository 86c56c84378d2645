import Mathlib.Data.Nat.Basic
import SupraHarness.Lib.OrdMap
import SupraHarness.Llm.Value

/-!
# OpenAI completions

An OpenAI answer comes in one of two transports: whole, as one response, or as a stream of chunks
whose deltas are accumulated. Both are read into a completion, and the caller is not told which of
them answered.
-/
namespace SupraHarness.Llm.OpenAi

inductive FinishReason where
  | stop | length | toolCalls | contentFilter | functionCall
  deriving DecidableEq, Repr

structure CompletionUsage where
  promptTokens : UInt32
  completionTokens : UInt32
  /-- The cached tokens among the details of the prompt's tokens. -/
  cachedTokens : Option UInt32
  deriving DecidableEq, Repr

inductive MessageToolCall where
  | function (id name arguments : String)
  | custom (id name input : String)
  deriving DecidableEq, Repr

structure ChatChoice where
  content : Option String
  toolCalls : Option (List MessageToolCall)
  finishReason : Option FinishReason
  deriving DecidableEq, Repr

structure ChatResponse where
  id : String
  model : String
  choices : List ChatChoice
  usage : Option CompletionUsage
  deriving DecidableEq, Repr

structure FunctionCallStream where
  name : Option String
  arguments : Option String
  deriving DecidableEq, Repr

structure ToolCallChunk where
  index : UInt32
  id : Option String
  function : Option FunctionCallStream
  deriving DecidableEq, Repr

structure ChoiceStream where
  content : Option String
  toolCalls : Option (List ToolCallChunk)
  finishReason : Option FinishReason
  deriving DecidableEq, Repr

structure StreamChunk where
  id : String
  model : String
  choices : List ChoiceStream
  usage : Option CompletionUsage
  deriving DecidableEq, Repr

def openaiStopReason : FinishReason → StopReason
  | .stop => .endTurn
  | .length => .maxTokens
  | .toolCalls => .toolUse
  | .functionCall => .toolUse
  | .contentFilter => .contentFilter

def usageOf (reported : CompletionUsage) : Usage where
  inputTokens := reported.promptTokens.toUInt64
  outputTokens := reported.completionTokens.toUInt64
  cachedTokens := (reported.cachedTokens.map UInt32.toUInt64).getD 0

section Transports

variable {φ : Type} (fromStr : String → Except String (Value φ))

/-- The input of a call: its arguments, parsed if they are JSON. -/
def parseArguments (arguments : String) : Value φ :=
  match fromStr arguments with
  | .ok input => input
  | .error _ => .string arguments

def openaiToolCall : MessageToolCall → ContentBlock φ
  | .function id name arguments => .toolUse id name (parseArguments fromStr arguments)
  | .custom id name input => .toolUse id name (.string input)

def choiceBlocks (choice : ChatChoice) : List (ContentBlock φ) :=
  choice.content.toList.map (.text · []) ++ (choice.toolCalls.getD []).map (openaiToolCall fromStr)

/-- The stop reason after a choice: its own, if it has one. -/
def choiceStop (stopReason : StopReason) (choice : ChatChoice) : StopReason :=
  (choice.finishReason.map openaiStopReason).getD stopReason

def blockingCompletion (thinking : Thinking) (response : ChatResponse) :
    Except LlmError (Completion φ) :=
  if response.choices = [] then .error (.badResponse "openai" "the response contained no choices")
  else
    .ok {
      content := response.choices.flatMap (choiceBlocks fromStr)
      stopReason := response.choices.foldl choiceStop .endTurn
      stopSequence := none
      model := response.model
      requestId := some response.id
      usage := response.usage.map usageOf
      thinking }

/-- A tool call as far as its deltas have come. -/
structure OpenAiToolCall where
  id : String := ""
  name : String := ""
  arguments : String := ""
  deriving DecidableEq, Repr

namespace ToolCallChunk

/-- The index as a key of the ordered map. -/
def slot (delta : ToolCallChunk) : Nat := delta.index.toNat

def name (delta : ToolCallChunk) : Option String := delta.function.bind FunctionCallStream.name
def arguments (delta : ToolCallChunk) : Option String := delta.function.bind FunctionCallStream.arguments

end ToolCallChunk

/-- A delta applied to its call: the identifier is replaced, name and arguments are continued. -/
def OpenAiToolCall.apply (call : OpenAiToolCall) (delta : ToolCallChunk) : OpenAiToolCall where
  id := delta.id.getD call.id
  name := call.name ++ delta.name.getD ""
  arguments := call.arguments ++ delta.arguments.getD ""

/-- What the stream's reader has accumulated. -/
structure Accumulator (φ : Type) where
  content : List (ContentBlock φ) := []
  toolCalls : OrdMap Nat OpenAiToolCall := .empty
  usage : Option Usage := none
  stopReason : Option StopReason := none
  model : String := ""
  requestId : Option String := none

namespace Accumulator

/-- One choice of a chunk. A content delta is pushed as a block of its own. -/
def onChoice (state : Accumulator φ) (choice : ChoiceStream) : Accumulator φ :=
  { state with
    content := state.content ++ choice.content.toList.map (.text · [])
    toolCalls := (choice.toolCalls.getD []).foldl
      (Demux.deliver ToolCallChunk.slot OpenAiToolCall.apply {}) state.toolCalls
    stopReason := (choice.finishReason.map openaiStopReason).or state.stopReason }

def onChunk (state : Accumulator φ) (chunk : StreamChunk) : Accumulator φ :=
  let state := { state with model := chunk.model, requestId := some chunk.id }
  let state := chunk.choices.foldl onChoice state
  { state with usage := (chunk.usage.map usageOf).or state.usage }

/-- The end of the stream: the tool calls follow the content in the order of their indices. -/
def finish (state : Accumulator φ) (thinking : Thinking) : Except LlmError (Completion φ) :=
  match state.stopReason with
  | none =>
    .error (.badResponse "openai"
      (if state.content.isEmpty then "the stream ended with no events"
        else "the stream ended before a terminal marker"))
  | some stopReason =>
    .ok {
      content := state.content ++ state.toolCalls.entries.map fun entry =>
        .toolUse entry.2.id entry.2.name (parseArguments fromStr entry.2.arguments)
      stopReason
      stopSequence := none
      model := state.model
      requestId := state.requestId
      usage := state.usage
      thinking }

end Accumulator

/-- The stream read to its end. An item of it is a chunk, or the error that broke it off. -/
def streamOpenai (thinking : Thinking) (items : List (Except LlmError StreamChunk)) :
    Except LlmError (Completion φ) := do
  let state ← items.foldlM (fun state item => item.map (Accumulator.onChunk state)) ({} : Accumulator φ)
  Accumulator.finish fromStr state thinking

/-! ## What a stream carries -/

def choices (chunks : List StreamChunk) : List ChoiceStream := chunks.flatMap StreamChunk.choices

def texts (choices : List ChoiceStream) : List String := choices.flatMap fun choice => choice.content.toList

def calls (choices : List ChoiceStream) : List ToolCallChunk :=
  choices.flatMap fun choice => choice.toolCalls.getD []

def reasons (choices : List ChoiceStream) : List FinishReason :=
  choices.flatMap fun choice => choice.finishReason.toList

def usages (chunks : List StreamChunk) : List CompletionUsage :=
  chunks.flatMap fun chunk => chunk.usage.toList

/-- Replacing a value by the last of some and then by the last of more. -/
theorem getLast?_map_append {α β : Type} (f : α → β) (first rest : List α) (old : Option β) :
    (rest.getLast?.map f).or ((first.getLast?.map f).or old) =
      ((first ++ rest).getLast?.map f).or old := by
  rw [List.getLast?_append, ← Option.or_assoc]
  cases rest.getLast? <;> rfl

theorem getLast?_toList_append {α β : Type} (f : α → β) (first : Option α) (rest : List α) (old : Option β) :
    (rest.getLast?.map f).or ((first.map f).or old) =
      ((first.toList ++ rest).getLast?.map f).or old := by
  rw [← getLast?_map_append]
  cases first <;> rfl

theorem getLast?_of_mem_iff {α : Type} {items : List α} {item : Option α}
    (h : ∀ a, a ∈ items ↔ item = some a) : items.getLast? = item := by
  cases hlast : items.getLast? with
  | none =>
    rw [List.getLast?_eq_none_iff] at hlast
    subst hlast
    cases item with
    | none => rfl
    | some a => exact absurd ((h a).mpr rfl) List.not_mem_nil
  | some a => exact ((h a).mp (List.mem_of_getLast? hlast)).symm

namespace Accumulator

theorem foldl_onChoice (state : Accumulator φ) (choices : List ChoiceStream) :
    choices.foldl onChoice state =
      { state with
        content := state.content ++ (texts choices).map (.text · [])
        toolCalls := Demux.demux ToolCallChunk.slot OpenAiToolCall.apply {} state.toolCalls (calls choices)
        stopReason := ((reasons choices).getLast?.map openaiStopReason).or state.stopReason } := by
  induction choices generalizing state with
  | nil => simp [texts, calls, reasons, Demux.demux]
  | cons choice choices ih =>
    rw [List.foldl_cons, ih]
    simp only [onChoice, texts, calls, reasons, List.flatMap_cons, List.map_append, List.append_assoc,
      Demux.demux, List.foldl_append, getLast?_toList_append]

/-- The whole stream at once: what the reader holds after any chunks. -/
theorem foldl_onChunk (state : Accumulator φ) (chunks : List StreamChunk) :
    chunks.foldl onChunk state =
      { content := state.content ++ (texts (choices chunks)).map (.text · [])
        toolCalls :=
          Demux.demux ToolCallChunk.slot OpenAiToolCall.apply {} state.toolCalls (calls (choices chunks))
        usage := ((usages chunks).getLast?.map usageOf).or state.usage
        stopReason := ((reasons (choices chunks)).getLast?.map openaiStopReason).or state.stopReason
        model := (chunks.getLast?.map StreamChunk.model).getD state.model
        requestId := (chunks.getLast?.map StreamChunk.id).or state.requestId } := by
  induction chunks generalizing state with
  | nil => simp [texts, calls, reasons, usages, choices, Demux.demux]
  | cons chunk chunks ih =>
    have hlast : (chunk :: chunks).getLast? = chunks.getLast?.or (some chunk) :=
      List.getLast?_append (l := [chunk])
    rw [List.foldl_cons, ih, onChunk, foldl_onChoice, hlast]
    simp only [texts, calls, reasons, usages, choices, List.flatMap_cons, List.flatMap_append,
      List.map_append, List.append_assoc, Demux.demux, List.foldl_append, getLast?_map_append]
    rw [getLast?_toList_append]
    cases chunks.getLast? <;> rfl

end Accumulator

/-! ## Answers and their streams -/

/-- An answer, with the one choice that a request asks for. -/
structure Answer where
  id : String
  model : String
  choice : ChatChoice
  usage : Option CompletionUsage
  deriving DecidableEq, Repr

namespace Answer

def response (answer : Answer) : ChatResponse :=
  ⟨answer.id, answer.model, [answer.choice], answer.usage⟩

def calls (answer : Answer) : List MessageToolCall := answer.choice.toolCalls.getD []

end Answer

namespace MessageToolCall

/-- What a delta has fields for: of a custom call only the identifier. -/
def carried : MessageToolCall → OpenAiToolCall
  | function id name arguments => ⟨id, name, arguments⟩
  | custom id _ _ => ⟨id, "", ""⟩

/-- The calls that a stream can carry in full: a custom one is to have neither a name nor an input. -/
def Streamable : MessageToolCall → Prop
  | function _ _ _ => True
  | custom _ name input => name = "" ∧ input = ""

end MessageToolCall

/-- The deltas spell a call: each identifier among them is the call's, and the pieces of its name and
of its arguments, in order, make them up. -/
structure Spells (call : OpenAiToolCall) (deltas : List ToolCallChunk) : Prop where
  id : ∀ id, id ∈ deltas.flatMap (fun delta => delta.id.toList) ↔ some call.id = some id
  name : String.join (deltas.map fun delta => delta.name.getD "") = call.name
  arguments : String.join (deltas.map fun delta => delta.arguments.getD "") = call.arguments

/-- The chunks are a stream of the answer: cut anywhere, the calls interleaved by their indices. -/
structure Streams (answer : Answer) (chunks : List StreamChunk) : Prop where
  head : ∀ chunk ∈ chunks, chunk.id = answer.id ∧ chunk.model = answer.model
  text : String.join (texts (choices chunks)) = answer.choice.content.getD ""
  known : ∀ delta ∈ calls (choices chunks), delta.slot < answer.calls.length
  calls : ∀ (i : Nat) (h : i < answer.calls.length),
    Spells answer.calls[i].carried (Demux.own ToolCallChunk.slot i (OpenAi.calls (choices chunks)))
  reason : ∀ reason, reason ∈ reasons (choices chunks) ↔ answer.choice.finishReason = some reason
  usage : ∀ usage, usage ∈ usages chunks ↔ answer.usage = some usage

theorem foldl_apply (call : OpenAiToolCall) (deltas : List ToolCallChunk) :
    deltas.foldl OpenAiToolCall.apply call =
      { id := (deltas.flatMap fun delta => delta.id.toList).getLast?.getD call.id
        name := call.name ++ String.join (deltas.map fun delta => delta.name.getD "")
        arguments := call.arguments ++ String.join (deltas.map fun delta => delta.arguments.getD "") } := by
  induction deltas generalizing call with
  | nil => simp
  | cons delta deltas ih =>
    rw [List.foldl_cons, ih]
    simp only [OpenAiToolCall.apply, List.map_cons, String.join_cons, List.flatMap_cons, String.append_assoc,
      List.getLast?_append]
    cases (deltas.flatMap fun delta => delta.id.toList).getLast? <;> cases delta.id <;> rfl

theorem Spells.foldl_apply {call : OpenAiToolCall} {deltas : List ToolCallChunk} (h : Spells call deltas) :
    deltas.foldl OpenAiToolCall.apply {} = call := by
  rw [OpenAi.foldl_apply, getLast?_of_mem_iff h.id, h.name, h.arguments, String.empty_append,
    String.empty_append]
  rfl

theorem Spells.ne_nil {call : OpenAiToolCall} {deltas : List ToolCallChunk} (h : Spells call deltas) :
    deltas ≠ [] := by
  rintro rfl
  exact absurd ((h.id call.id).mpr rfl) List.not_mem_nil

theorem Streams.entries {answer : Answer} {chunks : List StreamChunk} (h : Streams answer chunks) :
    (Demux.demux ToolCallChunk.slot OpenAiToolCall.apply {} .empty (OpenAi.calls (choices chunks))).entries =
      answer.calls.mapIdx fun i call => (i, call.carried) := by
  apply Demux.entries_eq
  · rw [List.pairwise_iff_getElem]
    intro i j hi hj hij
    rw [List.getElem_mapIdx, List.getElem_mapIdx]
    exact hij
  · intro i call
    rw [Demux.get_demux, OrdMap.get_empty, List.mem_mapIdx]
    by_cases hi : i < answer.calls.length
    · have hspells := h.calls i hi
      rw [if_neg hspells.ne_nil, Option.getD_none, hspells.foldl_apply, Option.some_inj]
      constructor
      · rintro rfl
        exact ⟨i, hi, rfl⟩
      · rintro ⟨j, hj, heq⟩
        obtain ⟨rfl, hcall⟩ := Prod.mk.inj heq
        exact hcall
    · have hown : Demux.own ToolCallChunk.slot i (OpenAi.calls (choices chunks)) = [] := by
        rw [Demux.own, List.filter_eq_nil_iff]
        intro delta mem heq
        exact hi (of_decide_eq_true heq ▸ h.known delta mem)
      rw [if_pos hown]
      constructor
      · exact nofun
      · rintro ⟨j, hj, heq⟩
        exact absurd ((Prod.mk.inj heq).1 ▸ hj) hi

theorem foldlM_onChunk (state : Accumulator φ) (chunks : List StreamChunk) :
    (chunks.map Except.ok).foldlM (fun state item => item.map (Accumulator.onChunk state)) state =
      (Except.ok (chunks.foldl Accumulator.onChunk state) : Except LlmError (Accumulator φ)) := by
  induction chunks generalizing state with
  | nil => rfl
  | cons chunk chunks ih => exact ih (state.onChunk chunk)

/-- The block of a call that came as deltas. -/
def streamedCall (call : MessageToolCall) : ContentBlock φ :=
  .toolUse call.carried.id call.carried.name (parseArguments fromStr call.carried.arguments)

/-- The answer as the stream's reader puts it together, given how its text was cut. -/
def streamedAnswer (thinking : Thinking) (answer : Answer) (texts : List String)
    (reason : FinishReason) : Completion φ where
  content := texts.map (.text · []) ++ answer.calls.map (streamedCall fromStr)
  stopReason := openaiStopReason reason
  stopSequence := none
  model := answer.model
  requestId := some answer.id
  usage := answer.usage.map usageOf
  thinking := thinking

theorem blockingCompletion_response (thinking : Thinking) (answer : Answer) :
    blockingCompletion fromStr thinking answer.response =
      .ok {
        content := choiceBlocks fromStr answer.choice
        stopReason := choiceStop .endTurn answer.choice
        stopSequence := none
        model := answer.model
        requestId := some answer.id
        usage := answer.usage.map usageOf
        thinking } := by
  simp [blockingCompletion, Answer.response]

theorem Streams.last_head {answer : Answer} {chunks : List StreamChunk} (h : Streams answer chunks)
    {reason : FinishReason} (hreason : answer.choice.finishReason = some reason) :
    (chunks.getLast?.map StreamChunk.model).getD "" = answer.model ∧
      (chunks.getLast?.map StreamChunk.id).or none = some answer.id := by
  cases hlast : chunks.getLast? with
  | none =>
    rw [List.getLast?_eq_none_iff] at hlast
    subst hlast
    exact absurd ((h.reason reason).mpr hreason) List.not_mem_nil
  | some chunk =>
    obtain ⟨hid, hmodel⟩ := h.head chunk (List.mem_of_getLast? hlast)
    exact ⟨hmodel, congrArg some hid⟩

theorem streamOpenai_of_streams {answer : Answer} {chunks : List StreamChunk} (h : Streams answer chunks)
    (thinking : Thinking) {reason : FinishReason} (hreason : answer.choice.finishReason = some reason) :
    streamOpenai fromStr thinking (chunks.map .ok) =
      .ok (streamedAnswer fromStr thinking answer (texts (choices chunks)) reason) := by
  obtain ⟨hmodel, hid⟩ := h.last_head hreason
  have hcalls : (answer.calls.mapIdx fun i call => (i, call.carried)).map (fun entry =>
        ContentBlock.toolUse entry.2.id entry.2.name (parseArguments fromStr entry.2.arguments)) =
      answer.calls.map (streamedCall fromStr) := by
    apply List.ext_getElem
    · rw [List.length_map, List.length_map, List.length_mapIdx]
    · intro i _ _
      rw [List.getElem_map, List.getElem_map, List.getElem_mapIdx, streamedCall]
  rw [streamOpenai, foldlM_onChunk, Accumulator.foldl_onChunk, getLast?_of_mem_iff h.reason, hreason,
    getLast?_of_mem_iff h.usage, hmodel, hid]
  simp only [bind, Except.bind, Accumulator.finish, Option.map_some, Option.or_none,
    h.entries, hcalls, List.nil_append, streamedAnswer]

theorem streamOpenai_of_no_reason {answer : Answer} {chunks : List StreamChunk} (h : Streams answer chunks)
    (thinking : Thinking) (hreason : answer.choice.finishReason = none) (completion : Completion φ) :
    streamOpenai fromStr thinking (chunks.map .ok) ≠ .ok completion := by
  rw [streamOpenai, foldlM_onChunk, Accumulator.foldl_onChunk, getLast?_of_mem_iff h.reason, hreason]
  exact nofun

theorem streamedCall_eq_iff (hempty : ∃ e, fromStr "" = .error e) (call : MessageToolCall) :
    streamedCall fromStr call = openaiToolCall fromStr call ↔ call.Streamable := by
  cases call with
  | function id name arguments => exact iff_of_true rfl trivial
  | custom id name input =>
    obtain ⟨e, he⟩ := hempty
    simp only [streamedCall, openaiToolCall, MessageToolCall.carried, MessageToolCall.Streamable,
      parseArguments, he, ContentBlock.toolUse.injEq, Value.string.injEq, true_and]
    exact and_congr eq_comm eq_comm

/-- A text that came whole is the only piece of it, and without a text there is none. -/
theorem texts_eq_iff {content : Option String} {texts : List String}
    (h : String.join texts = content.getD "") :
    texts = content.toList ↔ texts.length = content.toList.length := by
  constructor
  · exact congrArg List.length
  · intro hlength
    cases content with
    | none => exact List.eq_nil_of_length_eq_zero hlength
    | some text =>
      obtain ⟨piece, rfl⟩ := List.length_eq_one_iff.mp hlength
      have hpiece : piece = text := by simpa using h
      rw [hpiece]
      rfl

/-- The two transports give the same completion just when the answer has a reason to stop, its text
comes in one delta (in none, if it has no text), and no custom call has anything a delta cannot
carry. A text that is cut is left in pieces. -/
theorem streamOpenai_eq_blocking_iff (hempty : ∃ e, fromStr "" = .error e) (thinking : Thinking)
    {answer : Answer} {chunks : List StreamChunk} (h : Streams answer chunks) :
    streamOpenai fromStr thinking (chunks.map .ok) = blockingCompletion fromStr thinking answer.response ↔
      answer.choice.finishReason.isSome ∧
      (texts (choices chunks)).length = answer.choice.content.toList.length ∧
      ∀ call ∈ answer.calls, call.Streamable := by
  rw [blockingCompletion_response]
  cases hreason : answer.choice.finishReason with
  | none =>
    refine iff_of_false (streamOpenai_of_no_reason fromStr h thinking hreason _) ?_
    rintro ⟨hsome, -⟩
    exact absurd hsome Bool.false_ne_true
  | some reason =>
    rw [streamOpenai_of_streams fromStr h thinking hreason, ← texts_eq_iff h.text]
    have hcalls : answer.calls.map (streamedCall fromStr) = answer.calls.map (openaiToolCall fromStr) ↔
        ∀ call ∈ answer.calls, call.Streamable := by
      rw [List.map_inj_left]
      exact forall₂_congr fun call _ => streamedCall_eq_iff fromStr hempty call
    have htexts : (texts (choices chunks)).map (fun text => (.text text [] : ContentBlock φ)) =
        answer.choice.content.toList.map (.text · []) ↔
        texts (choices chunks) = answer.choice.content.toList := by
      apply List.map_inj_right
      intro a b hab
      exact (ContentBlock.text.inj hab).1
    rw [← hcalls, ← htexts]
    simp only [streamedAnswer, choiceBlocks, choiceStop, hreason, Except.ok.injEq, Completion.mk.injEq,
      Option.map_some, Option.getD_some, Option.isSome_some, true_and, and_true]
    constructor
    · intro heq
      exact List.append_inj' heq (by rw [List.length_map, List.length_map, Answer.calls])
    · rintro ⟨htext, hcall⟩
      rw [htext, hcall]
      rfl

end Transports

/-- A chunk of the stream below with what it has of the choice. -/
def sampleChunk (content : Option String) (toolCalls : Option (List ToolCallChunk))
    (finishReason : Option FinishReason) : StreamChunk :=
  ⟨"chatcmpl-1", "gpt-4o", [⟨content, toolCalls, finishReason⟩], none⟩

/-- A text in one delta, and a call whose arguments are cut in two. -/
theorem streamOpenai_eq_blocking_iff_call :
    let fromStr : String → Except String (Value Unit) := fun text =>
      if text = "\x7b\x7d" then .ok (.object []) else .error "EOF while parsing a value"
    let answer : Answer := ⟨"chatcmpl-1", "gpt-4o",
      ⟨some "hi", some [.function "call_1" "stop" "\x7b\x7d"], some .toolCalls⟩, none⟩
    streamOpenai fromStr ⟨0⟩
        ([sampleChunk (some "hi") none none,
          sampleChunk none (some [⟨0, some "call_1", some ⟨some "stop", some "\x7b"⟩⟩]) none,
          sampleChunk none (some [⟨0, none, some ⟨none, some "\x7d"⟩⟩]) (some .toolCalls)].map .ok) =
      blockingCompletion fromStr ⟨0⟩ answer.response := by
  intro fromStr answer
  refine (streamOpenai_eq_blocking_iff fromStr ⟨"EOF while parsing a value", rfl⟩ ⟨0⟩ ?_).mpr
    ⟨rfl, rfl, ?_⟩
  · constructor
    · simp [sampleChunk, answer]
    · decide
    · decide
    · intro i h
      have hi : i = 0 := by simpa [answer, Answer.calls] using h
      subst hi
      constructor
      · simp [sampleChunk, answer, Answer.calls, choices, calls, Demux.own, ToolCallChunk.slot,
          MessageToolCall.carried, eq_comm]
      · change String.join ["stop", ""] = "stop"
        decide
      · change String.join ["\x7b", "\x7d"] = "\x7b\x7d"
        decide
    · simp [sampleChunk, answer, choices, reasons, eq_comm]
    · simp [sampleChunk, answer, usages]
  · simp [answer, Answer.calls, MessageToolCall.Streamable]

/-- A text that comes in two deltas is two blocks of the streamed completion. -/
theorem streamOpenai_leaves_pieces :
    let answer : Answer := ⟨"chatcmpl-1", "gpt-4o", ⟨some "ab", none, some .stop⟩, none⟩
    let chunks := [sampleChunk (some "a") none none, sampleChunk (some "b") none (some .stop)]
    Streams answer chunks ∧
      ∀ (fromStr : String → Except String (Value Unit)) (thinking : Thinking),
        streamOpenai fromStr thinking (chunks.map .ok) ≠ blockingCompletion fromStr thinking answer.response := by
  intro answer chunks
  refine ⟨?_, ?_⟩
  · constructor
    · simp [sampleChunk, chunks, answer]
    · decide
    · decide
    · intro i h
      exact absurd h (by simp [answer, Answer.calls])
    · simp [sampleChunk, chunks, answer, choices, reasons, eq_comm]
    · simp [sampleChunk, chunks, answer, usages]
  · intro fromStr thinking heq
    have hlength := congrArg (fun result => result.toOption.map fun c => c.content.length) heq
    exact absurd hlength (by change some 2 ≠ some 1; decide)

end SupraHarness.Llm.OpenAi
