import SupraHarness.Llm.Value

/-!
# Google streams

The state of a streamed `generateContent` answer. An event that holds candidates adds the parts of
the first of them in order; one that holds none is read as a delta in either of two other shapes.
-/
namespace SupraHarness.Llm

variable {φ : Type}

def parseStopReason (reason : String) : StopReason :=
  if reason ∈ ["end_turn", "stop", "STOP"] then .endTurn
  else if reason ∈ ["tool_use", "tool_calls", "function_call"] then .toolUse
  else if reason ∈ ["max_tokens", "length", "MAX_TOKENS"] then .maxTokens
  else if reason = "stop_sequence" then .stopSequence
  else if reason = "pause_turn" then .pauseTurn
  else if reason = "refusal" then .refusal
  else if reason = "model_context_window_exceeded" then .modelContextWindowExceeded
  else if reason ∈ ["content_filter", "safety", "SAFETY", "RECITATION", "BLOCKLIST",
      "PROHIBITED_CONTENT", "SPII", "IMAGE_SAFETY"] then .contentFilter
  else .other reason

/-- The value under the first of the keys that is there. -/
def getFirst (value : Value φ) (keys : List String) : Option (Value φ) :=
  keys.findSome? value.get

/-- The value at the end of a path of keys. -/
def getPath (value : Value φ) (keys : List String) : Option (Value φ) :=
  keys.foldl (fun found key => found.bind fun value => value.get key) (some value)

/-- The usage an event reports, in the spelling of any provider. -/
def parseUsage (json : Value φ) : Option Usage := do
  let usage ← getFirst json ["usage", "usageMetadata"]
  let input ← (getFirst usage ["input_tokens", "prompt_tokens", "promptTokenCount"]).bind
    Value.asU64
  let output ← (getFirst usage ["output_tokens", "completion_tokens", "candidatesTokenCount"]).bind
    Value.asU64
  let cached := (getFirst usage ["cache_read_input_tokens", "cachedContentTokenCount"] <|>
    getPath usage ["prompt_tokens_details", "cached_tokens"]).bind Value.asU64
  some { inputTokens := input, outputTokens := output, cachedTokens := cached.getD 0 }

structure GoogleStreamState (φ : Type) where
  content : List (ContentBlock φ) := []
  stopReason : Option StopReason := none
  model : String := ""
  requestId : Option String := none
  usage : Option Usage := none
  sawToolUse : Bool := false

namespace GoogleStreamState

/-- A block of visible text at the end. -/
def pushText (state : GoogleStreamState φ) (text : String) : GoogleStreamState φ :=
  { state with content := state.content ++ [.text text []] }

/-- The function call of a part. -/
def applyCall (state : GoogleStreamState φ) (call : Value φ) :
    Except String (GoogleStreamState φ) :=
  match (call.get "name").bind Value.asStr with
  | none => .error "Google functionCall has no string name"
  | some name =>
    .ok { state with
      content := state.content ++
        [.toolUse (call.strOrDefault "id") name ((call.get "args").getD (.object []))]
      sawToolUse := true }

def applyPart (state : GoogleStreamState φ) (part : Value φ) :
    Except String (GoogleStreamState φ) :=
  let state := match (part.get "text").bind Value.asStr with
    | some text => state.pushText text
    | none => state
  match part.get "functionCall" with
  | some call => state.applyCall call
  | none => .ok state

/-- The candidate's parts in order, and then its finish reason. -/
def applyCandidate (state : GoogleStreamState φ) (candidate : Value φ) :
    Except String (GoogleStreamState φ) := do
  let parts := ((getPath candidate ["content", "parts"]).bind Value.asArray).getD []
  let state ← parts.foldlM applyPart state
  match (candidate.get "finishReason").bind Value.asStr with
  | none => .ok state
  | some reason =>
    let parsed := parseStopReason reason
    .ok { state with
      stopReason :=
        some (if state.sawToolUse ∧ parsed = .endTurn then .toolUse else parsed) }

/-- The first choice, which chat completions deltas come in. -/
def firstChoice (json : Value φ) : Option (Value φ) :=
  (json.get "choices").bind fun choices => choices.getIdx 0

/-- An event without candidates: a text delta, and a stop reason, in either shape. -/
def applyDelta (state : GoogleStreamState φ) (json : Value φ) : GoogleStreamState φ :=
  let text := (getPath json ["delta", "text"]).bind Value.asStr <|>
    ((firstChoice json).bind fun choice => getPath choice ["delta", "content"]).bind Value.asStr
  let reason := (json.get "stop_reason").bind Value.asStr <|>
    ((firstChoice json).bind fun choice => choice.get "finish_reason").bind Value.asStr
  let state := match text with
    | some delta => state.pushText delta
    | none => state
  { state with stopReason := reason.map parseStopReason <|> state.stopReason }

def applyEvent (state : GoogleStreamState φ) (json : Value φ) :
    Except String (GoogleStreamState φ) := do
  let candidate := ((json.get "candidates").bind Value.asArray).bind List.head?
  let state ← match candidate with
    | some candidate => state.applyCandidate candidate
    | none => .ok (state.applyDelta json)
  .ok { state with
    model := ((getFirst json ["modelVersion", "model"]).bind Value.asStr).getD state.model
    requestId := (getFirst json ["responseId", "id"]).bind Value.asStr <|> state.requestId
    usage := parseUsage json <|> state.usage }

def intoCompletion (state : GoogleStreamState φ) (stopReason : StopReason)
    (thinking : Thinking) : Completion φ where
  content := state.content
  stopReason := stopReason
  stopSequence := none
  model := state.model
  requestId := state.requestId
  usage := state.usage
  thinking := thinking

end GoogleStreamState
end SupraHarness.Llm
