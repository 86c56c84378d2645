import Mathlib.Data.Option.Basic
import SupraHarness.Llm.Value

/-!
# Anthropic streams

The events of a streamed message and the state that applies them. A content block is opened,
extended by deltas and closed under an index of its own; blocks may also come complete with the
start of the message. The text of a tool's input is parsed when its block is closed.
-/
namespace SupraHarness.Llm

open Std (ExtTreeMap)

variable {φ : Type} (fromStr : String → Except String (Value φ))

def maxAnthropicStreamBytes : Nat := 16 * 1024 * 1024
def maxAnthropicEventBytes : Nat := 1024 * 1024
def maxAnthropicBlocks : Nat := 4096

inductive AnthropicBlock (φ : Type) where
  | text (text : String) (citations : List (Value φ))
  | thinking (thinking signature : String)
  | redactedThinking (data : String)
  | toolUse (id name : String) (input : Value φ) (partialJson : String)
  | unknown (raw : Value φ) (partialJson : String)

namespace AnthropicBlock

def start (raw : Value φ) : AnthropicBlock φ :=
  match raw.strOrDefault "type" with
  | "text" => .text (raw.strOrDefault "text") (((raw.get "citations").bind Value.asArray).getD [])
  | "thinking" => .thinking (raw.strOrDefault "thinking") (raw.strOrDefault "signature")
  | "redacted_thinking" => .redactedThinking (raw.strOrDefault "data")
  | "tool_use" =>
    .toolUse (raw.strOrDefault "id") (raw.strOrDefault "name") ((raw.get "input").getD .null) ""
  | _ => .unknown raw ""

def kind : AnthropicBlock φ → String
  | .text .. => "text"
  | .thinking .. => "thinking"
  | .redactedThinking .. => "redacted_thinking"
  | .toolUse .. => "tool_use"
  | .unknown .. => "unknown"

/-- What a delta that is none of the block's own is refused with. -/
def mismatch (block : AnthropicBlock φ) (kind : String) : String :=
  s!"{kind} delta does not match {block.kind} block"

def applyDelta (block : AnthropicBlock φ) (delta : Value φ) : Except String (AnthropicBlock φ) :=
  let kind := delta.strOrDefault "type"
  match block with
  | .text prose citations =>
    if kind = "text_delta" then .ok (.text (prose ++ delta.strOrDefault "text") citations)
    else if kind = "citations_delta" ∨ kind = "citation_delta" then
      .ok (.text prose (citations ++ (delta.get "citation").toList))
    else .error (mismatch block kind)
  | .thinking thought signature =>
    if kind = "thinking_delta" then
      .ok (.thinking (thought ++ delta.strOrDefault "thinking") signature)
    else if kind = "signature_delta" then
      .ok (.thinking thought (signature ++ delta.strOrDefault "signature"))
    else .error (mismatch block kind)
  | .redactedThinking _ => .error (mismatch block kind)
  | .toolUse id name input partialJson =>
    if kind = "input_json_delta" then
      .ok (.toolUse id name input (partialJson ++ delta.strOrDefault "partial_json"))
    else .error (mismatch block kind)
  | .unknown raw partialJson =>
    if kind = "input_json_delta" then
      .ok (.unknown raw (partialJson ++ delta.strOrDefault "partial_json"))
    else .error (mismatch block kind)

def finish : AnthropicBlock φ → Except (Halt String) (ContentBlock φ)
  | .text prose citations => .ok (.text prose citations)
  | .thinking thought signature => .ok (.thinking thought signature)
  | .redactedThinking data => .ok (.redactedThinking data)
  | .toolUse id name input partialJson =>
    if partialJson = "" then .ok (.toolUse id name input)
    else
      match fromStr partialJson with
      | .error error => .error (.err s!"tool input JSON is invalid: {error}")
      | .ok input => .ok (.toolUse id name input)
  | .unknown raw partialJson =>
    if partialJson = "" then .ok (.unknown raw)
    else
      match fromStr partialJson with
      | .error error => .error (.err s!"unknown block input JSON is invalid: {error}")
      | .ok input =>
        match raw.assign "input" input with
        | none => .error .panic
        | some raw => .ok (.unknown raw)

end AnthropicBlock

structure AnthropicStream (φ : Type) where
  opened : ExtTreeMap UInt32 (AnthropicBlock φ) := ∅
  complete : ExtTreeMap UInt32 (ContentBlock φ) := ∅
  stopReason : Option StopReason := none
  stopSequence : Option String := none
  model : String := ""
  requestId : Option String := none
  usage : Option Usage := none
  sawMessageStop : Bool := false

def anthropicStopReason : String → StopReason
  | "end_turn" => .endTurn
  | "tool_use" => .toolUse
  | "max_tokens" => .maxTokens
  | "stop_sequence" => .stopSequence
  | "pause_turn" => .pauseTurn
  | "refusal" => .refusal
  | "model_context_window_exceeded" => .modelContextWindowExceeded
  | other => .other other

def eventIndex (event : Value φ) : Except (Halt String) UInt32 :=
  match (event.get "index").bind Value.asU64 with
  | none => .error (.err "stream event has no index")
  | some index =>
    if index.toNat < 2 ^ 32 then .ok index.toUInt32
    else .error (.err s!"content block index {index} exceeds u32")

namespace AnthropicStream

def ensureBlockCapacity (stream : AnthropicStream φ) : Except (Halt String) Unit :=
  if maxAnthropicBlocks ≤ stream.opened.size + stream.complete.size then
    .error (.err s!"stream exceeds {maxAnthropicBlocks} content blocks")
  else .ok ()

def duplicate (index : UInt32) : Halt String := .err s!"duplicate content block index {index}"

def insertComplete (stream : AnthropicStream φ) (index : UInt32) (block : ContentBlock φ) :
    Except (Halt String) (AnthropicStream φ) := do
  stream.ensureBlockCapacity
  if stream.complete.contains index then .error (duplicate index)
  else .ok { stream with complete := stream.complete.insert index block }

/-- The usage with one of its counts overwritten, where the event reports it. -/
def mergeCount (reported : Value φ) (key : String) (old : UInt64) : UInt64 :=
  ((reported.get key).bind Value.asU64).getD old

def mergeUsage (stream : AnthropicStream φ) (value : Value φ) : AnthropicStream φ :=
  match value.get "usage" with
  | none => stream
  | some reported =>
    let usage := stream.usage.getD {}
    { stream with
      usage := some {
        inputTokens := mergeCount reported "input_tokens" usage.inputTokens
        outputTokens := mergeCount reported "output_tokens" usage.outputTokens
        cachedTokens := mergeCount reported "cache_read_input_tokens" usage.cachedTokens } }

/-- The blocks a message starts with, from an index on. -/
def insertBlocks (stream : AnthropicStream φ) (index : Nat) :
    List (Value φ) → Except (Halt String) (AnthropicStream φ)
  | [] => .ok stream
  | block :: blocks =>
    if 2 ^ 32 ≤ index then .error (.err "out of range integral type conversion attempted")
    else do
      let block ← (AnthropicBlock.start block).finish fromStr
      let stream ← stream.insertComplete (.ofNat index) block
      stream.insertBlocks (index + 1) blocks

/-- The value under a key, or the text an event without one is refused with. -/
def field (event : Value φ) (key missing : String) : Except (Halt String) (Value φ) :=
  match event.get key with
  | none => .error (.err missing)
  | some value => .ok value

def messageStart (stream : AnthropicStream φ) (event : Value φ) :
    Except (Halt String) (AnthropicStream φ) := do
  let message ← field event "message" "message_start has no message"
  let stream := { stream with
    model := message.strOrDefault "model"
    requestId := (message.get "id").bind Value.asStr }
  let stream := stream.mergeUsage message
  stream.insertBlocks fromStr 0 (((message.get "content").bind Value.asArray).getD [])

def blockStart (stream : AnthropicStream φ) (event : Value φ) :
    Except (Halt String) (AnthropicStream φ) := do
  let index ← eventIndex event
  if stream.opened.contains index || stream.complete.contains index then .error (duplicate index)
  else do
    stream.ensureBlockCapacity
    let raw ← field event "content_block" "content_block_start has no block"
    .ok { stream with opened := stream.opened.insert index (AnthropicBlock.start raw) }

def blockDelta (stream : AnthropicStream φ) (event : Value φ) :
    Except (Halt String) (AnthropicStream φ) := do
  let index ← eventIndex event
  let delta ← field event "delta" "content_block_delta has no delta"
  match stream.opened[index]? with
  | none => .error (.err s!"delta for unopened block {index}")
  | some block =>
    match block.applyDelta delta with
    | .error detail => .error (.err detail)
    | .ok block => .ok { stream with opened := stream.opened.insert index block }

def blockStop (stream : AnthropicStream φ) (event : Value φ) :
    Except (Halt String) (AnthropicStream φ) := do
  let index ← eventIndex event
  match stream.opened[index]? with
  | none => .error (.err s!"stop for unopened block {index}")
  | some block => do
    let stream := { stream with opened := stream.opened.erase index }
    let block ← block.finish fromStr
    stream.insertComplete index block

def messageDelta (stream : AnthropicStream φ) (event : Value φ) :
    Except (Halt String) (AnthropicStream φ) := do
  let delta ← field event "delta" "message_delta has no delta"
  let reason := ((delta.get "stop_reason").bind Value.asStr).map anthropicStopReason
  let stream := { stream with
    stopReason := reason <|> stream.stopReason
    stopSequence := (delta.get "stop_sequence").bind Value.asStr }
  .ok (stream.mergeUsage event)

/-- What an error event is refused with. -/
def errorDetail (event : Value φ) : String :=
  ((((event.get "error").bind fun error => error.get "message").bind Value.asStr)).getD
    "the provider sent an error event"

def event (stream : AnthropicStream φ) (event : Value φ) :
    Except (Halt String) (AnthropicStream φ) :=
  match event.strOrDefault "type" with
  | "message_start" => stream.messageStart fromStr event
  | "content_block_start" => stream.blockStart event
  | "content_block_delta" => stream.blockDelta event
  | "content_block_stop" => stream.blockStop fromStr event
  | "message_delta" => stream.messageDelta event
  | "message_stop" => .ok { stream with sawMessageStop := true }
  | "ping" => .ok stream
  | "error" => .error (.err (errorDetail event))
  | kind => .error (.err s!"unknown Anthropic stream event {debug kind}")

end AnthropicStream
end SupraHarness.Llm
