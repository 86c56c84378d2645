import SupraHarness.Lib.Framing
import SupraHarness.Lib.Results
import SupraHarness.Lib.Str
import SupraHarness.Llm.Anthropic
import SupraHarness.Llm.Google

/-!
# Server-sent events

The two readers of a streamed response. Each appends the chunks of the body to a buffer, takes the
complete events off its front and applies their payloads to the state of the provider's protocol.
The Anthropic reader bounds the stream and its events and checks the state when the body ends; the
Google reader returns at its sentinel.
-/
namespace SupraHarness.Llm

variable {φ : Type} (fromStr : String → Except String (Value φ))

/-- The payload of a line of data. -/
def dataOf (line : List Char) : Option String :=
  (Str.stripPrefix "data:".toList line).map fun value => String.ofList (Str.trim value)

/-! ## Anthropic -/

def findSseEventEnd (buffer : List UInt8) : Option Nat :=
  Framing.firstOf ((Framing.position [10, 10] buffer).map (· + 2))
    ((Framing.position [13, 10, 13, 10] buffer).map (· + 4))

theorem findSseEventEnd_finds :
    Framing.Finds findSseEventEnd
      fun front => [10, 10] <:+ front ∨ [13, 10, 13, 10] <:+ front :=
  (Framing.position_finds [10, 10]).firstOf (Framing.position_finds [13, 10, 13, 10])

def sseFraming : Framing UInt8 := findSseEventEnd_finds.framing (by decide)

def ssePayload (event : List UInt8) : Except String (Option String) :=
  match Str.fromUtf8 event with
  | .error error => .error s!"SSE event is not UTF-8: {error}"
  | .ok text =>
    match (Str.lines text).filterMap dataOf with
    | [] => .ok none
    | [data] => .ok (some data)
    | _ => .error "SSE event has multiple data lines"

def badAnthropic (detail : String) : Halt LlmError := .err (.badResponse "anthropic" detail)

/-- A failure of the protocol state, as the reader reports it. -/
def liftHalt (provider : String) : Halt String → Halt LlmError
  | .err detail => .err (.badResponse provider detail)
  | .panic => .panic

def eventTooLong : Halt LlmError :=
  badAnthropic s!"SSE event exceeds {maxAnthropicEventBytes} bytes"

/-- A complete event: its payload is the sentinel or the JSON of a protocol event. -/
def anthropicEvent (state : AnthropicStream φ) (event : List UInt8) :
    Except (Halt LlmError) (AnthropicStream φ) :=
  if maxAnthropicEventBytes < event.length then .error eventTooLong
  else
    match ssePayload event with
    | .error detail => .error (badAnthropic detail)
    | .ok none => .ok state
    | .ok (some payload) =>
      if payload = "[DONE]" then .ok { state with sawMessageStop := true }
      else
        match fromStr payload with
        | .error error => .error (badAnthropic s!"event is not JSON: {error}")
        | .ok json => (state.event fromStr json).mapError (liftHalt "anthropic")

/-- The chunks of the body, with the bytes received and the buffer before them. -/
def anthropicChunks (received : Nat) (state : AnthropicStream φ) (buffer : List UInt8) :
    List (List UInt8) → Except (Halt LlmError) (AnthropicStream φ × List UInt8)
  | [] => .ok (state, buffer)
  | chunk :: chunks =>
    let received := received + chunk.length
    if maxAnthropicStreamBytes < received then
      .error (badAnthropic s!"stream exceeds {maxAnthropicStreamBytes} bytes")
    else
      match sseFraming.drain (anthropicEvent fromStr) state (buffer ++ chunk) with
      | .error halt => .error halt
      | .ok (state, rest) =>
        if maxAnthropicEventBytes < rest.length then .error eventTooLong
        else anthropicChunks received state rest chunks

def isAsciiWhitespace (byte : UInt8) : Bool := [0x20, 0x09, 0x0A, 0x0C, 0x0D].contains byte

/-- What the end of the body is checked for, and the completion. -/
def anthropicEnd (state : AnthropicStream φ) (buffer : List UInt8) (headerId : Option String)
    (thinking : Thinking) : Except (Halt LlmError) (Completion φ) :=
  if !buffer.all isAsciiWhitespace then .error (badAnthropic "stream ended inside an SSE event")
  else if !state.sawMessageStop then .error (badAnthropic "stream ended before message_stop")
  else if !state.opened.isEmpty then
    .error (badAnthropic "stream ended with an open content block")
  else
    match state.stopReason with
    | none => .error (badAnthropic "message_stop arrived without a stop_reason")
    | some stopReason =>
      .ok { content := state.complete.toList.map Prod.snd, stopReason, stopSequence := state.stopSequence,
            model := state.model, requestId := headerId <|> state.requestId,
            usage := state.usage, thinking }

/-- The transport error a body ends with, if it does not end by itself. -/
def bodyEnd (provider : String) (broken : Option String) : Except (Halt LlmError) Unit :=
  match broken with
  | some detail => .error (.err (.transport provider detail))
  | none => .ok ()

def readAnthropicSse (response : Response) (thinking : Thinking) :
    Except (Halt LlmError) (Completion φ) := do
  let headerId := (response.headers.lookup "request-id" <|>
    response.headers.lookup "x-request-id").bind headerStr
  let (state, buffer) ← anthropicChunks fromStr 0 {} [] response.chunks
  bodyEnd "anthropic" response.broken
  anthropicEnd state buffer headerId thinking

/-! ## Google -/

def findEventEnd (buffer : List UInt8) : Option Nat :=
  (Framing.position [10, 10] buffer).map (· + 2)

theorem findEventEnd_finds : Framing.Finds findEventEnd fun front => [10, 10] <:+ front :=
  Framing.position_finds [10, 10]

def googleFraming : Framing UInt8 := findEventEnd_finds.framing (by decide)

/-- How the Google reader leaves its loop. -/
abbrev GoogleExit (φ : Type) := Except LlmError (Completion φ)

/-- The refusal of an event that reports an error, in either shape. -/
def googleRefusal (provider : String) (json : Value φ) : Option LlmError :=
  let detail := (getPath json ["error", "message"]).bind Value.asStr
  if (json.get "type").bind Value.asStr = some "error" then
    some (.badResponse provider (detail.getD "the provider sent an error event"))
  else if (json.get "error").isSome ∧ (json.get "choices").isNone then
    some (.badResponse provider (detail.getD "the provider sent an error object"))
  else none

/-- The reason generation stopped, when the sentinel arrives. -/
def doneReason (state : GoogleStreamState φ) : StopReason :=
  state.stopReason.getD (if state.sawToolUse then .toolUse else .endTurn)

/-- One payload: the sentinel returns, and anything else is an event. -/
def googlePayload (provider : String) (thinking : Thinking) (state : GoogleStreamState φ)
    (payload : String) : Except (GoogleExit φ) (GoogleStreamState φ) :=
  if payload = "[DONE]" then .error (.ok (state.intoCompletion (doneReason state) thinking))
  else
    match fromStr payload with
    | .error _ =>
      .error (.error (.badResponse provider
        ("event is not JSON: " ++ String.ofList (payload.toList.take 80))))
    | .ok json =>
      match googleRefusal provider json with
      | some refusal => .error (.error refusal)
      | none => (state.applyEvent json).mapError fun detail => .error (.badResponse provider detail)

/-- The payloads of a complete event, in order. -/
def googleEvent (provider : String) (thinking : Thinking) (state : GoogleStreamState φ)
    (event : List UInt8) : Except (GoogleExit φ) (GoogleStreamState φ) :=
  ((Str.lines (Str.fromUtf8Lossy event)).filterMap dataOf).foldlM
    (googlePayload fromStr provider thinking) state

/-- What the end of the body is checked for. -/
def googleEnd (provider : String) (thinking : Thinking) (state : GoogleStreamState φ) :
    GoogleExit φ :=
  match state.stopReason with
  | some stopReason => .ok (state.intoCompletion stopReason thinking)
  | none =>
    .error (.badResponse provider
      (if state.content.isEmpty then "the stream ended with no events"
        else "the stream ended before a terminal marker"))

def readGoogleSse (response : Response) (thinking : Thinking) : GoogleExit φ :=
  let provider := response.host.getD "unknown"
  match googleFraming.readChunks (googleEvent fromStr provider thinking) {} [] response.chunks with
  | .error exit => exit
  | .ok (state, _) =>
    match response.broken with
    | some detail => .error (.transport provider detail)
    | none => googleEnd provider thinking state

/-! ## Chunks do not matter -/

theorem anthropicEvent_le {state state' : AnthropicStream φ} {event : List UInt8}
    (h : anthropicEvent fromStr state event = .ok state') :
    event.length ≤ maxAnthropicEventBytes := by
  by_cases hlt : maxAnthropicEventBytes < event.length
  · rw [anthropicEvent, if_pos hlt] at h
    cases h
  · omega

/-- The limits, checked after every chunk, hold of the whole body or fail on it. -/
theorem anthropicChunks_eq_ok {received : Nat} (state : AnthropicStream φ) {buffer : List UInt8}
    (chunks : List (List UInt8)) (r : AnthropicStream φ × List UInt8)
    (hreceived : received ≤ maxAnthropicStreamBytes) (hnone : findSseEventEnd buffer = none)
    (hbuffer : buffer.length ≤ maxAnthropicEventBytes) :
    anthropicChunks fromStr received state buffer chunks = .ok r ↔
      received + chunks.flatten.length ≤ maxAnthropicStreamBytes ∧
        sseFraming.drain (anthropicEvent fromStr) state (buffer ++ chunks.flatten) = .ok r ∧
        r.2.length ≤ maxAnthropicEventBytes := by
  induction chunks generalizing received state buffer with
  | nil =>
    rw [List.flatten_nil, List.append_nil, Framing.drain_none _ _ hnone, anthropicChunks]
    constructor
    · intro h
      cases h
      exact ⟨hreceived, rfl, hbuffer⟩
    · intro h
      exact h.2.1
  | cons chunk chunks ih =>
    rw [List.flatten_cons, ← List.append_assoc, Framing.drain_append, List.length_append,
      ← Nat.add_assoc, anthropicChunks]
    by_cases htotal : maxAnthropicStreamBytes < received + chunk.length
    · rw [if_pos htotal]
      constructor
      · intro h
        cases h
      · intro h
        omega
    · rw [if_neg htotal]
      cases hd : sseFraming.drain (anthropicEvent fromStr) state (buffer ++ chunk) with
      | error halt =>
        constructor
        · intro h
          cases h
        · intro h
          cases h.2.1
      | ok s =>
        have hrest := Framing.findEnd_rest _ _ hd
        simp only [Except.bind]
        by_cases hlong : maxAnthropicEventBytes < s.2.length
        · rw [if_pos hlong]
          constructor
          · intro h
            cases h
          · rintro ⟨-, hdrain, hr⟩
            have hle := Framing.rest_le_of_append _ _ hrest
              (fun _ _ _ h => anthropicEvent_le fromStr h) hdrain hr
            omega
        · rw [if_neg hlong]
          exact ih s.1 (by omega) hrest (by omega)

theorem findSseEventEnd_nil : findSseEventEnd [] = none := rfl

theorem findEventEnd_nil : findEventEnd [] = none := rfl

/-- The two ways a call can end agree: both fail, or both return the same. -/
def Agree {ε α : Type} (a b : Except ε α) : Prop :=
  (∃ value, a = .ok value ∧ b = .ok value) ∨ (∃ e e', a = .error e ∧ b = .error e')

theorem agree_of_iff {ε α : Type} {a b : Except ε α} (h : ∀ value, a = .ok value ↔ b = .ok value) :
    Agree a b := by
  cases a with
  | ok value => exact .inl ⟨value, rfl, (h value).mp rfl⟩
  | error e =>
    cases b with
    | ok value => cases (h value).mpr rfl
    | error e' => exact .inr ⟨e, e', rfl, rfl⟩

/-- A response read in two ways of cutting its body is refused in both, or read as the same. -/
theorem reads_agree (response : Response) (thinking : Thinking)
    (chunks chunks' : List (List UInt8)) (h : chunks.flatten = chunks'.flatten) :
    Agree (readAnthropicSse fromStr (response.recut chunks) thinking)
        (readAnthropicSse fromStr (response.recut chunks') thinking) ∧
      Agree (readGoogleSse fromStr (response.recut chunks) thinking)
        (readGoogleSse fromStr (response.recut chunks') thinking) := by
  constructor
  · apply agree_of_iff
    apply Results.bind_congr_ok
    intro r
    have hread := fun chunks => anthropicChunks_eq_ok fromStr {} chunks r
      (Nat.zero_le _) findSseEventEnd_nil (Nat.zero_le _)
    exact (hread chunks).trans (h ▸ (hread chunks').symm)
  · have heq : readGoogleSse fromStr (response.recut chunks) thinking =
        readGoogleSse fromStr (response.recut chunks') thinking := by
      simp only [readGoogleSse, Response.recut]
      rw [Framing.readChunks_eq_drain _ _ _ findEventEnd_nil chunks,
        Framing.readChunks_eq_drain _ _ _ findEventEnd_nil chunks', h]
    rw [heq]
    exact agree_of_iff fun _ => Iff.rfl

/-- The sentinel, cut inside its delimiter and inside its payload. -/
theorem reads_agree_straddling :
    let response : Response := ⟨none, [], [], none⟩
    let line : List UInt8 := "data: [DONE]".toUTF8.data.toList
    let whole := [line ++ [10, 10]]
    let cut := [line.take 8, line.drop 8 ++ [10], [10]]
    let fromStr : String → Except String (Value Unit) := fun _ => .error "expected value"
    Agree (readAnthropicSse fromStr (response.recut whole) ⟨0⟩)
        (readAnthropicSse fromStr (response.recut cut) ⟨0⟩) ∧
      Agree (readGoogleSse fromStr (response.recut whole) ⟨0⟩)
        (readGoogleSse fromStr (response.recut cut) ⟨0⟩) :=
  reads_agree _ _ _ _ _ (by decide)

end SupraHarness.Llm
