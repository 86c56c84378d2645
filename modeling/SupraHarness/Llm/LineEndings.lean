import Mathlib.Data.List.Chain
import SupraHarness.Llm.Sse

/-!
# Line endings

An event stream may end its lines with a line feed or with a carriage return and a line feed. The
Google reader looks for two line feeds in a row, which the second framing never has: it finds no
event in such a stream, whatever the stream carries. A stream read alike in both framings is one
that holds no completed answer.
-/
namespace SupraHarness.Llm

open Utf8

variable {φ : Type} (fromStr : String → Except String (Value φ))

/-- A line of an event: text without a line break. -/
structure EventLine where
  text : List Char
  nonempty : text ≠ []
  noFeed : '\n' ∉ text
  noReturn : '\r' ∉ text

structure SseEvent where
  lines : List EventLine
  nonempty : lines ≠ []

/-- The two ways to end a line. -/
inductive LineEnding where
  | lf | crlf
  deriving DecidableEq, Repr

namespace LineEnding

def chars : LineEnding → List Char
  | lf => ['\n']
  | crlf => ['\r', '\n']

/-- The lines of an event, each with its ending, and a blank one. -/
def frame (ending : LineEnding) (event : SseEvent) : List Char :=
  event.lines.flatMap (fun line => line.text ++ ending.chars) ++ ending.chars

/-- The body of a response that carries the events. -/
def stream (ending : LineEnding) (events : List SseEvent) : List UInt8 :=
  events.flatMap fun event => encode (ending.frame event)

end LineEnding

/-- What the lines of data of an event carry. -/
def SseEvent.payloads (event : SseEvent) : List String :=
  event.lines.filterMap fun line => dataOf line.text

/-! ## A completed answer -/

/-- A function call in the part, if there is one, has a name. -/
def namesCall (part : Value φ) : Bool :=
  match part.get "functionCall" with
  | none => true
  | some call => ((call.get "name").bind Value.asStr).isSome

/-- So does every function call of the event's first candidate. -/
def namesCalls (json : Value φ) : Bool :=
  match ((json.get "candidates").bind Value.asArray).bind List.head? with
  | none => true
  | some candidate =>
    (((getPath candidate ["content", "parts"]).bind Value.asArray).getD []).all namesCall

/-- The event says why generation stopped. -/
def givesReason (json : Value φ) : Bool :=
  match ((json.get "candidates").bind Value.asArray).bind List.head? with
  | some candidate => ((candidate.get "finishReason").bind Value.asStr).isSome
  | none =>
    ((json.get "stop_reason").bind Value.asStr).isSome ||
      (((GoogleStreamState.firstChoice json).bind fun choice =>
        choice.get "finish_reason").bind Value.asStr).isSome

/-- The payloads hold a whole answer: well formed events up to the sentinel, or up to the end of a
body that ends by itself after a reason to stop. -/
def Completes (provider : String) (broken : Option String) : Bool → List String → Prop
  | stopped, [] => stopped = true ∧ broken = none
  | stopped, payload :: payloads =>
    payload = "[DONE]" ∨
      ∃ json, fromStr payload = .ok json ∧ googleRefusal provider json = none ∧
        namesCalls json = true ∧ Completes provider broken (stopped || givesReason json) payloads

namespace GoogleStreamState

theorem applyPart_ok (state : GoogleStreamState φ) {part : Value φ} (h : namesCall part = true) :
    ∃ state', state.applyPart part = .ok state' ∧ state'.stopReason = state.stopReason := by
  rw [namesCall] at h
  cases hcall : part.get "functionCall" with
  | none =>
    simp only [applyPart, hcall]
    refine ⟨_, rfl, ?_⟩
    cases (part.get "text").bind Value.asStr <;> rfl
  | some call =>
    simp only [hcall] at h
    obtain ⟨name, hname⟩ := Option.isSome_iff_exists.mp h
    simp only [applyPart, hcall, applyCall, hname]
    refine ⟨_, rfl, ?_⟩
    cases (part.get "text").bind Value.asStr <;> rfl

theorem applyPart_error (state : GoogleStreamState φ) {part : Value φ} (h : namesCall part = false) :
    ∃ detail, state.applyPart part = .error detail := by
  rw [namesCall] at h
  cases hcall : part.get "functionCall" with
  | none => simp [hcall] at h
  | some call =>
    simp only [hcall, Option.isSome_eq_false_iff, Option.isNone_iff_eq_none] at h
    simp only [applyPart, hcall, applyCall, h]
    exact ⟨_, rfl⟩

theorem foldlM_applyPart_ok (parts : List (Value φ)) (state : GoogleStreamState φ)
    (h : parts.all namesCall = true) :
    ∃ state', parts.foldlM applyPart state = .ok state' ∧ state'.stopReason = state.stopReason := by
  induction parts generalizing state with
  | nil => exact ⟨state, rfl, rfl⟩
  | cons part parts ih =>
    simp only [List.all_cons, Bool.and_eq_true] at h
    obtain ⟨first, hfirst, hreason⟩ := state.applyPart_ok h.1
    obtain ⟨last, hlast, hkept⟩ := ih first h.2
    rw [List.foldlM_cons, hfirst]
    exact ⟨last, hlast, hkept.trans hreason⟩

theorem foldlM_applyPart_error (parts : List (Value φ)) (state : GoogleStreamState φ)
    (h : parts.all namesCall = false) : ∃ detail, parts.foldlM applyPart state = .error detail := by
  induction parts generalizing state with
  | nil => cases h
  | cons part parts ih =>
    rw [List.foldlM_cons]
    cases hpart : namesCall part with
    | false =>
      obtain ⟨detail, hdetail⟩ := state.applyPart_error hpart
      rw [hdetail]
      exact ⟨detail, rfl⟩
    | true =>
      obtain ⟨first, hfirst, -⟩ := state.applyPart_ok hpart
      rw [List.all_cons, hpart, Bool.true_and] at h
      rw [hfirst]
      exact ih first h

/-- An event whose calls are named is applied, and says whether it gave a reason to stop. -/
theorem applyEvent_ok (state : GoogleStreamState φ) {json : Value φ} (h : namesCalls json = true) :
    ∃ state', state.applyEvent json = .ok state' ∧
      state'.stopReason.isSome = (state.stopReason.isSome || givesReason json) := by
  rw [namesCalls] at h
  rw [applyEvent, givesReason]
  cases hcandidate : ((json.get "candidates").bind Value.asArray).bind List.head? with
  | none =>
    refine ⟨_, rfl, ?_⟩
    simp only [applyDelta]
    cases (json.get "stop_reason").bind Value.asStr <;>
      cases ((firstChoice json).bind fun choice => choice.get "finish_reason").bind Value.asStr <;>
      cases (getPath json ["delta", "text"]).bind Value.asStr <;>
      cases ((firstChoice json).bind fun choice => getPath choice ["delta", "content"]).bind Value.asStr <;>
      simp [pushText]
  | some candidate =>
    simp only [hcandidate] at h
    obtain ⟨last, hlast, hkept⟩ := foldlM_applyPart_ok _ state h
    simp only [applyCandidate, hlast]
    cases (candidate.get "finishReason").bind Value.asStr with
    | none =>
      refine ⟨_, rfl, ?_⟩
      simp [hkept]
    | some reason =>
      refine ⟨_, rfl, ?_⟩
      simp

theorem applyEvent_error (state : GoogleStreamState φ) {json : Value φ} (h : namesCalls json = false) :
    ∃ detail, state.applyEvent json = .error detail := by
  rw [namesCalls] at h
  rw [applyEvent]
  cases hcandidate : ((json.get "candidates").bind Value.asArray).bind List.head? with
  | none => simp [hcandidate] at h
  | some candidate =>
    simp only [hcandidate] at h
    obtain ⟨detail, hdetail⟩ := foldlM_applyPart_error _ state h
    simp only [applyCandidate, hdetail]
    exact ⟨detail, rfl⟩

end GoogleStreamState

/-- How a call leaves, given how it left its loop. -/
def googleLeave (provider : String) (thinking : Thinking) (broken : Option String) :
    Except (GoogleExit φ) (GoogleStreamState φ) → GoogleExit φ
  | .error exit => exit
  | .ok state =>
    match broken with
    | some detail => .error (.transport provider detail)
    | none => googleEnd provider thinking state

/-- The call returns a completion where the payloads complete an answer. -/
theorem googleLeave_ok_iff (provider : String) (thinking : Thinking) (broken : Option String)
    (payloads : List String) (state : GoogleStreamState φ) :
    (∃ completion, googleLeave provider thinking broken
        (payloads.foldlM (googlePayload fromStr provider thinking) state) = .ok completion) ↔
      Completes fromStr provider broken state.stopReason.isSome payloads := by
  induction payloads generalizing state with
  | nil =>
    rw [Completes]
    change (∃ completion, googleLeave provider thinking broken (.ok state) = .ok completion) ↔ _
    cases broken <;> cases hreason : state.stopReason <;> simp [googleLeave, googleEnd, hreason]
  | cons payload payloads ih =>
    rw [Completes, List.foldlM_cons]
    by_cases hdone : payload = "[DONE]"
    · rw [googlePayload, if_pos hdone]
      exact ⟨fun _ => .inl hdone, fun _ => ⟨_, rfl⟩⟩
    · rw [googlePayload, if_neg hdone]
      cases hjson : fromStr payload with
      | error detail =>
        simp [hdone]
        exact fun _ h => by cases h
      | ok json =>
        cases hrefusal : googleRefusal provider json with
        | some refusal =>
          simp [hdone, hrefusal]
          exact fun _ h => by cases h
        | none =>
          cases hnames : namesCalls json with
          | false =>
            obtain ⟨detail, hdetail⟩ := state.applyEvent_error hnames
            simp [hdone, hrefusal, hnames, hdetail]
            exact fun _ h => by cases h
          | true =>
            obtain ⟨next, hnext, hreason⟩ := state.applyEvent_ok hnames
            simp only [hdone, false_or, Except.ok.injEq, exists_eq_left', hrefusal, hnames, hnext,
              true_and, ← hreason]
            exact ih next

/-! ## Where events end -/

/-- No two line feeds in a row, and none at the front, so that such parts can be put together. -/
def Spaced (bytes : List UInt8) : Prop :=
  bytes.IsChain (fun a b => a = 10 → b ≠ 10) ∧ bytes.head? ≠ some 10

namespace Spaced

theorem nil : Spaced [] := ⟨.nil, nofun⟩

theorem append {a b : List UInt8} (ha : Spaced a) (hb : Spaced b) : Spaced (a ++ b) := by
  constructor
  · rw [List.isChain_append]
    refine ⟨ha.1, hb.1, fun x _ y hy _ heq => ?_⟩
    rw [heq] at hy
    exact hb.2 hy
  · cases a with
    | nil => exact hb.2
    | cons byte a => exact ha.2

theorem flatMap {α : Type} {f : α → List UInt8} (l : List α) (h : ∀ x, Spaced (f x)) :
    Spaced (l.flatMap f) := by
  induction l with
  | nil => exact nil
  | cons x l ih => exact (h x).append ih

theorem of_notMem {bytes : List UInt8} (h : (10 : UInt8) ∉ bytes) : Spaced bytes := by
  constructor
  · rw [List.isChain_iff_forall_rel_of_append_cons_cons]
    rintro a b before after rfl rfl
    simp at h
  · intro hhead
    exact absurd (List.mem_of_head? hhead) h

/-- No event ends inside a spaced part. -/
theorem not_end {bytes : List UInt8} (h : Spaced bytes) (n : Nat) : ¬ [10, 10] <:+ bytes.take n := by
  intro hend
  have hpair := (h.1.take n).suffix hend
  simp at hpair

end Spaced

theorem EventLine.notMem_encode (line : EventLine) : (10 : UInt8) ∉ encode line.text := by
  intro h
  exact absurd (mem_of_mem_encode (by decide) h) line.noFeed

theorem encode_flatMap {α : Type} (f : α → List Char) (l : List α) :
    encode (l.flatMap f) = l.flatMap fun x => encode (f x) := by
  rw [encode, List.flatMap_assoc]
  rfl

theorem spaced_crlf (event : SseEvent) : Spaced (encode (LineEnding.crlf.frame event)) := by
  have hending : Spaced (encode LineEnding.crlf.chars) := by
    constructor <;> decide
  rw [LineEnding.frame, encode_append, encode_flatMap]
  apply Spaced.append _ hending
  apply Spaced.flatMap
  intro line
  rw [encode_append]
  exact (Spaced.of_notMem line.notMem_encode).append hending

/-- No event ends in a stream whose lines end with a carriage return and a line feed. -/
theorem findEventEnd_crlf (events : List SseEvent) :
    findEventEnd (LineEnding.crlf.stream events) = none := by
  cases hfind : findEventEnd (LineEnding.crlf.stream events) with
  | none => rfl
  | some stop =>
    have hend := ((findEventEnd_finds _ stop).mp hfind).holds
    exact absurd hend ((Spaced.flatMap events spaced_crlf).not_end stop)

theorem EventLine.encode_ne_nil (line : EventLine) : encode line.text ≠ [] := by
  obtain ⟨c, cs, hcons⟩ := List.exists_cons_of_ne_nil line.nonempty
  rw [hcons, encode_cons]
  exact fun h => utf8EncodeChar_ne_nil c (List.append_eq_nil_iff.mp h).1

theorem spaced_feed (line : EventLine) : Spaced (encode line.text ++ [10]) := by
  have htext := Spaced.of_notMem line.notMem_encode
  constructor
  · rw [List.isChain_append]
    refine ⟨htext.1, List.isChain_singleton _, fun x hx _ _ heq => ?_⟩
    exact absurd (heq ▸ List.mem_of_getLast? hx) line.notMem_encode
  · rw [List.head?_append_of_ne_nil _ line.encode_ne_nil]
    exact htext.2

/-- The lines of an event as they end with line feeds, without the blank line. -/
def feedLines (event : SseEvent) : List UInt8 :=
  event.lines.flatMap fun line => encode line.text ++ [10]

theorem encode_lf (event : SseEvent) :
    encode (LineEnding.lf.frame event) = feedLines event ++ [10] := by
  rw [LineEnding.frame, encode_append, encode_flatMap, feedLines]
  congr 1
  congr 1
  funext line
  exact encode_append line.text LineEnding.lf.chars

theorem feedLines_ends (event : SseEvent) : [10] <:+ feedLines event := by
  obtain ⟨front, line, hlast⟩ := (List.eq_nil_or_concat event.lines).resolve_left event.nonempty
  rw [feedLines, hlast, List.concat_eq_append, List.flatMap_append, List.flatMap_singleton,
    ← List.append_assoc]
  exact List.suffix_append _ _

/-- An event whose lines end with line feeds ends with its blank line. -/
theorem findEventEnd_lf (event : SseEvent) (more : List UInt8) :
    findEventEnd (encode (LineEnding.lf.frame event) ++ more) =
      some (encode (LineEnding.lf.frame event)).length := by
  apply (findEventEnd_finds _ _).mpr
  apply Framing.FirstEnd.append
  have hspaced : Spaced (feedLines event) := Spaced.flatMap _ spaced_feed
  rw [encode_lf]
  constructor
  · exact Nat.le_refl _
  · obtain ⟨front, hfront⟩ := feedLines_ends event
    rw [List.take_length, ← hfront, List.append_assoc]
    exact List.suffix_append front [10, 10]
  · intro earlier hlt
    rw [List.length_append, List.length_singleton] at hlt
    rw [List.take_append_of_le_length (by omega)]
    exact hspaced.not_end earlier

/-! ## What is read -/

theorem EventLine.linesFrom (line : EventLine) (rest : List Char) :
    Str.linesFrom [] (line.text ++ '\n' :: rest) = line.text :: Str.linesFrom [] rest := by
  rw [Str.linesFrom_append line.noFeed, List.nil_append, Str.linesFrom_feed line.noReturn]

theorem lines_lf (event : SseEvent) :
    Str.lines (LineEnding.lf.frame event) = event.lines.map EventLine.text ++ [[]] := by
  rw [LineEnding.frame, Str.lines]
  induction event.lines with
  | nil => rfl
  | cons line lines ih =>
    rw [List.flatMap_cons, List.append_assoc, List.append_assoc]
    change Str.linesFrom [] (line.text ++ '\n' :: _) = _
    rw [line.linesFrom, List.map_cons, List.cons_append]
    exact congrArg (line.text :: ·) ih

theorem payloads_lf (event : SseEvent) :
    (Str.lines (Str.fromUtf8Lossy (encode (LineEnding.lf.frame event)))).filterMap dataOf =
      event.payloads := by
  rw [Str.fromUtf8Lossy_encode, lines_lf, List.filterMap_append, List.filterMap_map]
  exact List.append_nil _

/-- A stream whose lines end with line feeds is read payload by payload. -/
theorem drain_lf (provider : String) (thinking : Thinking) (events : List SseEvent)
    (state : GoogleStreamState φ) :
    googleFraming.drain (googleEvent fromStr provider thinking) state (LineEnding.lf.stream events) =
      ((events.flatMap SseEvent.payloads).foldlM (googlePayload fromStr provider thinking)
        state).map fun state => (state, []) := by
  induction events generalizing state with
  | nil => exact Framing.drain_none _ _ findEventEnd_nil state
  | cons event events ih =>
    have hfind : googleFraming.findEnd (LineEnding.lf.stream (event :: events)) = _ :=
      findEventEnd_lf event (LineEnding.lf.stream events)
    rw [Framing.drain_some _ _ hfind]
    change (googleEvent fromStr provider thinking state ((encode _ ++ LineEnding.lf.stream events).take _)).bind
      (fun state => googleFraming.drain _ state ((encode _ ++ LineEnding.lf.stream events).drop _)) = _
    rw [List.take_left, googleEvent, payloads_lf, List.flatMap_cons, List.foldlM_append, List.drop_left]
    cases event.payloads.foldlM (googlePayload fromStr provider thinking) state with
    | error exit => rfl
    | ok next => exact ih next

theorem readGoogleSse_eq (response : Response) (thinking : Thinking) (chunks : List (List UInt8)) :
    readGoogleSse fromStr (response.recut chunks) thinking =
      googleLeave (response.host.getD "unknown") thinking response.broken
        ((googleFraming.drain (googleEvent fromStr (response.host.getD "unknown") thinking) {}
          chunks.flatten).map Prod.fst) := by
  simp only [readGoogleSse, Response.recut]
  rw [Framing.readChunks_eq_drain _ _ _ findEventEnd_nil, List.nil_append]
  cases googleFraming.drain (googleEvent fromStr (response.host.getD "unknown") thinking) {}
    chunks.flatten <;> rfl

/-- Nothing is read from a stream whose lines end with a carriage return and a line feed. -/
theorem readGoogleSse_crlf (response : Response) (thinking : Thinking) (events : List SseEvent)
    (chunks : List (List UInt8)) (h : chunks.flatten = LineEnding.crlf.stream events) :
    ∃ error, readGoogleSse fromStr (response.recut chunks) thinking = .error error := by
  have hnone : googleFraming.findEnd chunks.flatten = none := h ▸ findEventEnd_crlf events
  rw [readGoogleSse_eq, Framing.drain_none _ _ hnone]
  cases hbroken : response.broken with
  | some detail => exact ⟨_, rfl⟩
  | none => exact ⟨_, rfl⟩

/-- A stream whose lines end with line feeds is read to its completion, if it completes. -/
theorem readGoogleSse_lf (response : Response) (thinking : Thinking) (events : List SseEvent)
    (chunks : List (List UInt8)) (h : chunks.flatten = LineEnding.lf.stream events) :
    (∃ completion, readGoogleSse fromStr (response.recut chunks) thinking = .ok completion) ↔
      Completes fromStr (response.host.getD "unknown") response.broken false
        (events.flatMap SseEvent.payloads) := by
  rw [readGoogleSse_eq, h, drain_lf]
  have hfst : ∀ r : Except (GoogleExit φ) (GoogleStreamState φ),
      (r.map fun state => (state, ([] : List UInt8))).map Prod.fst = r := by
    intro r
    cases r <;> rfl
  rw [hfst]
  exact googleLeave_ok_iff fromStr _ thinking response.broken _ {}

theorem agree_error_iff {ε α : Type} {a b : Except ε α} (hb : ∃ e, b = .error e) :
    Agree a b ↔ ¬ ∃ value, a = .ok value := by
  obtain ⟨e, rfl⟩ := hb
  cases a with
  | ok value =>
    constructor
    · rintro (⟨_, -, h⟩ | ⟨_, _, h, -⟩) <;> cases h
    · intro h
      exact absurd ⟨value, rfl⟩ h
  | error e' =>
    constructor
    · rintro - ⟨_, h⟩
      cases h
    · intro
      exact .inr ⟨e', e, rfl, rfl⟩

/-- The events are read alike in both framings, however each is cut, where they complete no answer. -/
theorem readGoogleSse_framings_iff (response : Response) (thinking : Thinking)
    (events : List SseEvent) (chunks chunks' : List (List UInt8))
    (hlf : chunks.flatten = LineEnding.lf.stream events)
    (hcrlf : chunks'.flatten = LineEnding.crlf.stream events) :
    Agree (readGoogleSse fromStr (response.recut chunks) thinking)
        (readGoogleSse fromStr (response.recut chunks') thinking) ↔
      ¬ Completes fromStr (response.host.getD "unknown") response.broken false
        (events.flatMap SseEvent.payloads) := by
  rw [agree_error_iff (readGoogleSse_crlf fromStr response thinking events chunks' hcrlf),
    readGoogleSse_lf fromStr response thinking events chunks hlf]

/-- An answer in one event: no text, and the reason to stop. -/
def answerText : String := "\x7b\"candidates\":[\x7b\"finishReason\":\"STOP\"\x7d]\x7d"

def answerValue : Value Unit :=
  .object [("candidates", .array [.object [("finishReason", .string "STOP")]])]

def answerFromStr (text : String) : Except String (Value Unit) :=
  if text = answerText then .ok answerValue else .error "expected value"

def answerEvent : SseEvent :=
  ⟨[⟨"data: ".toList ++ answerText.toList, by decide, by decide, by decide⟩], nofun⟩

theorem answer_completes :
    Completes answerFromStr "unknown" none false ([answerEvent].flatMap SseEvent.payloads) := by
  have hpayloads : [answerEvent].flatMap SseEvent.payloads = [answerText] := by decide
  rw [hpayloads]
  exact .inr ⟨answerValue, rfl, rfl, rfl, rfl, rfl⟩

/-- The answer is read in one framing and lost in the other. -/
theorem readGoogleSse_loses_crlf :
    let response : Response := ⟨none, [], [], none⟩
    ¬ Agree
      (readGoogleSse answerFromStr (response.recut [LineEnding.lf.stream [answerEvent]]) ⟨0⟩)
      (readGoogleSse answerFromStr (response.recut [LineEnding.crlf.stream [answerEvent]]) ⟨0⟩) := by
  intro response
  have hcrlf := readGoogleSse_crlf answerFromStr response ⟨0⟩ [answerEvent]
    [LineEnding.crlf.stream [answerEvent]] List.flatten_singleton
  rw [agree_error_iff hcrlf, not_not]
  exact (readGoogleSse_lf answerFromStr response ⟨0⟩ [answerEvent] _ List.flatten_singleton).mpr
    answer_completes

theorem readGoogleSse_framings_iff_answer :
    let response : Response := ⟨none, [], [], none⟩
    Agree
        (readGoogleSse answerFromStr (response.recut [LineEnding.lf.stream [answerEvent]]) ⟨0⟩)
        (readGoogleSse answerFromStr (response.recut [LineEnding.crlf.stream [answerEvent]]) ⟨0⟩) ↔
      ¬ Completes answerFromStr "unknown" none false ([answerEvent].flatMap SseEvent.payloads) :=
  readGoogleSse_framings_iff _ _ _ _ _ _ List.flatten_singleton List.flatten_singleton

end SupraHarness.Llm
