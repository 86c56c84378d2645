import Mathlib.Algebra.Group.Int.Defs
import Mathlib.Algebra.Group.Nat.Defs
import SupraHarness.Llm.Value
import SupraHarness.Rpc.Framing

/-!
# The debug-adapter client

One stream of messages feeds two kinds of waiters: a request waits for its response and sets aside the
events it reads, and a wait for an event looks through those first. A session keeps the client, the
messages it has still to read, and a history: what it read, what it handed out, and each wait with
what lay before it.
-/
namespace SupraHarness.Dap

open Llm (Value)
open Chunks Rpc Utf8

variable {φ α β : Type}

structure Response (φ : Type) where
  seq : UInt64
  requestSeq : UInt64
  success : Bool
  body : Value φ

/-- A parsed message. -/
inductive Framed (φ : Type) where
  | response (response : Response φ)
  | event (name : String)
  | malformed (reason : String)

def asBool : Value φ → Option Bool
  | .bool b => some b
  | _ => none

/-- How `read_frame` tells a message by its value. -/
def classify (value : Value φ) : Framed φ :=
  if (value.get "event").isSome then .event (value.strOrDefault "event")
  else if (value.get "request_seq").isSome then
    .response {
      seq := ((value.get "seq").bind Value.asU64).getD 0
      requestSeq := ((value.get "request_seq").bind Value.asU64).getD 0
      success := ((value.get "success").bind asBool).getD false
      body := (value.get "body").getD .null }
  else if (value.get "command").isSome then .event "reverse-request"
  else .malformed "message without event or request_seq"

inductive DapError where
  | transport (text : String)
  | protocol (text : String)
  deriving DecidableEq, Repr

/-- Why a call does not return a value. A length that overflows panics. -/
inductive Failure where
  | error (error : DapError)
  | panicked
  deriving DecidableEq, Repr

/-- What one read gives. -/
inductive Item (φ : Type) where
  | framed (framed : Framed φ)
  | failed (failure : Failure)

/-- Read one message and the offset after it; nothing where the length overflows. -/
def readFrameAt (fromStr : Text → Except String (Value φ)) (input : Bytes) (offset : Nat) :
    Option (Framed φ × Nat) :=
  match cutFrame input offset with
  | .panicked => none
  | .malformed reason => some (.malformed reason, offset)
  | .body text next =>
    match fromStr text with
    | .ok value => some (classify value, next)
    | .error error => some (.malformed error, next)

/-- What a read from the front of a message gives the client. -/
def readFrame (fromStr : Text → Except String (Value φ)) (message : Bytes) : Item φ :=
  match cutFrame message 0 with
  | .panicked => .failed .panicked
  | .malformed reason => .framed (.malformed reason)
  | .body text _ =>
    match fromStr text with
    | .ok value => .framed (classify value)
    | .error error => .framed (.malformed error)

def mapRead : ReadError → DapError
  | .transport text => .transport text
  | .protocol text => .protocol text

/-- What `read_one` gives, read after read. Every message takes a byte of the input. -/
def incoming (fromStr : Text → Except String (Value φ)) : Nat → PipedInput → List (Item φ)
  | 0, _ => []
  | fuel + 1, input =>
    match readMessage input with
    | .error error => [.failed (.error (mapRead error))]
    | .ok none => []
    | .ok (some (message, input)) => readFrame fromStr message :: incoming fromStr fuel input

/-- A request with the response it was given and what the caller was told. -/
structure Answer (φ : Type) where
  request : UInt64
  response : Response φ
  outcome : Except DapError (Value φ)

/-- A wait for the response to a request, or for an event. -/
inductive Wait where
  | response (request : UInt64)
  | event (name : String)
  deriving DecidableEq, Repr

/-- A wait with the events set aside and the messages to come when it started. -/
structure Started (φ : Type) where
  wait : Wait
  events : List String
  inbox : List (Item φ)

/-- The client, its unread messages, and the history of what it did with the others. -/
structure Session (φ : Type) where
  nextSeq : UInt64
  initialized : Bool
  events : List String
  inbox : List (Item φ)
  read : List (Framed φ)
  returned : List String
  answers : List (Answer φ)
  unanswered : List UInt64
  waits : List (Started φ)

/-- A client that reads these messages. -/
def Session.start (inbox : List (Item φ)) : Session φ where
  nextSeq := 0
  initialized := false
  events := []
  inbox := inbox
  read := []
  returned := []
  answers := []
  unanswered := []
  waits := []

/-- A computation of the client. -/
def Action (φ α : Type) : Type := Session φ → Except Failure α × Session φ

instance : Monad (Action φ) where
  pure a s := (.ok a, s)
  bind x f s :=
    match x s with
    | (.ok a, s) => f a s
    | (.error failure, s) => (.error failure, s)

def fail (failure : Failure) : Action φ α := fun s => (.error failure, s)

def closed : Failure := .error (.transport "the adapter closed without answering")

def Session.begin (s : Session φ) (wait : Wait) : Session φ :=
  { s with waits := s.waits ++ [⟨wait, s.events, s.inbox⟩] }

def Session.take (s : Session φ) (framed : Framed φ) (inbox : List (Item φ)) : Session φ :=
  { s with read := s.read ++ [framed], inbox := inbox }

def Session.setAside (s : Session φ) (name : String) : Session φ := { s with events := s.events ++ [name] }

def Session.giveUp (s : Session φ) (request : UInt64) : Session φ :=
  { s with unanswered := s.unanswered ++ [request] }

def Session.answer (s : Session φ) (answer : Answer φ) : Session φ :=
  { s with answers := s.answers ++ [answer] }

def Session.hand (s : Session φ) (name : String) (events : List String) : Session φ :=
  { s with events := events, returned := s.returned ++ [name] }

/-- What the caller of a request is told. -/
def judge (command : String) (response : Response φ) : Except DapError (Value φ) :=
  if response.success then .ok response.body
  else
    let message := ((((response.body.get "error").bind (·.get "message")).bind Value.asStr).getD
      "the adapter refused")
    .error (.protocol (command ++ ": " ++ message))

def outcome : Except DapError (Value φ) → Except Failure (Value φ)
  | .ok value => .ok value
  | .error error => .error (.error error)

/-- The loop of `await_response`, over the messages to come. -/
def awaitLoop (command : String) (request : UInt64) : List (Item φ) → Action φ (Value φ)
  | [], s => (.error closed, ({ s with inbox := [] } : Session φ).giveUp request)
  | .failed failure :: rest, s => (.error failure, ({ s with inbox := rest } : Session φ).giveUp request)
  | .framed (.response response) :: rest, s =>
    if response.requestSeq = request then
      let told := judge command response
      (outcome told, (s.take (.response response) rest).answer ⟨request, response, told⟩)
    else awaitLoop command request rest (s.take (.response response) rest)
  | .framed (.event name) :: rest, s =>
    awaitLoop command request rest ((s.take (.event name) rest).setAside name)
  | .framed (.malformed reason) :: rest, s =>
    (.error (.error (.protocol reason)), (s.take (.malformed reason) rest).giveUp request)

def awaitResponse (command : String) (request : UInt64) : Action φ (Value φ) := fun s =>
  awaitLoop command request s.inbox (s.begin (.response request))

/-- Pop the events set aside up to the first of a name; without one they are all popped. -/
def popUntil (name : String) : List String → Option (List String)
  | [] => none
  | event :: rest => if event = name then some rest else popUntil name rest

def eventValue (name : String) : Value φ := .object [("event", .string name)]

/-- The loop of `wait_event`, over the messages to come. -/
def waitLoop (name : String) : List (Item φ) → Action φ (Value φ)
  | [], s =>
    match popUntil name s.events with
    | some rest => (.ok (eventValue name), s.hand name rest)
    | none => (.error closed, { s with events := [], inbox := [] })
  | item :: rest, s =>
    match popUntil name s.events with
    | some events => (.ok (eventValue name), s.hand name events)
    | none =>
      let s : Session φ := { s with events := [] }
      match item with
      | .failed failure => (.error failure, { s with inbox := rest })
      | .framed (.event event) =>
        if event = name then (.ok (eventValue event), (s.take (.event event) rest).hand event [])
        else waitLoop name rest ((s.take (.event event) rest).setAside event)
      | .framed (.response response) => waitLoop name rest (s.take (.response response) rest)
      | .framed (.malformed reason) =>
        (.error (.error (.protocol reason)), s.take (.malformed reason) rest)

def waitEvent (name : String) : Action φ (Value φ) := fun s =>
  waitLoop name s.inbox (s.begin (.event name))

section calls
variable (write : Value φ → Except String Unit)

/-- Write one request without waiting for its answer. -/
def send (command : String) (arguments : Value φ) : Action φ UInt64 := fun s =>
  let s : Session φ := { s with nextSeq := s.nextSeq + 1 }
  match write (.object [("seq", .number (.posInt s.nextSeq)), ("type", .string "request"),
    ("command", .string command), ("arguments", arguments)]) with
  | .error error => (.error (.error (.transport ("write: " ++ error))), s)
  | .ok () => (.ok s.nextSeq, s)

def request (command : String) (arguments : Value φ) : Action φ (Value φ) := do
  let requestSeq ← send write command arguments
  awaitResponse command requestSeq

def markInitialized : Action φ Unit := fun s => (.ok (), { s with initialized := true })

/-- The initialize handshake and launch. -/
def initializeSession (program : String) : Action φ Unit := do
  let _ ← request write "initialize" (.object [("adapterID", .string "supra"),
    ("linesStartAt1", .bool true), ("columnsStartAt1", .bool true), ("pathFormat", .string "path")])
  let _ ← waitEvent "initialized"
  let launchSeq ← send write "launch" (.object [("program", .string program), ("stopOnEntry", .bool false)])
  let configuredSeq ← send write "configurationDone" (.object [])
  let _ ← awaitResponse "launch" launchSeq
  let _ ← awaitResponse "configurationDone" configuredSeq
  markInitialized

/-- A breakpoint the adapter confirmed. -/
structure Breakpoint where
  path : String
  line : UInt32
  verified : Bool
  deriving DecidableEq, Repr

/-- The first confirmed breakpoint, with what was asked for where the adapter does not say. -/
def confirmed (path : String) (line : UInt32) (breakpoints : List (Value φ)) : Breakpoint :=
  let first := breakpoints.head?.getD .null
  let confirmedLine := ((first.get "line").bind Value.asU64).getD line.toUInt64
  { path := path
    line := if confirmedLine.toNat < 2 ^ 32 then confirmedLine.toUInt32 else line
    verified := ((first.get "verified").bind asBool).getD false }

def setBreakpoint (path : String) (line : UInt32) : Action φ Breakpoint := do
  let number : Value φ := .number (.posInt line.toUInt64)
  let result ← request write "setBreakpoints" (.object [("source", .object [("path", .string path)]),
    ("breakpoints", .array [.object [("line", number)]]), ("lines", .array [number])])
  match (result.get "breakpoints").bind Value.asArray with
  | some breakpoints => return confirmed path line breakpoints
  | none => fail (.error (.protocol "setBreakpoints without breakpoints"))

/-- The stack trace at the current stop, its frames as a decoder gives them. -/
def stackTrace {Frames : Type} (fromValue : Value φ → Except String Frames) : Action φ Frames := do
  let result ← request write "stackTrace" (.object [("threadId", .number (.posInt 1)),
    ("startFrame", .number (.posInt 0)), ("levels", .number (.posInt 20))])
  match fromValue ((result.get "stackFrames").getD (.array [])) with
  | .ok frames => return frames
  | .error error => fail (.error (.protocol ("stackFrames: " ++ error)))

/-- A call of the client. -/
inductive Call where
  | initializeSession (program : String)
  | setBreakpoint (path : String) (line : UInt32)
  | waitEvent (name : String)
  | stackTrace
  deriving DecidableEq, Repr

variable {Frames : Type} (fromValue : Value φ → Except String Frames)

def Call.run : Call → Session φ → Session φ
  | .initializeSession program, s => (Dap.initializeSession write program s).2
  | .setBreakpoint path line, s => (Dap.setBreakpoint write path line s).2
  | .waitEvent name, s => (Dap.waitEvent name s).2
  | .stackTrace, s => (Dap.stackTrace write fromValue s).2

/-- A sequence of calls. -/
def runAll (calls : List Call) (s : Session φ) : Session φ :=
  calls.foldl (fun s call => call.run write fromValue s) s

end calls

end SupraHarness.Dap
