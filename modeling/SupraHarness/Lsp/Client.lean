import Mathlib.Algebra.Group.Int.Defs
import Mathlib.Algebra.Group.Nat.Defs
import SupraHarness.Llm.Value
import SupraHarness.Rpc.Framing

/-!
# The language-server client

A request goes out, and the client reads messages until the answer. A message is told apart by its
id alone: what has an unsigned id counts as a response to it, what has no id and a method is a
notification, and anything else ends the wait.
-/
namespace SupraHarness.Lsp

open Llm (Value)
open Chunks Rpc Utf8

variable {φ : Type}

/-- A parsed message. -/
inductive Framed (φ : Type) where
  | response (id : UInt64) (result : Value φ)
  | notification
  | malformed (reason : String)

/-- How `read_frame` tells a message by its value. -/
def classify (value : Value φ) : Framed φ :=
  if (value.get "method").isSome ∧ (value.get "id").isNone then .notification
  else
    match (value.get "id").bind Value.asU64 with
    | some id => .response id ((value.get "result").getD .null)
    | none => .malformed "response without id"

/-- Read one message and the offset after it; nothing where the length overflows. -/
def readFrame (fromStr : Text → Except String (Value φ)) (input : Bytes) (offset : Nat) :
    Option (Framed φ × Nat) :=
  match cutFrame input offset with
  | .panicked => none
  | .malformed reason => some (.malformed reason, offset)
  | .body text next =>
    match fromStr text with
    | .ok value => some (classify value, next)
    | .error error => some (.malformed error, next)

inductive LspError where
  | transport (text : String)
  | protocol (text : String)
  | server (text : String)
  | crashed (text : String)
  deriving DecidableEq, Repr

/-- How a wait ends. -/
inductive Ending (φ : Type) where
  | answer (result : Value φ) (input : PipedInput)
  | failed (error : LspError)
  | panicked

/-- A wait: the messages it read, the last of which ended it, and how it ended. -/
structure Wait (φ : Type) where
  read : List Bytes
  ending : Ending φ

def mapRead : ReadError → LspError
  | .transport text => .transport text
  | .protocol text => .protocol text

/-- The loop of `send_and_expect`. -/
def awaitAnswer (fromStr : Text → Except String (Value φ)) (id : UInt64) :
    Nat → List Bytes → PipedInput → Wait φ
  | 0, read, _ => ⟨read, .failed (.crashed "the server closed without answering")⟩
  | fuel + 1, read, input =>
    match readMessage input with
    | .error error => ⟨read, .failed (mapRead error)⟩
    | .ok none => ⟨read, .failed (.crashed "the server closed without answering")⟩
    | .ok (some (message, input)) =>
      match readFrame fromStr message 0 with
      | none => ⟨read ++ [message], .panicked⟩
      | some (.response seen result, _) =>
        if seen = id then ⟨read ++ [message], .answer result input⟩
        else awaitAnswer fromStr id fuel (read ++ [message]) input
      | some (.notification, _) => awaitAnswer fromStr id fuel (read ++ [message]) input
      | some (.malformed reason, _) => ⟨read ++ [message], .failed (.protocol reason)⟩

/-- The id of a request. -/
def requestId (request : Value φ) : UInt64 := ((request.get "id").bind Value.asU64).getD 0xFFFFFFFFFFFFFFFF

/-- Write a request and wait for its answer. Every message takes a byte of the input, so the input
bounds the number of messages. -/
def sendAndExpect (toText : Value φ → Text) (write : Text → Except String Unit)
    (fromStr : Text → Except String (Value φ)) (request : Value φ) (input : PipedInput) : Wait φ :=
  match write (frame (toText request)) with
  | .error error => ⟨[], .failed (.transport ("write: " ++ error))⟩
  | .ok () => awaitAnswer fromStr (requestId request) (input.size + 1) [] input

/-- An id of the protocol: a number or a string. -/
def IsId : Value φ → Prop
  | .number _ | .string _ => True
  | _ => False

/-- The three kinds of message. -/
inductive WellFormed (value : Value φ) : Prop where
  | notification (method : String) (named : value.get "method" = some (.string method))
      (anonymous : value.get "id" = none)
  | request (method : String) (id : Value φ) (named : value.get "method" = some (.string method))
      (numbered : value.get "id" = some id) (proper : IsId id)
  | response (id : Value φ) (unnamed : value.get "method" = none)
      (numbered : value.get "id" = some id) (proper : IsId id ∨ id = .null)
      (member : (value.get "result").isSome ↔ value.get "error" = none)

/-- A response that carries this id. -/
def Answers (id : UInt64) (value : Value φ) : Prop :=
  value.get "method" = none ∧ value.get "id" = some (.number (.posInt id))

section
variable {fromStr : Text → Except String (Value φ)}

/-- The wait reads up to the answer and ends as the answer says. -/
structure Correct (before : List (Message fromStr)) (answer : Message fromStr) (wait : Wait φ) : Prop where
  read : wait.read = before.map Message.bytes ++ [answer.bytes]
  refused : (answer.value.get "error").isSome → ∃ text, wait.ending = .failed (.server text)
  answered : ∀ result, answer.value.get "result" = some result → ∃ input, wait.ending = .answer result input

/-- A message the client reads past: a notification, or whatever carries another unsigned id. -/
def Passed (id : UInt64) (value : Value φ) : Prop :=
  ((value.get "method").isSome ∧ value.get "id" = none) ∨
    ∃ seen, seen ≠ id ∧ value.get "id" = some (.number (.posInt seen))

theorem readFrame_bytes (message : Message fromStr) :
    readFrame fromStr message.bytes 0 = some (classify message.value, message.bytes.length) := by
  simp [readFrame, message.cutFrame, message.parses]

/-- One round of the wait. -/
theorem awaitAnswer_step (id : UInt64) (fuel : Nat) (read : List Bytes) {input : PipedInput}
    (message : Message fromStr) {rest : Bytes} (hinput : input.Delivers (message.bytes ++ rest)) :
    ∃ input' : PipedInput, input'.Delivers rest ∧
      awaitAnswer fromStr id (fuel + 1) read input =
        match classify message.value with
        | .response seen result =>
          if seen = id then ⟨read ++ [message.bytes], .answer result input'⟩
          else awaitAnswer fromStr id fuel (read ++ [message.bytes]) input'
        | .notification => awaitAnswer fromStr id fuel (read ++ [message.bytes]) input'
        | .malformed reason => ⟨read ++ [message.bytes], .failed (.protocol reason)⟩ := by
  obtain ⟨input', hrest, hread⟩ := message.readMessage hinput
  refine ⟨input', hrest, ?_⟩
  simp only [awaitAnswer, hread, readFrame_bytes]
  cases classify message.value <;> rfl

/-- The classification goes on exactly at the messages that are read past. -/
theorem passed_iff (id : UInt64) (value : Value φ) :
    Passed id value ↔ classify value = .notification ∨
      ∃ seen result, seen ≠ id ∧ classify value = .response seen result := by
  unfold Passed classify
  by_cases hnotification : (value.get "method").isSome ∧ (value.get "id").isNone
  · have hid : value.get "id" = none := Option.isNone_iff_eq_none.mp hnotification.2
    simp [hnotification, hid]
  · rw [if_neg hnotification]
    have hnot : ¬ ((value.get "method").isSome ∧ value.get "id" = none) := by
      rintro ⟨hmethod, hid⟩
      exact hnotification ⟨hmethod, by simp [hid]⟩
    rw [or_iff_right hnot]
    cases hid : value.get "id" with
    | none => simp
    | some found =>
      cases hnumber : found.asU64 with
      | none =>
        simp only [Option.bind_some, hnumber, reduceCtorEq, false_or, and_false, exists_false, iff_false,
          Option.some.injEq]
        rintro ⟨seen, -, rfl⟩
        cases hnumber
      | some seen =>
        have hfound : found = .number (.posInt seen) := by
          cases found with
          | number n => cases n <;> simp_all [Value.asU64]
          | _ => cases hnumber
        subst hfound
        simp [Value.asU64]

/-- What is read past is only logged. -/
theorem awaitAnswer_passed {id : UInt64} {before : List (Message fromStr)}
    (hpassed : ∀ message ∈ before, Passed id message.value) (fuel : Nat) (read : List Bytes)
    {input : PipedInput} {rest : Bytes} (hinput : input.Delivers (before.flatMap Message.bytes ++ rest)) :
    ∃ input' : PipedInput, input'.Delivers rest ∧
      awaitAnswer fromStr id (before.length + fuel) read input =
        awaitAnswer fromStr id fuel (read ++ before.map Message.bytes) input' := by
  induction before generalizing read input with
  | nil => exact ⟨input, by simpa using hinput, by simp⟩
  | cons message before ih =>
    rw [List.flatMap_cons, List.append_assoc] at hinput
    obtain ⟨input₁, hrest, hstep⟩ :=
      awaitAnswer_step id (before.length + fuel) read message hinput
    obtain ⟨input₂, hdelivers, hrun⟩ :=
      ih (fun m hm => hpassed m (by simp [hm])) (read ++ [message.bytes]) hrest
    refine ⟨input₂, hdelivers, ?_⟩
    have hlength : (message :: before).length + fuel = before.length + fuel + 1 := by
      simp
      omega
    rw [hlength, hstep]
    rcases (passed_iff id message.value).mp (hpassed message (by simp)) with hclass | ⟨seen, result, hne, hclass⟩
    · simp only [hclass, hrun]
      simp
    · simp only [hclass, if_neg hne, hrun]
      simp

/-- A wait ends at the first message it does not read past. -/
theorem awaitAnswer_stops {id : UInt64} {message : Message fromStr} (hstops : ¬ Passed id message.value)
    (fuel : Nat) (read : List Bytes) {input : PipedInput} {rest : Bytes}
    (hinput : input.Delivers (message.bytes ++ rest)) :
    (awaitAnswer fromStr id (fuel + 1) read input).read = read ++ [message.bytes] := by
  obtain ⟨input', -, hstep⟩ := awaitAnswer_step id fuel read message hinput
  rw [hstep]
  rw [passed_iff] at hstops
  cases hclass : classify message.value with
  | notification => exact absurd (.inl hclass) hstops
  | response seen result =>
    by_cases hseen : seen = id
    · simp [hseen]
    · exact absurd (.inr ⟨seen, result, hseen, hclass⟩) hstops
  | malformed reason => rfl

theorem classify_answer {id : UInt64} {value : Value φ} (h : Answers id value) :
    classify value = .response id ((value.get "result").getD .null) := by
  simp [classify, h.1, h.2, Value.asU64]

end

/-- Whatever the server sends before the answer, and in whatever pieces, the wait is right exactly
when it is let past all of it and the answer is not an error. -/
theorem sendAndExpect_correct_iff (toText : Value φ → Text) (write : Text → Except String Unit)
    (fromStr : Text → Except String (Value φ)) (request : Value φ)
    (hwrite : write (frame (toText request)) = .ok ())
    (before : List (Message fromStr)) (answer : Message fromStr)
    (hanswers : Answers (requestId request) answer.value) (rest : Bytes) (input : PipedInput)
    (hinput : input.Delivers (before.flatMap Message.bytes ++ (answer.bytes ++ rest))) :
    Correct before answer (sendAndExpect toText write fromStr request input) ↔
      (∀ message ∈ before, Passed (requestId request) message.value) ∧ answer.value.get "error" = none := by
  have hroom : before.length + 1 ≤ input.size := by
    have hlength := hinput.length_le
    have hcount := length_le_bytes before
    have hone := answer.one_le_length
    simp only [List.length_append] at hlength
    omega
  obtain ⟨spare, hspare⟩ : ∃ spare, input.size + 1 = before.length + (spare + 1) :=
    ⟨input.size - before.length, by omega⟩
  simp only [sendAndExpect, hwrite, hspare]
  generalize requestId request = id at hanswers ⊢
  by_cases hpassed : ∀ message ∈ before, Passed id message.value
  · obtain ⟨input₁, hdelivers, hrun⟩ := awaitAnswer_passed hpassed (spare + 1) [] hinput
    obtain ⟨input₂, -, hstep⟩ := awaitAnswer_step id spare ([] ++ before.map Message.bytes) answer hdelivers
    rw [hrun, hstep, classify_answer hanswers]
    simp only [if_true, List.nil_append]
    constructor
    · intro hcorrect
      refine ⟨hpassed, ?_⟩
      by_contra herror
      obtain ⟨text, htext⟩ := hcorrect.refused (Option.isSome_iff_ne_none.mpr herror)
      cases htext
    · rintro ⟨-, herror⟩
      refine ⟨rfl, ?_, ?_⟩
      · intro hsome
        rw [herror] at hsome
        cases hsome
      · intro result hresult
        exact ⟨input₂, by rw [hresult]; rfl⟩
  · refine iff_of_false ?_ (fun h => hpassed h.1)
    intro hcorrect
    -- the wait ended before the answer, at the first message it was not let past
    obtain ⟨front, stop, back, rfl, hfront, hstop⟩ : ∃ front stop back, before = front ++ stop :: back ∧
        (∀ message ∈ front, Passed id message.value) ∧ ¬ Passed id stop.value := by
      clear hinput hroom hspare hcorrect
      induction before with
      | nil => simp at hpassed
      | cons message before ih =>
        by_cases hmessage : Passed id message.value
        · obtain ⟨front, stop, back, rfl, hfront, hstop⟩ := ih (by
            intro hall
            exact hpassed (List.forall_mem_cons.mpr ⟨hmessage, hall⟩))
          exact ⟨message :: front, stop, back, rfl, List.forall_mem_cons.mpr ⟨hmessage, hfront⟩, hstop⟩
        · exact ⟨[], message, before, rfl, by simp, hmessage⟩
    rw [List.flatMap_append, List.flatMap_cons, List.append_assoc, List.append_assoc] at hinput
    obtain ⟨input₁, hdelivers, hrun⟩ := awaitAnswer_passed hfront (back.length + spare + 2) [] hinput
    have hstops := awaitAnswer_stops hstop (back.length + spare + 1) ([] ++ front.map Message.bytes) hdelivers
    have hread := hcorrect.read
    rw [show (front ++ stop :: back).length + (spare + 1) = front.length + (back.length + spare + 2) by
      simp; omega, hrun, hstops] at hread
    have hlength := congrArg List.length hread
    simp at hlength

/-- A request, and three messages that can follow it. -/
def references : Value Unit := .object [("id", .number (.posInt 2)), ("method", .string "references")]

def logText : Text := "\x7b\"method\":\"log\"\x7d".toList

def registerText : Text := "\x7b\"id\":2,\"method\":\"register\"\x7d".toList

def answerText : Text := "\x7b\"id\":2,\"result\":[]\x7d".toList

/-- The parser on these texts. -/
def parseSample (text : Text) : Except String (Value Unit) :=
  if text = logText then .ok (.object [("method", .string "log")])
  else if text = registerText then
    .ok (.object [("id", .number (.posInt 2)), ("method", .string "register")])
  else if text = answerText then .ok (.object [("id", .number (.posInt 2)), ("result", .array [])])
  else .error "expected value at line 1 column 1"

def logMessage : Message parseSample where
  head := .bare
  body := logText
  value := .object [("method", .string "log")]
  parses := by simp [parseSample]
  fits := by decide

def registration : Message parseSample where
  head := .bare
  body := registerText
  value := .object [("id", .number (.posInt 2)), ("method", .string "register")]
  parses := by rw [parseSample, if_neg (by decide), if_pos rfl]
  fits := by decide

def answered : Message parseSample where
  head := .bare
  body := answerText
  value := .object [("id", .number (.posInt 2)), ("result", .array [])]
  parses := by rw [parseSample, if_neg (by decide), if_neg (by decide), if_pos rfl]
  fits := by decide

/-- The input after these messages have arrived in one piece. -/
def arrived (messages : List (Message parseSample)) : PipedInput := ⟨messages.flatMap Message.bytes, []⟩

theorem logged_references :
    Correct [logMessage] answered
      (sendAndExpect (fun _ => []) (fun _ => .ok ()) parseSample references (arrived [logMessage, answered])) :=
  (sendAndExpect_correct_iff (fun _ => []) (fun _ => .ok ()) parseSample references rfl [logMessage] answered
    ⟨rfl, rfl⟩ [] (arrived [logMessage, answered])
    ⟨[], [], rfl, by simp, by simp [arrived]⟩).mpr
    ⟨by
      intro message hmessage
      obtain rfl := List.mem_singleton.mp hmessage
      exact .inl ⟨rfl, rfl⟩, rfl⟩

/-- The server's own request is taken for the answer, since it is numbered as the client's is. -/
theorem registration_taken :
    (WellFormed registration.value ∧ ¬ Answers 2 registration.value) ∧
      (WellFormed answered.value ∧ Answers 2 answered.value) ∧
      ¬ Correct [registration] answered
        (sendAndExpect (fun _ => []) (fun _ => .ok ()) parseSample references
          (arrived [registration, answered])) := by
  refine ⟨⟨.request "register" (.number (.posInt 2)) rfl rfl trivial, fun h => by cases h.1⟩,
    ⟨.response (.number (.posInt 2)) rfl rfl (.inl trivial) (by decide), rfl, rfl⟩, ?_⟩
  intro hcorrect
  have hcount : (sendAndExpect (fun _ => []) (fun _ => .ok ()) parseSample references
      (arrived [registration, answered])).read.length = 1 := by decide +kernel
  rw [hcorrect.read] at hcount
  simp at hcount

end SupraHarness.Lsp
