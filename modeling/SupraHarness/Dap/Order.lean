import Mathlib.Data.List.Perm.Basic
import Mathlib.Data.List.Count
import SupraHarness.Dap.Client

/-!
# What a debug session keeps

A session keeps everything when each event that was read is handed out or set aside, in order, and
each response that was read is the answer to its own request. A wait loses what it reads for somebody
else, so a session keeps everything exactly when its waits come in the order of the messages: the next
response is always the one awaited, and the oldest event always the one waited for.
-/
namespace SupraHarness.Dap

open Llm (Value)

variable {φ α β : Type}

def eventsOf : List (Framed φ) → List String :=
  List.filterMap fun
    | .event name => some name
    | _ => none

def responsesOf : List (Framed φ) → List (Response φ) :=
  List.filterMap fun
    | .response response => some response
    | _ => none

/-- A request was answered by its own response: its body, or an error when it says so. -/
structure Faithful (answer : Answer φ) : Prop where
  own : answer.response.requestSeq = answer.request
  body : answer.response.success = true → answer.outcome = .ok answer.response.body
  refused : answer.response.success = false → ∃ error, answer.outcome = .error error

/-- Nothing that was read is lost. -/
structure Kept (s : Session φ) : Prop where
  events : ∀ name, (eventsOf s.read).filter (· = name)
    = s.returned.filter (· = name) ++ s.events.filter (· = name)
  responses : responsesOf s.read = s.answers.map (·.response)
  answers : ∀ answer ∈ s.answers, Faithful answer
  answered : s.unanswered = []

/-- Behind events only, the next message is the response to this request. -/
def AnswersFirst (request : UInt64) : List (Item φ) → Prop
  | .framed (.event _) :: rest => AnswersFirst request rest
  | .framed (.response response) :: _ => response.requestSeq = request
  | _ => False

/-- The oldest event has this name, or there is none and the next message is no response. -/
def NamedFirst (name : String) : List String → List (Item φ) → Prop
  | event :: _, _ => event = name
  | [], .framed (.event event) :: _ => event = name
  | [], .framed (.response _) :: _ => False
  | [], _ => True

/-- The wait is for what comes next. -/
def Orderly (started : Started φ) : Prop :=
  match started.wait with
  | .response request => AnswersFirst request started.inbox
  | .event name => NamedFirst name started.events started.inbox

/-- The events come out in the order in which they were read. -/
structure Ordered (s : Session φ) : Prop where
  events : eventsOf s.read = s.returned ++ s.events
  responses : responsesOf s.read = s.answers.map (·.response)
  answers : ∀ answer ∈ s.answers, Faithful answer
  answered : s.unanswered = []

theorem Ordered.kept {s : Session φ} (h : Ordered s) : Kept s :=
  ⟨fun name => by rw [h.events, List.filter_append], h.responses, h.answers, h.answered⟩

/-- The number of messages and answers a session has lost. -/
def loss (s : Session φ) : Int :=
  ((eventsOf s.read).length - s.returned.length - s.events.length)
    + ((responsesOf s.read).length - s.answers.length) + s.unanswered.length

theorem Kept.loss_eq_zero {s : Session φ} (h : Kept s) : loss s = 0 := by
  have hperm : (eventsOf s.read).Perm (s.returned ++ s.events) := by
    rw [List.perm_iff_count]
    intro name
    have hlength := congrArg List.length (h.events name)
    rw [List.length_append] at hlength
    rw [List.count_append, List.count_eq_length_filter, List.count_eq_length_filter,
      List.count_eq_length_filter]
    exact hlength
  have hevents := hperm.length_eq
  rw [List.length_append] at hevents
  have hresponses := congrArg List.length h.responses
  rw [List.length_map] at hresponses
  simp only [loss, hevents, hresponses, h.answered, List.length_nil]
  omega

@[simp] theorem eventsOf_append (a b : List (Framed φ)) : eventsOf (a ++ b) = eventsOf a ++ eventsOf b :=
  List.filterMap_append

@[simp] theorem responsesOf_append (a b : List (Framed φ)) :
    responsesOf (a ++ b) = responsesOf a ++ responsesOf b :=
  List.filterMap_append

@[simp] theorem eventsOf_event (name : String) : eventsOf [(.event name : Framed φ)] = [name] := rfl
@[simp] theorem eventsOf_response (response : Response φ) : eventsOf [.response response] = [] := rfl
@[simp] theorem eventsOf_malformed (reason : String) : eventsOf [(.malformed reason : Framed φ)] = [] := rfl
@[simp] theorem responsesOf_event (name : String) : responsesOf [(.event name : Framed φ)] = [] := rfl
@[simp] theorem responsesOf_response (response : Response φ) :
    responsesOf [.response response] = [response] := rfl
@[simp] theorem responsesOf_malformed (reason : String) :
    responsesOf [(.malformed reason : Framed φ)] = [] := rfl

/-- What one wait does to a session: it stays in order if the wait is for what comes next, and loses
something otherwise. -/
structure Effect (orderly : Prop) (s s' : Session φ) : Prop where
  waits : s'.waits = s.waits
  keeps : orderly → Ordered s → Ordered s'
  loses : loss s ≤ loss s'
  drops : ¬ orderly → loss s < loss s'

theorem judge_faithful (command : String) (response : Response φ) :
    Faithful ⟨response.requestSeq, response, judge command response⟩ := by
  refine ⟨rfl, ?_, ?_⟩
  · intro h
    exact if_pos h
  · intro h
    exact ⟨_, if_neg (by simpa using h)⟩

/-- Reading on behind an event that is set aside. -/
theorem Effect.setAside {orderly : Prop} {s s' : Session φ} {name : String} {rest : List (Item φ)}
    (h : Effect orderly ((s.take (.event name) rest).setAside name) s') : Effect orderly s s' := by
  have hloss : loss ((s.take (.event name) rest).setAside name) = loss s := by
    simp [loss, Session.take, Session.setAside]
    omega
  refine ⟨h.waits, ?_, hloss ▸ h.loses, hloss ▸ h.drops⟩
  intro horderly hs
  refine h.keeps horderly ⟨?_, ?_, hs.answers, hs.answered⟩
  · simp [Session.take, Session.setAside, hs.events]
  · simp [Session.take, Session.setAside, hs.responses]

/-- Reading on behind a response that is dropped. -/
theorem Effect.dropped {orderly : Prop} {s s' : Session φ} {response : Response φ} {rest : List (Item φ)}
    (h : Effect orderly (s.take (.response response) rest) s') : Effect False s s' := by
  have hloss : loss (s.take (.response response) rest) = loss s + 1 := by
    simp [loss, Session.take]
    omega
  have hloses := h.loses
  exact ⟨h.waits, False.elim, by omega, fun _ => by omega⟩

theorem awaitLoop_effect (command : String) (request : UInt64) (inbox : List (Item φ)) (s : Session φ) :
    Effect (AnswersFirst request inbox) s (awaitLoop command request inbox s).2 := by
  induction inbox generalizing s with
  | nil =>
    refine ⟨rfl, False.elim, ?_, fun _ => ?_⟩ <;> simp [awaitLoop, loss, Session.giveUp] <;> omega
  | cons item rest ih =>
    cases item with
    | failed failure =>
      refine ⟨rfl, False.elim, ?_, fun _ => ?_⟩ <;> simp [awaitLoop, loss, Session.giveUp] <;> omega
    | framed framed =>
      cases framed with
      | event name => exact (ih ((s.take (.event name) rest).setAside name)).setAside
      | malformed reason =>
        refine ⟨rfl, False.elim, ?_, fun _ => ?_⟩ <;>
          simp [awaitLoop, loss, Session.giveUp, Session.take] <;> omega
      | response response =>
        by_cases hown : response.requestSeq = request
        · subst hown
          have hloss : loss ((s.take (.response response) rest).answer
              ⟨response.requestSeq, response, judge command response⟩) = loss s := by
            simp [loss, Session.take, Session.answer] <;> omega
          simp only [awaitLoop, if_true]
          refine ⟨rfl, ?_, Int.le_of_eq hloss.symm, fun h => absurd rfl h⟩
          intro _ hs
          refine ⟨by simp [Session.take, Session.answer, hs.events],
            by simp [Session.take, Session.answer, hs.responses], ?_, hs.answered⟩
          intro answer hanswer
          simp only [Session.take, Session.answer, List.mem_append, List.mem_singleton] at hanswer
          rcases hanswer with hold | rfl
          · exact hs.answers answer hold
          · exact judge_faithful command response
        · simp only [awaitLoop, if_neg hown, AnswersFirst]
          rw [eq_false hown]
          exact (ih (s.take (.response response) rest)).dropped

theorem popUntil_none {name : String} {events : List String} (h : popUntil name events = none) :
    name ∉ events := by
  induction events with
  | nil => simp
  | cons event rest ih =>
    simp only [popUntil] at h
    split at h
    next => cases h
    next hne =>
      simp only [List.mem_cons, not_or]
      exact ⟨fun heq => hne heq.symm, ih h⟩

theorem popUntil_some {name : String} {events rest : List String} (h : popUntil name events = some rest) :
    ∃ popped, events = popped ++ name :: rest ∧ name ∉ popped := by
  induction events with
  | nil => cases h
  | cons event events ih =>
    simp only [popUntil] at h
    split at h
    next heq =>
      cases h
      exact ⟨[], by simp [heq], by simp⟩
    next hne =>
      obtain ⟨popped, rfl, hnot⟩ := ih h
      refine ⟨event :: popped, rfl, ?_⟩
      simp only [List.mem_cons, not_or]
      exact ⟨fun heq => hne heq.symm, hnot⟩

/-- Handing out an event from those set aside. -/
theorem hand_effect {name : String} {s : Session φ} {rest : List String} {inbox : List (Item φ)}
    (h : popUntil name s.events = some rest) :
    Effect (NamedFirst name s.events inbox) s (s.hand name rest) := by
  obtain ⟨popped, hevents, hnot⟩ := popUntil_some h
  have hloss : loss (s.hand name rest) = loss s + popped.length := by
    simp [loss, Session.hand, hevents]
    omega
  cases popped with
  | nil =>
    have hfirst : NamedFirst name s.events inbox := by simp [hevents, NamedFirst]
    refine ⟨rfl, ?_, by simp [hloss], fun hdisorder => absurd hfirst hdisorder⟩
    intro _ hs
    exact ⟨by simp [Session.hand, hs.events, hevents], hs.responses, hs.answers, hs.answered⟩
  | cons event popped =>
    have hlast : ¬ NamedFirst name s.events inbox := by
      simp only [hevents, List.cons_append, NamedFirst]
      rintro rfl
      simp at hnot
    refine ⟨rfl, fun hfirst => absurd hfirst hlast, ?_, fun _ => ?_⟩ <;> simp [hloss] <;> omega

/-- What a wait does once it has popped the events set aside, none of which it wants. -/
theorem Effect.popped {name : String} {inbox : List (Item φ)} {s s' : Session φ}
    (hnone : popUntil name s.events = none)
    (h : Effect (NamedFirst name [] inbox) { s with events := [] } s') :
    Effect (NamedFirst name s.events inbox) s s' := by
  cases hevents : s.events with
  | nil =>
    have hsame : ({ s with events := [] } : Session φ) = s := by rw [← hevents]
    rwa [hsame] at h
  | cons event rest =>
    have hlast : ¬ NamedFirst name (event :: rest) inbox := by
      simp only [NamedFirst]
      rintro rfl
      exact popUntil_none hnone (by simp [hevents])
    have hloss : loss ({ s with events := [] } : Session φ) = loss s + (rest.length + 1) := by
      simp [loss, hevents]
      omega
    have hloses := h.loses
    exact ⟨h.waits, fun hfirst => absurd hfirst hlast, by omega, fun _ => by omega⟩

/-- A session in which only the inbox, or what is no event and no response, has moved. -/
theorem Effect.idle {orderly : Prop} (horderly : orderly) {s s' : Session φ} (hwaits : s'.waits = s.waits)
    (hread : eventsOf s'.read = eventsOf s.read) (hresponses : responsesOf s'.read = responsesOf s.read)
    (hevents : s'.events = s.events) (hreturned : s'.returned = s.returned)
    (hanswers : s'.answers = s.answers) (hunanswered : s'.unanswered = s.unanswered) :
    Effect orderly s s' := by
  have hloss : loss s' = loss s := by
    simp [loss, hread, hresponses, hevents, hreturned, hanswers, hunanswered]
  refine ⟨hwaits, ?_, Int.le_of_eq hloss.symm, fun h => absurd horderly h⟩
  intro _ hs
  exact ⟨by rw [hread, hreturned, hevents, hs.events], by rw [hresponses, hanswers, hs.responses],
    by rw [hanswers]; exact hs.answers, by rw [hunanswered, hs.answered]⟩

theorem waitLoop_effect (name : String) (inbox : List (Item φ)) (s : Session φ) :
    Effect (NamedFirst name s.events inbox) s (waitLoop name inbox s).2 := by
  induction inbox generalizing s with
  | nil =>
    cases hpop : popUntil name s.events with
    | some rest =>
      simp only [waitLoop, hpop]
      exact hand_effect hpop
    | none =>
      simp only [waitLoop, hpop]
      exact .popped hpop (.idle trivial rfl rfl rfl rfl rfl rfl rfl)
  | cons item rest ih =>
    cases hpop : popUntil name s.events with
    | some events =>
      simp only [waitLoop, hpop]
      exact hand_effect hpop
    | none =>
      simp only [waitLoop, hpop]
      apply Effect.popped hpop
      cases item with
      | failed failure => exact .idle trivial rfl rfl rfl rfl rfl rfl rfl
      | framed framed =>
        cases framed with
        | malformed reason =>
          exact .idle trivial rfl (by simp [Session.take]) (by simp [Session.take]) rfl rfl rfl rfl
        | response response => exact (ih (({ s with events := [] } : Session φ).take _ rest)).dropped
        | event event =>
          by_cases hname : event = name
          · subst hname
            simp only [if_true]
            have hloss : loss ((({ s with events := [] } : Session φ).take (.event event) rest).hand event [])
                = loss { s with events := [] } := by
              simp [loss, Session.take, Session.hand] <;> omega
            refine ⟨rfl, ?_, Int.le_of_eq hloss.symm, fun h => absurd rfl h⟩
            intro _ hs
            have hevents := hs.events
            simp only [List.append_nil] at hevents
            exact ⟨by simp [Session.take, Session.hand, hevents], by simp [Session.take, Session.hand, hs.responses],
              hs.answers, hs.answered⟩
          · simp only [if_neg hname]
            exact (ih ((({ s with events := [] } : Session φ).take (.event event) rest).setAside event)).setAside

/-- What a computation does to a session: its waits are logged, if they are all for what comes next
the session stays in order, and otherwise it loses something. -/
structure Moves (s s' : Session φ) : Prop where
  loses : loss s ≤ loss s'
  waits : ∃ waits, s'.waits = s.waits ++ waits ∧ ((∀ started ∈ waits, Orderly started) → Ordered s → Ordered s') ∧
    (¬ (∀ started ∈ waits, Orderly started) → loss s < loss s')

theorem Moves.refl (s : Session φ) : Moves s s :=
  ⟨Int.le_refl _, [], by simp, fun _ h => h, fun h => absurd (by simp) h⟩

theorem Moves.trans {s s' s'' : Session φ} (h : Moves s s') (h' : Moves s' s'') : Moves s s'' := by
  obtain ⟨hloses, waits, hwaits, hkeeps, hdrops⟩ := h
  obtain ⟨hloses', waits', hwaits', hkeeps', hdrops'⟩ := h'
  refine ⟨Int.le_trans hloses hloses', waits ++ waits', by rw [hwaits', hwaits, List.append_assoc], ?_, ?_⟩
  · intro hall hs
    rw [List.forall_mem_append] at hall
    exact hkeeps' hall.2 (hkeeps hall.1 hs)
  · intro hsome
    rw [List.forall_mem_append, not_and_or] at hsome
    rcases hsome with hfirst | hsecond
    · exact Int.lt_of_lt_of_le (hdrops hfirst) hloses'
    · exact Int.lt_of_le_of_lt hloses (hdrops' hsecond)

/-- A computation that moves every session so. -/
def Accounted (action : Action φ α) : Prop := ∀ s, Moves s (action s).2

theorem Accounted.pure (a : α) : Accounted (pure a : Action φ α) := fun s => .refl s

theorem Accounted.fail (failure : Failure) : Accounted (fail failure : Action φ α) := fun s => .refl s

theorem bind_ok {x : Action φ α} {f : α → Action φ β} {s s' : Session φ} {a : α} (h : x s = (.ok a, s')) :
    (x >>= f) s = f a s' := by
  simp only [Bind.bind, h]

theorem bind_error {x : Action φ α} {f : α → Action φ β} {s s' : Session φ} {failure : Failure}
    (h : x s = (.error failure, s')) : (x >>= f) s = (.error failure, s') := by
  simp only [Bind.bind, h]

theorem Accounted.bind {x : Action φ α} {f : α → Action φ β} (hx : Accounted x) (hf : ∀ a, Accounted (f a)) :
    Accounted (x >>= f) := by
  intro s
  have hfirst := hx s
  cases hrun : x s with
  | mk result s' =>
    rw [hrun] at hfirst
    cases result with
    | ok a =>
      rw [bind_ok hrun]
      exact hfirst.trans (hf a s')
    | error failure =>
      rw [bind_error hrun]
      exact hfirst

/-- A wait is accounted for by what its loop does from where it starts. -/
theorem Accounted.wait (wait : Wait) {loop : Action φ α}
    (h : ∀ s : Session φ, Effect (Orderly ⟨wait, s.events, s.inbox⟩) (s.begin wait) (loop (s.begin wait)).2) :
    Accounted fun s => loop (s.begin wait) := by
  intro s
  obtain ⟨hwaits, hkeeps, hloses, hdrops⟩ := h s
  have hloss : loss (s.begin wait) = loss s := rfl
  refine ⟨hloss ▸ hloses, [⟨wait, s.events, s.inbox⟩], hwaits, ?_, ?_⟩
  · intro hall hs
    exact hkeeps (hall _ (by simp)) ⟨hs.events, hs.responses, hs.answers, hs.answered⟩
  · intro hsome
    exact hloss ▸ hdrops (by simpa using hsome)

theorem awaitResponse_accounted (command : String) (request : UInt64) :
    Accounted (awaitResponse command request : Action φ (Value φ)) :=
  @Accounted.wait φ _ (.response request) (fun s => awaitLoop command request s.inbox s)
    fun s => awaitLoop_effect command request s.inbox (s.begin (.response request))

theorem waitEvent_accounted (name : String) : Accounted (waitEvent name : Action φ (Value φ)) :=
  @Accounted.wait φ _ (.event name) (fun s => waitLoop name s.inbox s)
    fun s => waitLoop_effect name s.inbox (s.begin (.event name))

section calls
variable (write : Value φ → Except String Unit)

/-- Sending reads nothing. -/
theorem send_accounted (command : String) (arguments : Value φ) : Accounted (send write command arguments) := by
  intro s
  unfold send
  simp only
  split
  · exact ⟨Int.le_refl _, [], by simp, fun _ h => ⟨h.events, h.responses, h.answers, h.answered⟩,
      fun h => absurd (by simp) h⟩
  · exact ⟨Int.le_refl _, [], by simp, fun _ h => ⟨h.events, h.responses, h.answers, h.answered⟩,
      fun h => absurd (by simp) h⟩

theorem markInitialized_accounted : Accounted (markInitialized : Action φ Unit) :=
  fun _ => ⟨Int.le_refl _, [], by simp [markInitialized], fun _ h => ⟨h.events, h.responses, h.answers, h.answered⟩,
    fun h => absurd (by simp) h⟩

theorem request_accounted (command : String) (arguments : Value φ) :
    Accounted (request write command arguments) :=
  (send_accounted write command arguments).bind fun requestSeq => awaitResponse_accounted command requestSeq

theorem initializeSession_accounted (program : String) : Accounted (initializeSession write program) :=
  (request_accounted write _ _).bind fun _ =>
    (waitEvent_accounted _).bind fun _ =>
      (send_accounted write _ _).bind fun launchSeq =>
        (send_accounted write _ _).bind fun configuredSeq =>
          (awaitResponse_accounted _ launchSeq).bind fun _ =>
            (awaitResponse_accounted _ configuredSeq).bind fun _ => markInitialized_accounted

theorem setBreakpoint_accounted (path : String) (line : UInt32) : Accounted (setBreakpoint write path line) := by
  refine (request_accounted write _ _).bind fun result => ?_
  split
  · exact .pure _
  · exact .fail _

variable {Frames : Type} (fromValue : Value φ → Except String Frames)

theorem stackTrace_accounted : Accounted (stackTrace write fromValue) := by
  refine (request_accounted write _ _).bind fun result => ?_
  split
  · exact .pure _
  · exact .fail _

theorem run_moves (call : Call) (s : Session φ) : Moves s (call.run write fromValue s) := by
  cases call with
  | initializeSession program => exact initializeSession_accounted write program s
  | setBreakpoint path line => exact setBreakpoint_accounted write path line s
  | waitEvent name => exact waitEvent_accounted name s
  | stackTrace => exact stackTrace_accounted write fromValue s

theorem runAll_moves (calls : List Call) (s : Session φ) : Moves s (runAll write fromValue calls s) := by
  induction calls generalizing s with
  | nil => exact .refl s
  | cons call calls ih => exact (run_moves write fromValue call s).trans (ih _)

theorem start_ordered (inbox : List (Item φ)) : Ordered (Session.start inbox) :=
  ⟨rfl, rfl, by simp [Session.start], rfl⟩

/-- After any calls, over any stream of messages, nothing is lost exactly when every wait, those inside
the calls included, was for what came next. -/
theorem session_kept_iff (inbox : List (Item φ)) (calls : List Call) :
    Kept (runAll write fromValue calls (.start inbox)) ↔
      ∀ started ∈ (runAll write fromValue calls (.start inbox)).waits, Orderly started := by
  obtain ⟨-, waits, hwaits, hkeeps, hdrops⟩ := runAll_moves write fromValue calls (.start inbox)
  rw [show (Session.start inbox).waits = [] from rfl, List.nil_append] at hwaits
  rw [hwaits]
  constructor
  · intro hkept
    by_contra hsome
    have hlost := hdrops hsome
    rw [hkept.loss_eq_zero, (start_ordered inbox).kept.loss_eq_zero] at hlost
    exact absurd hlost (Int.lt_irrefl 0)
  · intro hall
    exact (hkeeps hall (start_ordered inbox)).kept

end calls

/-- The messages a client comes to read are those that were sent, in whatever pieces they arrive. -/
theorem incoming_delivers {fromStr : Rpc.Text → Except String (Value φ)} (messages : List (Rpc.Message fromStr))
    (fuel : Nat) {input : Rpc.PipedInput} {rest : Rpc.Bytes}
    (hinput : input.Delivers (messages.flatMap Rpc.Message.bytes ++ rest)) :
    ∃ input' : Rpc.PipedInput, input'.Delivers rest ∧ incoming fromStr (messages.length + fuel) input =
      messages.map (fun message => .framed (classify message.value)) ++ incoming fromStr fuel input' := by
  induction messages generalizing input with
  | nil => exact ⟨input, by simpa using hinput, by simp⟩
  | cons message messages ih =>
    rw [List.flatMap_cons, List.append_assoc] at hinput
    obtain ⟨input₁, hrest, hread⟩ := message.readMessage hinput
    obtain ⟨input₂, hdelivers, hincoming⟩ := ih hrest
    refine ⟨input₂, hdelivers, ?_⟩
    rw [show (message :: messages).length + fuel = messages.length + fuel + 1 by simp; omega]
    simp only [incoming, hread, hincoming, readFrame, message.cutFrame, message.parses]
    simp

/-- A response that only says it succeeded. -/
def accepted (requestSeq : UInt64) : Item Unit := .framed (.response ⟨0, requestSeq, true, .null⟩)

/-- An adapter that answers the configuration before the launch. The answer to the configuration is
dropped in the wait for the one to the launch, and the client waits for it until the adapter closes. -/
theorem swapped_lost :
    ¬ Kept (runAll (fun _ => .ok ()) (fun _ => .ok ()) [.initializeSession "target"]
      (.start [accepted 1, .framed (.event "initialized"), accepted 3, accepted 2])) := by
  intro hkept
  have hcount : (runAll (fun _ => .ok ()) (fun _ => .ok ()) [.initializeSession "target"]
      (.start [accepted 1, .framed (.event "initialized"), accepted 3, accepted 2])).unanswered.length = 1 := by
    decide +kernel
  rw [hkept.answered] at hcount
  cases hcount

end SupraHarness.Dap
