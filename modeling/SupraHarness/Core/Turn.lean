import SupraHarness.Blackboard.Runs
import SupraHarness.Prompt.Restore

/-!
# One turn of a cohort

A turn publishes one claim, takes the proposer's answer and then the validators'
verdicts, one response at a time, and finishes by appending the answer to the
prompt ledger. Its cohort is never empty: the first agent is the proposer. A
cohort of one derives its answer a second time, blind.
-/
namespace SupraHarness.Core

open SupraHarness.Types SupraHarness.Store
open SupraHarness.Board hiding step run
open SupraHarness.Prompt hiding step

/-- How one peer answers a fan-out. -/
structure PeerAnswer where
  agent : AgentId
  text : Option Str
  verdict : Option Verdict

/-- Where the turn stands after each recorded vote. -/
inductive Step where
  | collecting | reached | escalate
  deriving DecidableEq, Repr

inductive TurnError where
  | ledger (source : PromptError)
  | segment (source : SegmentError)
  | noAnswer (detail : String)
  | emptyClaim
  deriving DecidableEq, Repr

/-- What a turn publishes on the bus. -/
inductive Event where
  | turnStarted (turn : TurnId)
  | claimPublished (claim : ClaimId) (proposer : AgentId)
  | voteCast (claim : ClaimId) (voter : AgentId) (vote : Vote) (confidence : Confidence)
  | quorumReached (claim : ClaimId) (yes needed : Nat)
  | quorumUnreachable (claim : ClaimId) (reachable needed : Nat)
  | cohortAborted (reason : String)
  | segmentSealed (seq : SeqNo) (hash : ContentHash)
  | turnCompleted (turn : TurnId)
  deriving DecidableEq, Repr

structure Turn where
  id : TurnId
  session : List AgentId
  fielded : session ≠ []
  board : Blackboard
  bus : List Event
  claim : ClaimId
  answer : Option Str
  votesSeen : Nat
  stepsSeen : List Step
  finished : Bool
  blindRederivation : Bool

/-- `u32::try_from(n).unwrap_or(u32::MAX)` -/
def u32OfUsize (n : Nat) : Nat := min n (2 ^ 32 - 1)

/-- The body of the claim that a turn publishes. -/
def turnCandidate : Str := ⟨"turn candidate", by decide⟩

namespace Turn

/-- `session[0]` -/
def proposer (turn : Turn) : AgentId := turn.session.head turn.fielded

def k (turn : Turn) : Nat := turn.session.length

def shards (turn : Turn) : Nat := shardsNeeded turn.session.length

/-- The cohort's members other than its first. -/
def validatorsOf (proposer : AgentId) (agents : List AgentId) : List AgentId :=
  agents.filter fun agent => agent ≠ proposer

/-- The publish of `start`; the identifiers and the time are what the generators give. -/
def publishCandidate (board : Blackboard) (faults : Faults) (id : TurnId) (generated : ClaimId) (now : Nat)
    (proposer : AgentId) (agents : List AgentId) : Blackboard × Except BlackboardError ClaimId :=
  if agents.length = 1 then board.publishBlind faults generated now id proposer turnCandidate
  else board.publish faults generated now id proposer (validatorsOf proposer agents) turnCandidate

def start (board : Blackboard) (faults : Faults) (id : TurnId) (generated : ClaimId) (now : Nat) (task : Str)
    (agents : List AgentId) : Except TurnError Turn :=
  if hagents : agents = [] then .error (.noAnswer "an empty cohort cannot field a turn")
  else if peerCeiling < agents.length then
    .error (.noAnswer s!"a cohort of {agents.length} exceeds the ceiling of {peerCeiling}")
  else if task.text = "" then .error (.noAnswer "an empty task cannot field a turn")
  else
    let proposer := agents.head hagents
    match publishCandidate board faults id generated now proposer agents with
    | (_, .error error) => .error (.noAnswer error.text)
    | (board, .ok claim) => .ok {
        id := id, session := agents, fielded := hagents, board := board
        bus := [.turnStarted id, .claimPublished claim proposer]
        claim := claim, answer := none, votesSeen := 0, stepsSeen := [], finished := false
        blindRederivation := agents.length = 1 }

/-- The quorum status as the blackboard holds it. -/
def status (turn : Turn) : Option QuorumStatus :=
  (turn.board.outcome turn.claim).map fun outcome => outcome.status

/-- The vote of `record`: the proposer of a blind re-derivation votes on its own claim. -/
def castVote (turn : Turn) (faults : Faults) (agent : AgentId) (verdict : Verdict) :
    Blackboard × Except BlackboardError Blackboard.Outcome :=
  if turn.blindRederivation = true ∧ agent = turn.proposer then
    turn.board.voteBlind faults turn.claim agent verdict
  else turn.board.vote faults turn.claim agent verdict

/-- What a vote's outcome makes of the turn, with the events it publishes. -/
def stepOf (claim : ClaimId) (outcome : Blackboard.Outcome) : Step × List Event :=
  match outcome.status with
  | .open => (.collecting, [])
  | .reached => (.reached,
      [.quorumReached claim (u32OfUsize outcome.tally.yes) (u32OfUsize outcome.tally.needed),
        .cohortAborted "quorum reached; in-flight peers aborted"])
  | .unreachable => (.escalate,
      [.quorumUnreachable claim (u32OfUsize (outcome.tally.yes + outcome.tally.pending))
          (u32OfUsize outcome.tally.needed),
        .cohortAborted "quorum unreachable; escalating now"])

/-- One response: store the proposal or record a verdict. -/
def record (turn : Turn) (faults : Faults) (answer : PeerAnswer) : Turn × Except TurnError Step :=
  match answer.text with
  | some text =>
    if answer.verdict.isSome then
      (turn, .error (.noAnswer "a peer response cannot be both a proposal and a verdict"))
    else if answer.agent ≠ turn.proposer then
      (turn, .error (.noAnswer "only the proposer may submit a full answer"))
    else if text.text = "" then (turn, .error .emptyClaim)
    else if turn.answer.isSome then
      (turn, .error (.noAnswer "the proposer already submitted an answer"))
    else ({ turn with answer := some text }, .ok .collecting)
  | none =>
    if turn.answer.isNone then
      (turn, .error (.noAnswer "a validator answered before the proposal"))
    else
      match answer.verdict with
      | none => (turn, .error (.noAnswer "a peer response contains neither answer nor verdict"))
      | some verdict =>
        match turn.castVote faults answer.agent verdict with
        | (board, .error error) => ({ turn with board := board }, .error (.noAnswer error.text))
        | (board, .ok outcome) =>
          let cast := Event.voteCast turn.claim answer.agent verdict.vote verdict.confidence
          let (step, events) := stepOf turn.claim outcome
          ({ turn with
              board := board, bus := turn.bus ++ cast :: events, votesSeen := turn.votesSeen + 1
              stepsSeen := turn.stepsSeen ++ [step] }, .ok step)

variable {blake3 : List UInt8 → ContentHash}

/-- The segment of the agreed answer. -/
def answerSegment (turn : Turn) (generated : SegmentId) (answer : Str) : Except SegmentError Segment :=
  Segment.new generated (.turn turn.id .assistant) ⟨[.text answer], by simp⟩

/-- Append the agreed answer to the ledger; `none` is an abort by the ledger's overflow checks. -/
def finish (turn : Turn) (generated : SegmentId) (ledger : PromptLedger blake3) :
    Option (Turn × PromptLedger blake3 × Except TurnError SegmentId) :=
  let refuse := fun error => some (turn, ledger, .error error)
  if turn.finished then refuse (.noAnswer "the turn is already finished")
  else
    match turn.status with
    | some .open => refuse (.noAnswer "quorum has not been reached")
    | some .unreachable => refuse (.noAnswer "the turn cannot finish once quorum is unreachable")
    | none => refuse (.noAnswer "the turn cannot finish once quorum is unreachable")
    | some .reached =>
      match turn.answer with
      | none => refuse (.noAnswer "quorum reached without a working answer")
      | some answer =>
        if answer.text = "" then refuse .emptyClaim
        else
          match turn.answerSegment generated answer with
          | .error error => refuse (.segment error)
          | .ok segment =>
            match ledger.append segment with
            | none => none
            | some (ledger, .error error) => some (turn, ledger, .error (.ledger error))
            | some (ledger, .ok seq) =>
              let events := [Event.segmentSealed seq ledger.prefixHash, Event.turnCompleted turn.id]
              some ({ turn with bus := turn.bus ++ events, finished := true }, ledger, .ok generated)

end Turn

/-! ## What one call does -/

theorem Turn.castVote_cases {turn : Turn} {faults : Faults} {agent : AgentId} {verdict : Verdict}
    {board' : Blackboard} {answer : Except BlackboardError Blackboard.Outcome}
    (h : turn.castVote faults agent verdict = (board', answer)) :
    (∃ e, answer = .error e ∧ board' = turn.board) ∨
    ∃ state state', answer = .ok ⟨turn.claim, state'.status, state'.tally⟩ ∧
      Voted turn.board board' turn.claim agent verdict.vote state state' := by
  unfold Turn.castVote at h
  split at h
  · rcases voteBlind_cases h with herror | ⟨state, state', hanswer, -, hvoted⟩
    · exact Or.inl herror
    · exact Or.inr ⟨state, state', hanswer, hvoted⟩
  · rcases vote_cases h with herror | ⟨state, state', hanswer, -, hvoted⟩
    · exact Or.inl herror
    · exact Or.inr ⟨state, state', hanswer, hvoted⟩

/-- A response is refused and changes nothing, or is the proposer's first answer, or a vote on an
answer. -/
theorem Turn.record_cases {turn turn' : Turn} {faults : Faults} {answer : PeerAnswer}
    {result : Except TurnError Step} (h : turn.record faults answer = (turn', result)) :
    (∃ e, result = .error e ∧ turn' = turn) ∨
    (∃ text, answer = ⟨turn.proposer, some text, none⟩ ∧ text.text ≠ "" ∧ turn.answer = none ∧
      (∃ step, result = .ok step) ∧ turn' = { turn with answer := some text }) ∨
    (∃ verdict text state state', answer.text = none ∧ answer.verdict = some verdict ∧
      turn.answer = some text ∧ (∃ step, result = .ok step) ∧
      Voted turn.board turn'.board turn.claim answer.agent verdict.vote state state' ∧
      turn' = { turn with
        board := turn'.board, bus := turn'.bus, votesSeen := turn.votesSeen + 1
        stepsSeen := turn'.stepsSeen }) := by
  obtain ⟨agent, text, verdict⟩ := answer
  cases text with
  | some text =>
    simp only [Turn.record] at h
    by_cases hverdict : verdict.isSome = true
    · rw [if_pos hverdict] at h
      cases h
      exact Or.inl ⟨_, rfl, rfl⟩
    rw [if_neg hverdict] at h
    by_cases hagent : agent = turn.proposer
    · rw [if_neg (not_not_intro hagent)] at h
      by_cases hempty : text.text = ""
      · rw [if_pos hempty] at h
        cases h
        exact Or.inl ⟨_, rfl, rfl⟩
      rw [if_neg hempty] at h
      by_cases hanswer : turn.answer.isSome = true
      · rw [if_pos hanswer] at h
        cases h
        exact Or.inl ⟨_, rfl, rfl⟩
      rw [if_neg hanswer] at h
      cases h
      have hnone : verdict = none := by simpa using hverdict
      refine Or.inr (Or.inl ⟨text, by rw [hagent, hnone], hempty, by simpa using hanswer, ⟨_, rfl⟩, rfl⟩)
    · rw [if_pos hagent] at h
      cases h
      exact Or.inl ⟨_, rfl, rfl⟩
  | none =>
    simp only [Turn.record] at h
    by_cases hnone : turn.answer.isNone = true
    · rw [if_pos hnone] at h
      cases h
      exact Or.inl ⟨_, rfl, rfl⟩
    rw [if_neg hnone] at h
    obtain ⟨text, htext⟩ := Option.ne_none_iff_exists'.mp (by simpa using hnone : turn.answer ≠ none)
    cases verdict with
    | none =>
      cases h
      exact Or.inl ⟨_, rfl, rfl⟩
    | some verdict =>
      cases hcast : turn.castVote faults agent verdict with
      | mk board' outcome =>
        simp only [hcast] at h
        rcases Turn.castVote_cases hcast with ⟨e, rfl, rfl⟩ | ⟨state, state', rfl, hvoted⟩
        · cases h
          exact Or.inl ⟨_, rfl, rfl⟩
        · cases h
          exact Or.inr (Or.inr ⟨verdict, text, state, state', rfl, rfl, htext, ⟨_, rfl⟩, hvoted, rfl⟩)

variable {blake3 : List UInt8 → ContentHash}

/-- A finish is refused and leaves turn and ledger, or appends the answer under a reached quorum. -/
theorem Turn.finish_cases {turn turn' : Turn} {generated : SegmentId} {ledger ledger' : PromptLedger blake3}
    {result : Except TurnError SegmentId} (h : turn.finish generated ledger = some (turn', ledger', result)) :
    (∃ e, result = .error e ∧ turn' = turn ∧ ledger' = ledger) ∨
    (∃ text segment, result = .ok generated ∧ turn.finished = false ∧ turn.status = some .reached ∧
      turn.answer = some text ∧ segment.id = generated ∧ segment.kind = .turn turn.id .assistant ∧
      segment.blocks.toList = [.text text] ∧
      ledger'.entries.toList = ledger.entries.toList ++ [Sealed.seal blake3 ledger.nextSeq segment] ∧
      turn' = { turn with bus := turn'.bus, finished := true }) := by
  simp only [Turn.finish] at h
  by_cases hfinished : turn.finished = true
  · rw [if_pos hfinished] at h
    cases h
    exact Or.inl ⟨_, rfl, rfl, rfl⟩
  rw [if_neg hfinished] at h
  cases hstatus : turn.status with
  | none =>
    rw [hstatus] at h
    cases h
    exact Or.inl ⟨_, rfl, rfl, rfl⟩
  | some status =>
    rw [hstatus] at h
    cases status with
    | «open» =>
      cases h
      exact Or.inl ⟨_, rfl, rfl, rfl⟩
    | unreachable =>
      cases h
      exact Or.inl ⟨_, rfl, rfl, rfl⟩
    | reached =>
      cases hanswer : turn.answer with
      | none =>
        rw [hanswer] at h
        cases h
        exact Or.inl ⟨_, rfl, rfl, rfl⟩
      | some text =>
        rw [hanswer] at h
        simp only at h
        by_cases hempty : text.text = ""
        · rw [if_pos hempty] at h
          cases h
          exact Or.inl ⟨_, rfl, rfl, rfl⟩
        rw [if_neg hempty] at h
        cases hsegment : turn.answerSegment generated text with
        | error e =>
          rw [hsegment] at h
          cases h
          exact Or.inl ⟨_, rfl, rfl, rfl⟩
        | ok segment =>
          rw [hsegment] at h
          simp only at h
          cases happend : ledger.append segment with
          | none =>
            rw [happend] at h
            cases h
          | some done =>
            obtain ⟨appended, answer⟩ := done
            rw [happend] at h
            rcases append_eq_some happend with ⟨rfl, rfl, -⟩ | ⟨-, rfl, hentries, -⟩
            · cases h
              exact Or.inl ⟨_, rfl, rfl, rfl⟩
            · cases h
              have hparts := Segment.new_eq_ok hsegment
              exact Or.inr ⟨text, segment, rfl, by simpa using hfinished, rfl, rfl, hparts.1, hparts.2.1,
                by rw [hparts.2.2], hentries, rfl⟩

end SupraHarness.Core
