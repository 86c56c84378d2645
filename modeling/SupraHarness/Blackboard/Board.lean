import SupraHarness.Blackboard.Schema
import SupraHarness.Lib.Slots

/-!
# The shared peer blackboard

The board keeps every claim in memory, with its roster, its tally and its
status, beside the rows of the store. A claim is published with the proposer's
affirmative vote already counted, or, for a blind re-derivation, with the
proposer as the only validator. Opening a board rebuilds the memory from the rows.
-/
namespace SupraHarness.Board

open SupraHarness.Types SupraHarness.Store
open Std (ExtTreeMap)

/-- Maximum claim body size in bytes. -/
def maxBodyBytes : Nat := 2048

/-- One claim in memory; the roster maps each validator to the vote it cast. -/
@[ext] structure ClaimState where
  turn : TurnId
  proposer : AgentId
  body : Str
  k : Nat
  tally : QuorumTally
  status : QuorumStatus
  validators : ExtTreeMap AgentId (Option Vote)

/-- The board and the store it writes to. -/
structure Blackboard where
  store : Tables
  claims : ExtTreeMap ClaimId ClaimState

inductive BlackboardError where
  | store (source : StoreError)
  | sqlite (source : RusqliteError)
  | unknownClaim (claim : ClaimId)
  | duplicateVote (agent : AgentId) (claim : ClaimId)
  | notInCohort (agent : AgentId) (claim : ClaimId)
  | closed (claim : ClaimId)
  | tally (source : TallyError)
  | notAProposer (agent : AgentId) (claim : ClaimId)
  deriving DecidableEq, Repr

def BlackboardError.text : BlackboardError → String
  | .store source => s!"the store refused: {source.text}"
  | .sqlite source => s!"the blackboard's tables refused: {source.message}"
  | .unknownClaim claim => s!"claim {claim.text} does not exist"
  | .duplicateVote agent claim => s!"agent {agent.text} already voted on claim {claim.text}"
  | .notInCohort agent claim => s!"agent {agent.text} is not part of the cohort for claim {claim.text}"
  | .closed claim => s!"claim {claim.text} is closed"
  | .tally (.overfull k) => s!"the tally refused: a cohort of {k} cannot cast more than {k} votes"
  | .notAProposer agent claim =>
    s!"agent {agent.text} is not a candidate proposer for claim {claim.text}"

/-- The tally of an ordinary claim: publishing is the proposer's affirmative vote. -/
def ordinaryTally (k : Nat) : QuorumTally :=
  match (QuorumTally.new k).record .yes with
  | .ok (tally, _) => tally
  | .error _ => QuorumTally.new k

/-- A roster nobody has voted in yet. -/
def roster (validators : List AgentId) : ExtTreeMap AgentId (Option Vote) :=
  Slots.empties validators

/-! ## Opening -/

/-- The loop of `open` over the stored votes: the roster, the tally and `inconsistent`. -/
def replayVote (acc : ExtTreeMap AgentId (Option Vote) × QuorumTally × Bool) (vote : StoredVote) :
    ExtTreeMap AgentId (Option Vote) × QuorumTally × Bool :=
  let (validators, tally, inconsistent) := acc
  match validators[vote.voter]? with
  | some none =>
    let validators := validators.insert vote.voter (some vote.vote)
    match tally.record vote.vote with
    | .ok (tally, _) => (validators, tally, inconsistent)
    | .error _ => (validators, tally, true)
  | _ => (validators, tally, true)

/-- One claim of the loop of `open`. -/
def hydrate (stored : StoredClaim) (validators : List AgentId) (votes : List StoredVote) :
    Except BlackboardError ClaimState :=
  let k := max stored.k 1
  let blindRederivation := k = 1 ∧ validators.length = 1 ∧ validators.head? = some stored.proposer
  let tally := if blindRederivation then QuorumTally.new k else ordinaryTally k
  let (validators, tally, inconsistent) := votes.foldl replayVote (roster validators, tally, false)
  let done := fun status =>
    ClaimState.mk stored.turn stored.proposer stored.body k tally status validators
  if inconsistent then
    .error (.store (.malformed
      s!"claim {stored.claim.text} has a roster or tally the store cannot reproduce"))
  else if stored.status = "open" then .ok (done tally.status)
  else if stored.status = "reached" then .ok (done .reached)
  else if stored.status = "unreachable" then .ok (done .unreachable)
  else .error (.store (.malformed
    s!"claim {stored.claim.text} has unknown status {stored.status.quote}"))

/-- The rows of `read_all`, hydrated one by one. -/
def hydrateAll : List (StoredClaim × List AgentId × List StoredVote) →
    ExtTreeMap ClaimId ClaimState → Except BlackboardError (ExtTreeMap ClaimId ClaimState)
  | [], claims => .ok claims
  | (stored, validators, votes) :: rows, claims => do
    let state ← hydrate stored validators votes
    hydrateAll rows (claims.insert stored.claim state)

/-- Open the board on a migrated store. -/
def openBoard (store : Tables) : Except BlackboardError Blackboard :=
  match readAll store with
  | .error error => .error (.store error)
  | .ok rows => do
    let claims ← hydrateAll rows ∅
    .ok ⟨store, claims⟩

/-! ## Publishing and voting -/

namespace Blackboard

def bodyTooLong (body : Str) : BlackboardError :=
  .store (.malformed s!"claim body is {body.len} bytes, the budget is {maxBodyBytes}")

/-- The insert transaction of a publish. -/
def insertTransaction (board : Blackboard) (faults : Faults) (claim : ClaimId) (turn : TurnId)
    (proposer : AgentId) (body : Str) (k now : Nat) (validators : List AgentId) :
    Tables × Except BlackboardError Unit :=
  withTransaction faults .sqlite board.store fun tables =>
    match insertClaim faults tables claim turn proposer body k now "open" validators with
    | .error error => .error (.store (.sqlite error))
    | .ok tables => .ok (tables, ())

/-- Publish a claim; `generated` is the identifier that `ClaimId::generate` gives. -/
def publish (board : Blackboard) (faults : Faults) (generated : ClaimId) (now : Nat) (turn : TurnId)
    (proposer : AgentId) (validators : List AgentId) (body : Str) :
    Blackboard × Except BlackboardError ClaimId :=
  let k := validators.length + 1
  if proposer ∈ validators then (board, .error (.notAProposer proposer generated))
  else if maxBodyBytes < body.len then (board, .error (bodyTooLong body))
  else
    match board.insertTransaction faults generated turn proposer body k now validators with
    | (store, .error error) => ({ board with store := store }, .error error)
    | (store, .ok ()) =>
      let state : ClaimState := ⟨turn, proposer, body, k, ordinaryTally k, .open, roster validators⟩
      (⟨store, board.claims.insert generated state⟩, .ok generated)

/-- Publish the placeholder of a blind re-derivation: its proposer is its only validator. -/
def publishBlind (board : Blackboard) (faults : Faults) (generated : ClaimId) (now : Nat)
    (turn : TurnId) (proposer : AgentId) (body : Str) :
    Blackboard × Except BlackboardError ClaimId :=
  if maxBodyBytes < body.len then (board, .error (bodyTooLong body))
  else
    match board.insertTransaction faults generated turn proposer body 1 now [proposer] with
    | (store, .error error) => ({ board with store := store }, .error error)
    | (store, .ok ()) =>
      let state : ClaimState := ⟨turn, proposer, body, 1, QuorumTally.new 1, .open, roster [proposer]⟩
      (⟨store, board.claims.insert generated state⟩, .ok generated)

/-- The result of recording one vote. -/
structure Outcome where
  claim : ClaimId
  status : QuorumStatus
  tally : QuorumTally
  deriving DecidableEq, Repr

/-- The transaction of a vote: its row, and the claim's status when the vote decides it. -/
def voteTransaction (board : Blackboard) (faults : Faults) (claim : ClaimId) (voter : AgentId)
    (verdict : Verdict) (outcome : QuorumStatus) : Tables × Except BlackboardError Unit :=
  withTransaction faults .sqlite board.store fun tables =>
    match insertVote faults 0 tables claim voter verdict with
    | .error error => .error (.store (.sqlite error))
    | .ok tables =>
      if outcome = .open then .ok (tables, ())
      else
        match updateStatus faults 1 tables claim (statusText outcome) with
        | .error error => .error (.store (.sqlite error))
        | .ok (tables, true) => .ok (tables, ())
        | .ok (_, false) => .error (.store (.malformed
            s!"claim {claim.text} closed concurrently while recording its terminal vote"))

/-- Memory changes only after the vote and a terminal status have been committed. -/
def recordVote (board : Blackboard) (faults : Faults) (claim : ClaimId) (voter : AgentId)
    (verdict : Verdict) (state : ClaimState) : Blackboard × Except BlackboardError Outcome :=
  match state.validators[voter]? with
  | none => (board, .error (.notInCohort voter claim))
  | some (some _) => (board, .error (.duplicateVote voter claim))
  | some none =>
    match state.tally.record verdict.vote with
    | .error error => (board, .error (.tally error))
    | .ok (tally, outcome) =>
      match board.voteTransaction faults claim voter verdict outcome with
      | (store, .error error) => ({ board with store := store }, .error error)
      | (store, .ok ()) =>
        let validators := state.validators.insert voter (some verdict.vote)
        let next := { state with validators := validators, tally := tally, status := outcome }
        (⟨store, board.claims.insert claim next⟩, .ok ⟨claim, outcome, tally⟩)

/-- Record one vote and report the claim's new standing. -/
def vote (board : Blackboard) (faults : Faults) (claim : ClaimId) (voter : AgentId)
    (verdict : Verdict) : Blackboard × Except BlackboardError Outcome :=
  match board.claims[claim]? with
  | none => (board, .error (.unknownClaim claim))
  | some state =>
    if state.status ≠ .open then (board, .error (.closed claim))
    else if voter = state.proposer then (board, .error (.notAProposer voter claim))
    else board.recordVote faults claim voter verdict state

/-- Record the proposer's blind second derivation; its roster is exactly that proposer. -/
def voteBlind (board : Blackboard) (faults : Faults) (claim : ClaimId) (voter : AgentId)
    (verdict : Verdict) : Blackboard × Except BlackboardError Outcome :=
  match board.claims[claim]? with
  | none => (board, .error (.unknownClaim claim))
  | some state =>
    if state.status ≠ .open then (board, .error (.closed claim))
    else if state.proposer ≠ voter ∨ state.k ≠ 1 ∨ state.validators.size ≠ 1 then
      (board, .error (.notInCohort voter claim))
    else board.recordVote faults claim voter verdict state

/-- The claim's current outcome, if the board holds it. -/
def outcome (board : Blackboard) (claim : ClaimId) : Option Outcome :=
  board.claims[claim]?.map fun state => ⟨claim, state.status, state.tally⟩

/-- The votes recorded for a claim, if the board holds it. -/
def votes (board : Blackboard) (claim : ClaimId) : Option (List StoredVote) :=
  board.claims[claim]?.map fun state =>
    state.validators.toList.filterMap fun entry => entry.2.map fun vote => ⟨claim, entry.1, vote⟩

end Blackboard

end SupraHarness.Board
