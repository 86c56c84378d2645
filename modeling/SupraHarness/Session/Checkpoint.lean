import SupraHarness.Types.Id

/-!
# Session checkpoints

A checkpoint is the resumable state of one session. Every operation on it advances its revision, and
none of them touches the turns that are already there.
-/
namespace SupraHarness.Session

open SupraHarness.Types

abbrev SessionId := Id .session

def checkpointVersion : Nat := 1

/-- The largest revision, `u64::MAX`. -/
def revisionMax : Nat := 2 ^ 64 - 1

inductive LifecycleStatus where
  | active
  | running
  | completed
  | interrupted
  deriving DecidableEq, Repr

inductive SessionError where
  | io
  | malformed (reason : String)
  | unsupportedVersion (found : Nat)
  | revisionConflict (expected found : Nat)
  | nonMonotonicRevision (incoming current : Nat)
  | revisionExhausted (revision : Nat)
  | duplicateTurn (turn : TurnId)
  | lossyLegacySave (reason : String)
  deriving DecidableEq, Repr

/-- What a checkpoint asks of a protocol payload. -/
class Payload (V : Type) where
  isObject : V → Bool
  /-- The payload names a role and the role is blank. -/
  blankRole : V → Bool

structure CheckpointTurn (V : Type) where
  turn : TurnId
  displayBody : String
  messages : List V
  completion : Option V
  deriving DecidableEq, Repr

structure SessionCheckpoint (V : Type) where
  version : Nat
  session : SessionId
  revision : Nat
  status : LifecycleStatus
  parent : Option SessionId
  parentRevision : Option Nat
  turns : List (CheckpointTurn V)
  ledger : Option V
  config : Option V
  deriving DecidableEq, Repr

namespace SessionCheckpoint

variable {V : Type}

/-- Start an empty checkpoint. -/
def new (session : SessionId) : SessionCheckpoint V where
  version := checkpointVersion
  session := session
  revision := 0
  status := .active
  parent := none
  parentRevision := none
  turns := []
  ledger := none
  config := none

def advanceRevision (c : SessionCheckpoint V) : Except SessionError (SessionCheckpoint V) :=
  if c.revision < revisionMax then .ok { c with revision := c.revision + 1 }
  else .error (.revisionExhausted c.revision)

def setStatus (c : SessionCheckpoint V) (status : LifecycleStatus) : Except SessionError (SessionCheckpoint V) :=
  c.advanceRevision.map fun c => { c with status := status }

def pushTurn (c : SessionCheckpoint V) (turn : CheckpointTurn V) : Except SessionError (SessionCheckpoint V) :=
  if c.turns.any fun known => known.turn = turn.turn then .error (.duplicateTurn turn.turn)
  else c.advanceRevision.map fun c => { c with turns := c.turns ++ [turn] }

def setLedger (c : SessionCheckpoint V) (ledger : Option V) : Except SessionError (SessionCheckpoint V) :=
  c.advanceRevision.map fun c => { c with ledger := ledger }

def setConfig (c : SessionCheckpoint V) (config : Option V) : Except SessionError (SessionCheckpoint V) :=
  c.advanceRevision.map fun c => { c with config := config }

/-- Copy under a fresh session id. -/
def branch (c : SessionCheckpoint V) (session : SessionId) : SessionCheckpoint V where
  version := checkpointVersion
  session := session
  revision := 0
  status := .active
  parent := some c.session
  parentRevision := some c.revision
  turns := c.turns
  ledger := c.ledger
  config := c.config

section Validate

variable [Payload V]

def validateMessages (turn : TurnId) : List V → Except SessionError Unit
  | [] => .ok ()
  | message :: messages =>
    if !Payload.isObject message then
      .error (.malformed s!"turn {turn.text} contains a protocol message that is not an object")
    else if Payload.blankRole message then
      .error (.malformed s!"turn {turn.text} contains an empty protocol role")
    else validateMessages turn messages

def validateTurns (seen : List TurnId) : List (CheckpointTurn V) → Except SessionError Unit
  | [] => .ok ()
  | turn :: turns =>
    if turn.turn.isNil then .error (.malformed "a checkpoint cannot contain a nil turn")
    else if turn.turn ∈ seen then .error (.duplicateTurn turn.turn)
    else
      match validateMessages turn.turn turn.messages with
      | .error error => .error error
      | .ok () => validateTurns (turn.turn :: seen) turns

def validate (c : SessionCheckpoint V) : Except SessionError Unit :=
  if c.version ≠ checkpointVersion then .error (.unsupportedVersion c.version)
  else if c.session.isNil then .error (.malformed "a checkpoint cannot name the nil session")
  else if c.parent.isSome ≠ c.parentRevision.isSome then
    .error (.malformed "branch parent and parent revision must be present together")
  else if c.parent = some c.session then .error (.malformed "a checkpoint cannot branch from itself")
  else validateTurns [] c.turns

end Validate

/-- The turns as a reader sees them. -/
def transcript (c : SessionCheckpoint V) : List (TurnId × String) :=
  c.turns.map fun turn => (turn.turn, turn.displayBody)

/-- Push plain turns one after the other. -/
def pushAll (c : SessionCheckpoint V) : List (TurnId × String) → Except SessionError (SessionCheckpoint V)
  | [] => .ok c
  | turn :: turns =>
    match c.pushTurn ⟨turn.1, turn.2, [], none⟩ with
    | .error error => .error error
    | .ok c => c.pushAll turns

/-- One operation of a client on the checkpoint it has loaded. -/
inductive Edit (V : Type) where
  | status (status : LifecycleStatus)
  | turn (turn : CheckpointTurn V)
  | ledger (ledger : Option V)
  | config (config : Option V)

def edit (c : SessionCheckpoint V) : Edit V → Except SessionError (SessionCheckpoint V)
  | .status status => c.setStatus status
  | .turn turn => c.pushTurn turn
  | .ledger ledger => c.setLedger ledger
  | .config config => c.setConfig config

/-! ## What the operations keep -/

variable {c c' : SessionCheckpoint V}

theorem advanceRevision_eq_ok (h : c.advanceRevision = .ok c') : c' = { c with revision := c.revision + 1 } := by
  rw [advanceRevision] at h
  by_cases hlt : c.revision < revisionMax
  · rw [if_pos hlt] at h
    exact (Except.ok.inj h).symm
  · rw [if_neg hlt] at h
    contradiction

theorem advance_map_eq_ok {change : SessionCheckpoint V → SessionCheckpoint V}
    (h : c.advanceRevision.map change = .ok c') : c' = change { c with revision := c.revision + 1 } := by
  cases hadvance : c.advanceRevision with
  | error error =>
    rw [hadvance] at h
    contradiction
  | ok advanced =>
    rw [hadvance] at h
    rw [← advanceRevision_eq_ok hadvance]
    exact (Except.ok.inj h).symm

theorem pushTurn_eq_ok {turn : CheckpointTurn V} (h : c.pushTurn turn = .ok c') :
    c' = { c with revision := c.revision + 1, turns := c.turns ++ [turn] } := by
  rw [pushTurn] at h
  split at h
  · contradiction
  · exact advance_map_eq_ok h

theorem edit_transcript {op : Edit V} (h : c.edit op = .ok c') : c.transcript <+: c'.transcript := by
  cases op with
  | status status =>
    rw [advance_map_eq_ok h]
    exact List.prefix_rfl
  | turn turn =>
    rw [pushTurn_eq_ok h, transcript, transcript, List.map_append]
    exact List.prefix_append _ _
  | ledger ledger =>
    rw [advance_map_eq_ok h]
    exact List.prefix_rfl
  | config config =>
    rw [advance_map_eq_ok h]
    exact List.prefix_rfl

theorem pushAll_eq_ok {turns : List (TurnId × String)} (h : c.pushAll turns = .ok c') :
    c'.transcript = c.transcript ++ turns ∧ c'.revision = c.revision + turns.length := by
  induction turns generalizing c with
  | nil =>
    obtain rfl := Except.ok.inj h
    exact ⟨(List.append_nil _).symm, rfl⟩
  | cons turn turns ih =>
    rw [pushAll] at h
    cases hpush : c.pushTurn ⟨turn.1, turn.2, [], none⟩ with
    | error error =>
      rw [hpush] at h
      contradiction
    | ok pushed =>
      rw [hpush] at h
      obtain ⟨htranscript, hrevision⟩ := ih h
      rw [htranscript, hrevision, pushTurn_eq_ok hpush, transcript, transcript, List.map_append, List.append_assoc,
        List.length_cons]
      refine ⟨rfl, ?_⟩
      change c.revision + 1 + turns.length = c.revision + (turns.length + 1)
      omega

end SessionCheckpoint

end SupraHarness.Session
