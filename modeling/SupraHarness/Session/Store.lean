import SupraHarness.Session.Checkpoint

/-!
# The session file

A session file is absent, a legacy pair of a session and its turns, or a versioned envelope around a
checkpoint. A legacy save replaces a legacy file and merges into a versioned one; a checkpoint is
published if the revision on disk is the expected one.
-/
namespace SupraHarness.Session

open SupraHarness.Types

/-- What the bytes of a file read as. -/
inductive Document (V : Type) where
  | legacy (stored : SessionId) (turns : List (TurnId × String))
  | envelope (format : String) (version : Nat) (checkpoint : Option (SessionCheckpoint V))
  | garbage
  deriving DecidableEq, Repr

/-- How the publication of a file ends: a failure comes before the rename or after it. -/
inductive Publication where
  | published
  | failsBefore
  | failsAfter
  deriving DecidableEq, Repr

section Store

variable {V : Type}

def validateTurnIds (seen : List TurnId) : List (TurnId × String) → Except SessionError Unit
  | [] => .ok ()
  | turn :: turns =>
    if turn.1.isNil then .error (.malformed "a session file cannot contain a nil turn")
    else if turn.1 ∈ seen then .error (.duplicateTurn turn.1)
    else validateTurnIds (turn.1 :: seen) turns

def validateLegacyTurns (session : SessionId) (turns : List (TurnId × String)) : Except SessionError Unit :=
  if session.isNil then .error (.malformed "a session file cannot name the nil session")
  else validateTurnIds [] turns

/-- A legacy file, upgraded in memory. -/
def upgradeLegacy (stored : SessionId) (turns : List (TurnId × String)) (expected : SessionId) :
    Except SessionError (SessionCheckpoint V) :=
  match validateLegacyTurns stored turns with
  | .error error => .error error
  | .ok () =>
    if stored ≠ expected then
      .error (.malformed s!"the file names session {stored.text} but was asked for {expected.text}")
    else (SessionCheckpoint.new stored).pushAll turns

def decodeCheckpoint [Payload V] (document : Document V) (expected : SessionId) :
    Except SessionError (SessionCheckpoint V) :=
  match document with
  | .garbage => .error (.malformed "not a session file")
  | .legacy stored turns => upgradeLegacy stored turns expected
  | .envelope format version checkpoint =>
    if format ≠ "supra-session" then .error (.malformed s!"unknown checkpoint format {format}")
    else if version ≠ checkpointVersion then .error (.unsupportedVersion version)
    else
      match checkpoint with
      | none => .error (.malformed "not a checkpoint")
      | some checkpoint =>
        if checkpoint.version ≠ version then
          .error (.malformed
            s!"envelope version {version} disagrees with checkpoint version {checkpoint.version}")
        else if checkpoint.session ≠ expected then
          .error (.malformed
            s!"the file names session {checkpoint.session.text} but was asked for {expected.text}")
        else
          match checkpoint.validate with
          | .error error => .error error
          | .ok () => .ok checkpoint

def readCheckpointIfPresent [Payload V] (file : Option (Document V)) (session : SessionId) :
    Except SessionError (Option (SessionCheckpoint V)) :=
  match file with
  | none => .ok none
  | some document => (decodeCheckpoint document session).map some

def loadCheckpoint [Payload V] (file : Option (Document V)) (session : SessionId) :
    Except SessionError (Option (SessionCheckpoint V)) :=
  readCheckpointIfPresent file session

/-- A legacy file is checked, and counts as absent. -/
def readVersionedCheckpointIfPresent [Payload V] (file : Option (Document V)) (session : SessionId) :
    Except SessionError (Option (SessionCheckpoint V)) :=
  match file with
  | some (.legacy stored turns) =>
    match validateLegacyTurns stored turns with
    | .error error => .error error
    | .ok () =>
      if stored ≠ session then
        .error (.malformed s!"the file names session {stored.text} but was asked for {session.text}")
      else .ok none
  | file => readCheckpointIfPresent file session

def currentRevision [Payload V] (file : Option (Document V)) (session : SessionId) :
    Except SessionError (Option Nat) :=
  (readCheckpointIfPresent file session).map fun found => found.map SessionCheckpoint.revision

/-- The turns a legacy view shares with the committed ones. -/
def checkProjection : List (TurnId × String) → List (CheckpointTurn V) → Except SessionError Unit
  | turn :: turns, committed :: rest =>
    if turn.1 ≠ committed.turn then
      .error (.lossyLegacySave "the legacy view changes committed turn identity or order")
    else if turn.2 ≠ committed.displayBody then
      .error (.lossyLegacySave s!"the legacy view changes committed turn {turn.1.text}")
    else checkProjection turns rest
  | _, _ => .ok ()

def mergeLegacyProjection (existing : SessionCheckpoint V) (turns : List (TurnId × String)) :
    Except SessionError (SessionCheckpoint V) :=
  if turns.length < existing.turns.length then
    .error (.lossyLegacySave "the legacy view omits committed turns")
  else
    match checkProjection turns existing.turns with
    | .error error => .error error
    | .ok () => existing.pushAll (turns.drop existing.turns.length)

def publish (file : Option (Document V)) (document : Document V) (outcome : Publication) :
    Option (Document V) × Except SessionError Unit :=
  match outcome with
  | .published => (some document, .ok ())
  | .failsBefore => (file, .error .io)
  | .failsAfter => (some document, .error .io)

/-- The envelope of a checkpoint. -/
def checkpointDocument (checkpoint : SessionCheckpoint V) : Document V :=
  .envelope "supra-session" checkpointVersion (some checkpoint)

def save [Payload V] [DecidableEq V] (file : Option (Document V)) (session : SessionId)
    (turns : List (TurnId × String)) (outcome : Publication) : Option (Document V) × Except SessionError Unit :=
  match validateLegacyTurns session turns with
  | .error error => (file, .error error)
  | .ok () =>
    match readVersionedCheckpointIfPresent file session with
    | .error error => (file, .error error)
    | .ok none => publish file (.legacy session turns) outcome
    | .ok (some existing) =>
      match mergeLegacyProjection existing turns with
      | .error error => (file, .error error)
      | .ok candidate =>
        if candidate = existing then (file, .ok ())
        else publish file (checkpointDocument candidate) outcome

def saveCheckpoint [Payload V] (file : Option (Document V)) (checkpoint : SessionCheckpoint V)
    (expectedRevision : Option Nat) (outcome : Publication) : Option (Document V) × Except SessionError Unit :=
  match checkpoint.validate with
  | .error error => (file, .error error)
  | .ok () =>
    match currentRevision file checkpoint.session with
    | .error error => (file, .error error)
    | .ok found =>
      let observed := found.getD 0
      if expectedRevision.any fun expected => observed ≠ expected then
        (file, .error (.revisionConflict (expectedRevision.getD 0) observed))
      else if found.any fun current => checkpoint.revision ≤ current then
        (file, .error (.nonMonotonicRevision checkpoint.revision observed))
      else publish file (checkpointDocument checkpoint) outcome

end Store

/-! ## What a file says -/

section File

variable {V : Type}

/-- The turns a file holds, as a reader sees them. -/
def transcriptOf : Option (Document V) → List (TurnId × String)
  | some (.legacy _ turns) => turns
  | some (.envelope _ _ (some checkpoint)) => checkpoint.transcript
  | _ => []

/-- Absence, then the revisions in their order. -/
def rank : Option (Document V) → Nat
  | none => 0
  | some (.legacy _ turns) => turns.length + 1
  | some (.envelope _ _ (some checkpoint)) => checkpoint.revision + 1
  | some _ => 1

@[simp] theorem rank_checkpointDocument (c : SessionCheckpoint V) :
    rank (some (checkpointDocument c)) = c.revision + 1 := rfl

@[simp] theorem transcriptOf_checkpointDocument (c : SessionCheckpoint V) :
    transcriptOf (some (checkpointDocument c)) = c.transcript := rfl

theorem decodeCheckpoint_eq_ok [Payload V] {document : Document V} {session : SessionId}
    {found : SessionCheckpoint V} (h : decodeCheckpoint document session = .ok found) :
    found.revision + 1 = rank (some document) ∧ found.transcript = transcriptOf (some document) := by
  cases document with
  | garbage => cases h
  | legacy stored turns =>
    simp only [decodeCheckpoint, upgradeLegacy] at h
    split at h
    · contradiction
    · split at h
      · contradiction
      · obtain ⟨htranscript, hrevision⟩ := SessionCheckpoint.pushAll_eq_ok h
        rw [hrevision, htranscript]
        exact ⟨congrArg (· + 1) (Nat.zero_add _), rfl⟩
  | envelope format version checkpoint =>
    simp only [decodeCheckpoint] at h
    split at h
    · contradiction
    · split at h
      · contradiction
      · split at h
        · contradiction
        · split at h
          · contradiction
          · split at h
            · contradiction
            · split at h
              · contradiction
              · obtain rfl := Except.ok.inj h
                exact ⟨rfl, rfl⟩

/-- What a load finds: nothing where the file is absent, otherwise the file's state. -/
theorem readCheckpointIfPresent_eq_ok [Payload V] {file : Option (Document V)} {session : SessionId}
    {found : Option (SessionCheckpoint V)} (h : readCheckpointIfPresent file session = .ok found) :
    file = none ∧ found = none ∨
      ∃ checkpoint, found = some checkpoint ∧ checkpoint.revision + 1 = rank file ∧
        checkpoint.transcript = transcriptOf file := by
  cases file with
  | none => exact .inl ⟨rfl, (Except.ok.inj h).symm⟩
  | some document =>
    rw [readCheckpointIfPresent] at h
    cases hdecode : decodeCheckpoint document session with
    | error error =>
      rw [hdecode] at h
      contradiction
    | ok checkpoint =>
      rw [hdecode] at h
      exact .inr ⟨checkpoint, (Except.ok.inj h).symm, decodeCheckpoint_eq_ok hdecode⟩

theorem currentRevision_eq_ok [Payload V] {file : Option (Document V)} {session : SessionId} {found : Option Nat}
    (h : currentRevision file session = .ok found) :
    file = none ∧ found = none ∨ ∃ revision, found = some revision ∧ revision + 1 = rank file := by
  rw [currentRevision] at h
  cases hread : readCheckpointIfPresent file session with
  | error error =>
    rw [hread] at h
    contradiction
  | ok read =>
    rw [hread] at h
    obtain rfl := Except.ok.inj h
    rcases readCheckpointIfPresent_eq_ok hread with ⟨hfile, rfl⟩ | ⟨checkpoint, rfl, hrank, _⟩
    · exact .inl ⟨hfile, rfl⟩
    · exact .inr ⟨checkpoint.revision, rfl, hrank⟩

theorem publish_file (file : Option (Document V)) (document : Document V) (outcome : Publication) :
    (publish file document outcome).1 = file ∧ outcome = .failsBefore ∨
      (publish file document outcome).1 = some document ∧ outcome ≠ .failsBefore := by
  cases outcome with
  | published => exact .inr ⟨rfl, nofun⟩
  | failsBefore => exact .inl ⟨rfl, rfl⟩
  | failsAfter => exact .inr ⟨rfl, nofun⟩

end File

end SupraHarness.Session
