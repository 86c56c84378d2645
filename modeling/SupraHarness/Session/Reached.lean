import SupraHarness.Lib.Run
import SupraHarness.Lib.Str
import SupraHarness.Llm.Value
import SupraHarness.Session.Store

/-!
# Checkpoints that are reached

A checkpoint comes from `new`, from its parts or from a file, and then from calls that change it in place
or branch off. What the check of a checkpoint asks is kept by every call but two: a turn is pushed without
a look at its identity and its messages, and a branch takes any session for its own.
-/
namespace SupraHarness.Session

open SupraHarness.Types

/-- A protocol message is an object, and its role, if it names one, is not blank. -/
instance {φ : Type} : Payload (Llm.Value φ) where
  isObject
    | .object _ => true
    | _ => false
  blankRole message :=
    match message.get "role" with
    | some (.string role) => (Str.trim role.toList).isEmpty
    | _ => false

namespace SessionCheckpoint

variable {V : Type}

/-! ## Calls on a checkpoint -/

/-- `advance_revision` on the checkpoint in place. -/
def advance (c : SessionCheckpoint V) : SessionCheckpoint V × Except SessionError Unit :=
  if c.revision < revisionMax then ({ c with revision := c.revision + 1 }, .ok ())
  else (c, .error (.revisionExhausted c.revision))

/-- Advance the revision, and then make the change. -/
def advanceThen (c : SessionCheckpoint V) (change : SessionCheckpoint V → SessionCheckpoint V) :
    SessionCheckpoint V × Except SessionError Unit :=
  match c.advance with
  | (c, .error error) => (c, .error error)
  | (c, .ok ()) => (change c, .ok ())

/-- The calls that change a checkpoint in place. -/
def call (c : SessionCheckpoint V) : Edit V → SessionCheckpoint V × Except SessionError Unit
  | .status status => c.advanceThen fun c => { c with status := status }
  | .turn turn =>
    if c.turns.any fun known => known.turn = turn.turn then (c, .error (.duplicateTurn turn.turn))
    else c.advanceThen fun c => { c with turns := c.turns ++ [turn] }
  | .ledger ledger => c.advanceThen fun c => { c with ledger := ledger }
  | .config config => c.advanceThen fun c => { c with config := config }

/-- A call in place, or a branch that is worked on from then on. -/
inductive Op (V : Type) where
  | edit (edit : Edit V)
  | branch (session : SessionId)

def perform (c : SessionCheckpoint V) : Op V → Option (SessionCheckpoint V)
  | .edit edit => some (c.call edit).1
  | .branch session => some (c.branch session)

/-- Validate and construct a checkpoint from explicit state. -/
def fromParts [Payload V] (version : Nat) (session : SessionId) (revision : Nat) (status : LifecycleStatus)
    (parent : Option SessionId) (parentRevision : Option Nat) (turns : List (CheckpointTurn V))
    (ledger config : Option V) : Except SessionError (SessionCheckpoint V) :=
  let checkpoint : SessionCheckpoint V :=
    ⟨version, session, revision, status, parent, parentRevision, turns, ledger, config⟩
  match checkpoint.validate with
  | .error error => .error error
  | .ok () => .ok checkpoint

/-- Where a checkpoint comes from. -/
inductive Origin [Payload V] : SessionCheckpoint V → Prop where
  | new {session : SessionId} (named : session.isNil = false) : Origin (.new session)
  | parts {version revision : Nat} {session : SessionId} {status : LifecycleStatus} {parent : Option SessionId}
      {parentRevision : Option Nat} {turns : List (CheckpointTurn V)} {ledger config : Option V}
      {c : SessionCheckpoint V} (built : fromParts version session revision status parent parentRevision turns
        ledger config = .ok c) : Origin c
  | decoded {document : Document V} {session : SessionId} {c : SessionCheckpoint V}
      (read : decodeCheckpoint document session = .ok c) : Origin c

/-! ## What is promised of them -/

/-- An absent payload and `null` are one in a file. -/
def asRead (isNull : V → Bool) (c : SessionCheckpoint V) : SessionCheckpoint V :=
  { c with
    turns := c.turns.map fun turn => { turn with completion := turn.completion.filter fun v => !isNull v }
    ledger := c.ledger.filter fun v => !isNull v
    config := c.config.filter fun v => !isNull v }

/-- The checkpoint passes its check, is published over every older file, and is read back. -/
structure Publishable [Payload V] (c : SessionCheckpoint V) : Prop where
  checked : c.validate = .ok ()
  published : ∀ file found, currentRevision file c.session = .ok found → (∀ current ∈ found, current < c.revision) →
    saveCheckpoint file c (some (found.getD 0)) .published = (some (checkpointDocument c), .ok ())
  read : ∀ isNull, loadCheckpoint (some (checkpointDocument (c.asRead isNull))) c.session =
    .ok (some (c.asRead isNull))

/-- A call succeeds and raises the revision by one, or fails and changes nothing. -/
def Honest (c : SessionCheckpoint V) (edit : Edit V) : Prop :=
  (c.call edit).2 = .ok () ∧ (c.call edit).1.revision = c.revision + 1 ∨
    ∃ error, c.call edit = (c, .error error)

/-- Every checkpoint on the way is publishable, and every call honest. -/
def Kept [Payload V] (c : SessionCheckpoint V) (ops : List (Op V)) : Prop :=
  (∀ t ∈ Run.trace perform c ops, Publishable t.2.2) ∧
    ∀ t ∈ Run.trace perform c ops, ∀ edit, t.2.1 = .edit edit → Honest t.1 edit

/-- A turn with an identity whose messages are objects without a blank role. -/
def Sound [Payload V] (turn : CheckpointTurn V) : Prop :=
  turn.turn.isNil = false ∧
    ∀ message ∈ turn.messages, Payload.isObject message = true ∧ Payload.blankRole message = false

/-- A turn that is pushed is refused for its identity or the revision, or it is sound; a branch has an
identity of its own. -/
def Allowed [Payload V] (c : SessionCheckpoint V) : Op V → Prop
  | .edit (.turn turn) => turn.turn ∈ c.turns.map CheckpointTurn.turn ∨ revisionMax ≤ c.revision ∨ Sound turn
  | .edit _ => True
  | .branch session => session.isNil = false ∧ session ≠ c.session

/-! ## What the check asks -/

structure Valid [Payload V] (c : SessionCheckpoint V) : Prop where
  version : c.version = checkpointVersion
  named : c.session.isNil = false
  lineage : c.parent.isSome = c.parentRevision.isSome
  foreign : c.parent ≠ some c.session
  sound : ∀ turn ∈ c.turns, Sound turn
  distinct : (c.turns.map CheckpointTurn.turn).Nodup

variable [Payload V]

theorem validateMessages_eq_ok {turn : TurnId} {messages : List V} :
    validateMessages turn messages = .ok () ↔
      ∀ message ∈ messages, Payload.isObject message = true ∧ Payload.blankRole message = false := by
  induction messages with
  | nil => exact iff_of_true rfl nofun
  | cons message messages ih =>
    rw [validateMessages, List.forall_mem_cons]
    cases object : Payload.isObject message with
    | false => exact iff_of_false nofun fun both => absurd both.1.1 (by simp)
    | true =>
      cases blank : Payload.blankRole message with
      | true => exact iff_of_false nofun fun both => absurd both.1.2 (by simp)
      | false => simpa using ih

theorem validateTurns_eq_ok {seen : List TurnId} {turns : List (CheckpointTurn V)} :
    validateTurns seen turns = .ok () ↔
      (∀ turn ∈ turns, Sound turn) ∧ (turns.map CheckpointTurn.turn).Nodup ∧ ∀ turn ∈ turns, turn.turn ∉ seen := by
  induction turns generalizing seen with
  | nil => exact iff_of_true rfl ⟨nofun, List.nodup_nil, nofun⟩
  | cons turn turns ih =>
    rw [validateTurns, List.forall_mem_cons, List.forall_mem_cons, List.map_cons, List.nodup_cons]
    by_cases nil_ : turn.turn.isNil = true
    · rw [if_pos nil_]
      exact iff_of_false nofun fun all => absurd all.1.1.1 (by simp [nil_])
    · rw [if_neg nil_]
      by_cases known : turn.turn ∈ seen
      · rw [if_pos known]
        exact iff_of_false nofun fun all => all.2.2.1 known
      · rw [if_neg known]
        cases messages : validateMessages turn.turn turn.messages with
        | error error =>
          refine iff_of_false nofun fun all => ?_
          rw [validateMessages_eq_ok.2 all.1.1.2] at messages
          cases messages
        | ok _ =>
          have sound : Sound turn := ⟨by simpa using nil_, validateMessages_eq_ok.1 messages⟩
          dsimp only
          rw [ih, and_iff_right sound, and_iff_right known]
          simp only [List.mem_cons, not_or, List.mem_map, not_exists, not_and]
          constructor
          · rintro ⟨all, distinct, apart⟩
            exact ⟨all, ⟨fun other mem => (apart other mem).1, distinct⟩, fun other mem => (apart other mem).2⟩
          · rintro ⟨all, ⟨fresh, distinct⟩, apart⟩
            exact ⟨all, distinct, fun other mem => ⟨fresh other mem, apart other mem⟩⟩

theorem validate_eq_ok {c : SessionCheckpoint V} : c.validate = .ok () ↔ Valid c := by
  rw [validate]
  constructor
  · intro ok
    split_ifs at ok with version named lineage foreign
    obtain ⟨sound, distinct, -⟩ := validateTurns_eq_ok.1 ok
    exact ⟨not_not.1 version, by simpa using named, not_not.1 lineage, foreign, sound, distinct⟩
  · intro valid
    rw [if_neg (not_not.2 valid.version), if_neg (by simp [valid.named]), if_neg (not_not.2 valid.lineage),
      if_neg valid.foreign]
    exact validateTurns_eq_ok.2 ⟨valid.sound, valid.distinct, nofun⟩

/-! ## The calls -/

variable {c c' : SessionCheckpoint V}

omit [Payload V] in
theorem advanceThen_eq (change : SessionCheckpoint V → SessionCheckpoint V) :
    c.revision < revisionMax ∧ c.advanceThen change = (change { c with revision := c.revision + 1 }, .ok ()) ∨
      revisionMax ≤ c.revision ∧ c.advanceThen change = (c, .error (.revisionExhausted c.revision)) := by
  rw [advanceThen, advance]
  by_cases room : c.revision < revisionMax
  · rw [if_pos room]
    exact .inl ⟨room, rfl⟩
  · rw [if_neg room]
    exact .inr ⟨Nat.not_lt.1 room, rfl⟩

omit [Payload V] in
/-- A call in place changes the checkpoint as the operation on a copy does, and a failure keeps it. -/
theorem call_eq (edit : Edit V) :
    c.call edit = match c.edit edit with
      | .ok c' => (c', .ok ())
      | .error error => (c, .error error) := by
  have both (change : SessionCheckpoint V → SessionCheckpoint V) :
      c.advanceThen change = match c.advanceRevision.map change with
        | .ok c' => (c', .ok ())
        | .error error => (c, .error error) := by
    rw [advanceRevision]
    rcases advanceThen_eq (c := c) change with ⟨room, equal⟩ | ⟨full, equal⟩
    · rw [equal, if_pos room]
      rfl
    · rw [equal, if_neg (Nat.not_lt.2 full)]
      rfl
  cases edit with
  | status status => exact both _
  | turn turn =>
    rw [call, SessionCheckpoint.edit, pushTurn]
    by_cases known : (c.turns.any fun known => known.turn = turn.turn) = true
    · rw [if_pos known, if_pos known]
    · rw [if_neg known, if_neg known]
      exact both _
  | ledger ledger => exact both _
  | config config => exact both _

omit [Payload V] in
theorem honest (edit : Edit V) : Honest c edit := by
  have advanced (change : SessionCheckpoint V → SessionCheckpoint V)
      (same : ∀ c : SessionCheckpoint V, (change c).revision = c.revision) :
      (c.advanceThen change).2 = .ok () ∧ (c.advanceThen change).1.revision = c.revision + 1 ∨
        ∃ error, c.advanceThen change = (c, .error error) := by
    rcases advanceThen_eq (c := c) change with ⟨-, equal⟩ | ⟨-, equal⟩
    · rw [equal]
      exact .inl ⟨rfl, same _⟩
    · exact .inr ⟨_, equal⟩
  rw [Honest]
  cases edit with
  | status status => exact advanced _ fun _ => rfl
  | turn turn =>
    rw [call]
    split
    · exact .inr ⟨_, rfl⟩
    · exact advanced _ fun _ => rfl
  | ledger ledger => exact advanced _ fun _ => rfl
  | config config => exact advanced _ fun _ => rfl

/-- A change that touches nothing the check looks at. -/
theorem Valid.of_same (valid : Valid c) (version : c'.version = c.version) (session : c'.session = c.session)
    (parent : c'.parent = c.parent) (parentRevision : c'.parentRevision = c.parentRevision)
    (turns : c'.turns = c.turns) : Valid c' where
  version := version.trans valid.version
  named := session ▸ valid.named
  lineage := by rw [parent, parentRevision, valid.lineage]
  foreign := by
    rw [parent, session]
    exact valid.foreign
  sound := turns ▸ valid.sound
  distinct := turns ▸ valid.distinct

theorem valid_advanceThen (valid : Valid c) (change : SessionCheckpoint V → SessionCheckpoint V)
    (same : ∀ c : SessionCheckpoint V, (change c).version = c.version ∧ (change c).session = c.session ∧
      (change c).parent = c.parent ∧ (change c).parentRevision = c.parentRevision ∧ (change c).turns = c.turns) :
    Valid (c.advanceThen change).1 := by
  rcases advanceThen_eq (c := c) change with ⟨-, equal⟩ | ⟨-, equal⟩
  · rw [equal]
    obtain ⟨version, session, parent, parentRevision, turns⟩ := same { c with revision := c.revision + 1 }
    exact valid.of_same version session parent parentRevision turns
  · rw [equal]
    exact valid

/-- With a turn of an identity of its own at the end a checkpoint passes if the turn is sound. -/
theorem valid_push_iff (valid : Valid c) {turn : CheckpointTurn V} (fresh : turn.turn ∉ c.turns.map CheckpointTurn.turn)
    (revision : Nat) : Valid { c with revision := revision, turns := c.turns ++ [turn] } ↔ Sound turn := by
  constructor
  · intro pushed
    exact pushed.sound turn (List.mem_append_right _ List.mem_cons_self)
  · intro sound
    refine ⟨valid.version, valid.named, valid.lineage, valid.foreign, ?_, ?_⟩
    · intro other mem
      rcases List.mem_append.1 mem with old | new
      · exact valid.sound other old
      · rw [List.mem_singleton.1 new]
        exact sound
    · rw [List.map_append, List.map_singleton, List.nodup_append]
      refine ⟨valid.distinct, List.nodup_singleton _, ?_⟩
      rintro id old other new rfl
      exact fresh (List.mem_singleton.1 new ▸ old)

omit [Payload V] in
theorem known_iff {turn : CheckpointTurn V} :
    (c.turns.any fun known => known.turn = turn.turn) = true ↔ turn.turn ∈ c.turns.map CheckpointTurn.turn := by
  rw [List.any_eq_true, List.mem_map]
  simp only [decide_eq_true_eq]

theorem valid_turn_iff (valid : Valid c) (turn : CheckpointTurn V) :
    Valid (c.call (.turn turn)).1 ↔ Allowed c (.edit (.turn turn)) := by
  rw [call, Allowed]
  by_cases known : (c.turns.any fun known => known.turn = turn.turn) = true
  · rw [if_pos known]
    exact iff_of_true valid (.inl (known_iff.1 known))
  · rw [if_neg known]
    rw [known_iff] at known
    rcases advanceThen_eq (c := c) fun c => { c with turns := c.turns ++ [turn] } with ⟨room, equal⟩ | ⟨full, equal⟩
    · rw [equal, or_iff_right known, or_iff_right (Nat.not_le.2 room)]
      exact valid_push_iff valid known (c.revision + 1)
    · rw [equal]
      exact iff_of_true valid (.inr (.inl full))

theorem valid_branch_iff (valid : Valid c) (session : SessionId) :
    Valid (c.branch session) ↔ Allowed c (.branch session) := by
  rw [Allowed]
  constructor
  · intro branched
    exact ⟨branched.named, fun same => branched.foreign (congrArg some same.symm)⟩
  · rintro ⟨named, other⟩
    exact ⟨rfl, named, rfl, fun same => other (Option.some.inj same).symm, valid.sound, valid.distinct⟩

/-- A call keeps the check exactly if it is allowed. -/
theorem valid_perform_iff {op : Op V} (valid : Valid c) (taken : c.perform op = some c') :
    Valid c' ↔ Allowed c op := by
  cases op with
  | branch session =>
    obtain rfl := Option.some.inj taken
    exact valid_branch_iff valid session
  | edit edit =>
    obtain rfl := Option.some.inj taken
    cases edit with
    | turn turn => exact valid_turn_iff valid turn
    | status status => exact iff_of_true (valid_advanceThen valid _ fun _ => ⟨rfl, rfl, rfl, rfl, rfl⟩) trivial
    | ledger ledger => exact iff_of_true (valid_advanceThen valid _ fun _ => ⟨rfl, rfl, rfl, rfl, rfl⟩) trivial
    | config config => exact iff_of_true (valid_advanceThen valid _ fun _ => ⟨rfl, rfl, rfl, rfl, rfl⟩) trivial

/-! ## Where checkpoints come from -/

theorem valid_new {session : SessionId} (named : session.isNil = false) : Valid (.new session : SessionCheckpoint V) :=
  ⟨rfl, named, rfl, nofun, nofun, List.nodup_nil⟩

theorem validateTurnIds_named {seen : List TurnId} {turns : List (TurnId × String)}
    (ok : validateTurnIds seen turns = .ok ()) : ∀ turn ∈ turns, turn.1.isNil = false := by
  induction turns generalizing seen with
  | nil => exact nofun
  | cons turn turns ih =>
    rw [validateTurnIds] at ok
    split_ifs at ok with nil_ known
    exact List.forall_mem_cons.2 ⟨by simpa using nil_, ih ok⟩

/-- Turns from a legacy file are pushed onto a checkpoint that passes. -/
theorem valid_pushAll {turns : List (TurnId × String)} (valid : Valid c)
    (named : ∀ turn ∈ turns, turn.1.isNil = false) (pushed : c.pushAll turns = .ok c') : Valid c' := by
  induction turns generalizing c with
  | nil =>
    obtain rfl := Except.ok.inj pushed
    exact valid
  | cons turn turns ih =>
    rw [List.forall_mem_cons] at named
    rw [pushAll] at pushed
    cases push : c.pushTurn ⟨turn.1, turn.2, [], none⟩ with
    | error error =>
      rw [push] at pushed
      cases pushed
    | ok next =>
      rw [push] at pushed
      have sound : Sound (⟨turn.1, turn.2, [], none⟩ : CheckpointTurn V) := ⟨named.1, by rintro _ ⟨⟩⟩
      have kept := (valid_turn_iff valid ⟨turn.1, turn.2, [], none⟩).2 (.inr (.inr sound))
      rw [call_eq, SessionCheckpoint.edit, push] at kept
      exact ih kept named.2 pushed

theorem valid_of_decode {document : Document V} {session : SessionId}
    (read : decodeCheckpoint document session = .ok c) : Valid c := by
  cases document with
  | garbage => cases read
  | legacy stored turns =>
    rw [decodeCheckpoint, upgradeLegacy] at read
    cases checked : validateLegacyTurns stored turns with
    | error error =>
      rw [checked] at read
      cases read
    | ok _ =>
      rw [checked] at read
      rw [validateLegacyTurns] at checked
      dsimp only at read
      split_ifs at read with same
      split_ifs at checked with nil_
      exact valid_pushAll (valid_new (by simpa using nil_)) (validateTurnIds_named checked) read
  | envelope format version checkpoint =>
    unfold decodeCheckpoint at read
    dsimp only at read
    split_ifs at read with unknown foreign
    cases checkpoint with
    | none => cases read
    | some checkpoint =>
      dsimp only at read
      split_ifs at read with disagrees other
      cases checked : checkpoint.validate with
      | error error =>
        rw [checked] at read
        cases read
      | ok _ =>
        rw [checked] at read
        rw [← Except.ok.inj read]
        exact validate_eq_ok.1 checked

theorem valid_of_origin (origin : Origin c) : Valid c := by
  cases origin with
  | new named => exact valid_new named
  | parts built =>
    rw [fromParts] at built
    split at built
    · cases built
    · rename_i ok
      obtain rfl := Except.ok.inj built
      exact validate_eq_ok.1 ok
  | decoded read => exact valid_of_decode read

/-! ## Publication -/

omit [Payload V] in
@[simp] theorem asRead_session (isNull : V → Bool) : (c.asRead isNull).session = c.session := rfl

theorem Valid.asRead (valid : Valid c) (isNull : V → Bool) : Valid (c.asRead isNull) where
  version := valid.version
  named := valid.named
  lineage := valid.lineage
  foreign := valid.foreign
  sound := by
    intro turn mem
    obtain ⟨original, old, rfl⟩ := List.mem_map.1 mem
    exact valid.sound original old
  distinct := by
    have same : (c.asRead isNull).turns.map CheckpointTurn.turn = c.turns.map CheckpointTurn.turn := by
      rw [SessionCheckpoint.asRead, List.map_map]
      rfl
    rw [same]
    exact valid.distinct

theorem load_of_valid (valid : Valid c) : loadCheckpoint (some (checkpointDocument c)) c.session = .ok (some c) := by
  rw [loadCheckpoint, readCheckpointIfPresent, checkpointDocument, decodeCheckpoint]
  rw [if_neg (not_not.2 rfl), if_neg (not_not.2 rfl), if_neg (not_not.2 valid.version), if_neg (not_not.2 rfl), validate_eq_ok.2 valid]
  rfl

/-- What passes the check is published and read back, and nothing else is. -/
theorem publishable_iff : Publishable c ↔ Valid c := by
  constructor
  · intro publishable
    exact validate_eq_ok.1 publishable.checked
  · intro valid
    refine ⟨validate_eq_ok.2 valid, fun file found reads older => ?_, fun isNull => load_of_valid (valid.asRead isNull)⟩
    have unequal : ((some (found.getD 0)).any fun expected => decide (found.getD 0 ≠ expected)) = false := by simp
    have later : (found.any fun current => decide (c.revision ≤ current)) = false := by
      cases found with
      | none => rfl
      | some current => simpa using older current rfl
    rw [saveCheckpoint, validate_eq_ok.2 valid, reads]
    dsimp only
    rw [unequal, later]
    rfl

/-- All checkpoints that come of a run can be published, and its calls are honest, exactly if every turn that
is pushed with success is sound and every branch has an identity of its own. -/
theorem kept_allowed_iff {c : SessionCheckpoint V} (origin : Origin c) (ops : List (Op V)) :
    Kept c ops ↔ ∀ t ∈ Run.trace perform c ops, Allowed t.1 t.2.1 := by
  rw [Kept, and_iff_left fun t _ edit _ => honest edit]
  simp only [publishable_iff]
  exact Run.trace_iff (fun _ _ _ valid taken => valid_perform_iff valid taken) ops (valid_of_origin origin)

/-! ## A turn and a branch, and a turn without an identity -/

def started : SessionCheckpoint (Llm.Value Nat) := .new ⟨1⟩

def answered : CheckpointTurn (Llm.Value Nat) :=
  ⟨⟨1⟩, "answer", [.object [("role", .string "assistant"), ("content", .string "answer")]], none⟩

/-- A turn is pushed, the status set, and a branch taken. -/
def evening : List (Op (Llm.Value Nat)) := [.edit (.turn answered), .edit (.status .completed), .branch ⟨2⟩]

theorem answered_sound : Sound answered := by
  refine ⟨rfl, ?_⟩
  intro message mem
  obtain rfl := List.mem_singleton.1 mem
  exact ⟨rfl, by decide⟩

theorem evening_kept : Kept started evening := by
  refine (kept_allowed_iff (.new rfl) evening).2 ?_
  have taken (c : SessionCheckpoint (Llm.Value Nat)) (edit : Edit (Llm.Value Nat)) :
      c.perform (.edit edit) = some (c.call edit).1 := rfl
  have branched (c : SessionCheckpoint (Llm.Value Nat)) : c.perform (.branch ⟨2⟩) = some (c.branch ⟨2⟩) := rfl
  have own : (⟨2⟩ : SessionId) ≠ ((started.call (.turn answered)).1.call (.status .completed)).1.session := by decide
  rw [evening, Run.trace_cons (taken _ _), Run.trace_cons (taken _ _), Run.trace_cons (branched _),
    List.forall_mem_cons, List.forall_mem_cons, List.forall_mem_cons]
  refine ⟨.inr (.inr answered_sound), trivial, ⟨rfl, own⟩, ?_⟩
  rw [Run.trace]
  exact List.forall_mem_nil _

/-- A turn with the nil identity is taken, and the checkpoint can no longer be saved. -/
theorem nil_turn_taken : ¬ Kept started [.edit (.turn ⟨.nil, "answer", [], none⟩)] := by
  intro kept
  rw [Kept, Run.trace_cons rfl, List.forall_mem_cons] at kept
  exact absurd kept.1.1.checked (by decide)

end SessionCheckpoint

end SupraHarness.Session
