import SupraHarness.Blackboard.Answers
import SupraHarness.Core.Agreement

/-!
# The validation phase

The validators of a turn answer concurrently. Their verdicts are recorded in the order in which they
complete, a failure counts for neither side, and the first decision cancels the rest. What comes of the
phase is what the tally of all verdicts says, in whatever order they come.
-/
namespace SupraHarness.Cli

open SupraHarness.Types SupraHarness.Store SupraHarness.Slots SupraHarness.Core
open SupraHarness.Board hiding step run
open Std (ExtTreeMap)

/-- How the validation phase ends. -/
inductive Validation where
  | accepted
  | escalated
  | endedBeforeQuorum
  | refused (error : TurnError)
  deriving DecidableEq, Repr

/-- `collect_validations`: the answers in the order in which the tasks are joined. -/
def collectValidations (turn : Turn) : List (AgentId × Option Verdict) → Validation
  | [] => .endedBeforeQuorum
  | (_, none) :: tasks => collectValidations turn tasks
  | (agent, some verdict) :: tasks =>
    match turn.record Faults.none ⟨agent, none, some verdict⟩ with
    | (_, .error error) => .refused error
    | (_, .ok .reached) => .accepted
    | (_, .ok .escalate) => .escalated
    | (turn, .ok .collecting) => collectValidations turn tasks

/-- The agents that are asked to validate: a cohort of one judges its own answer. -/
def validatorsOf (agents : List AgentId) : List AgentId :=
  if agents.length = 1 then agents.take 1 else agents.drop 1

/-- A turn of the agents on a fresh board, up to the end of its validation. `order` is the order in which
the validators complete, `answers` what each answers, with `none` for a failure. -/
def validate (id : TurnId) (generated : ClaimId) (now : Nat) (task : Str) (agents : List AgentId) (proposal : Str)
    (answers : AgentId → Option Verdict) (order : List AgentId) : Validation :=
  match Turn.start fresh Faults.none id generated now task agents with
  | .error error => .refused error
  | .ok turn =>
    match turn.record Faults.none ⟨turn.proposer, some proposal, none⟩ with
    | (_, .error error) => .refused error
    | (turn, .ok _) => collectValidations turn (order.map fun agent => (agent, answers agent))

/-- What a tally's status makes of the phase, once every validator has answered. -/
def ended : QuorumStatus → Validation
  | .open => .endedBeforeQuorum
  | .reached => .accepted
  | .unreachable => .escalated

/-- A turn that still waits for these validators. -/
structure Waits (turn : Turn) (state : ClaimState) (waiting : List AgentId) : Prop where
  coherent : Coherent turn.board
  held : turn.board.claims[turn.claim]? = some state
  isOpen : state.status = .open
  tallyOpen : state.tally.status = .open
  answered : turn.answer.isSome
  proposer : state.proposer = turn.proposer
  slots : ∀ agent ∈ waiting, state.validators[agent]? = some none
  blind : turn.blindRederivation = true →
    (state.k = 1 ∧ state.validators.size = 1) ∧ ∀ agent ∈ waiting, agent = turn.proposer
  apart : turn.blindRederivation = false → ∀ agent ∈ waiting, agent ≠ turn.proposer

section Collect

variable {turn : Turn} {state : ClaimState} {agent : AgentId} {waiting : List AgentId} {verdict : Verdict}

theorem Waits.castVote (h : Waits turn state (agent :: waiting)) :
    ∃ tables, turn.castVote Faults.none agent verdict =
      (⟨tables, turn.board.claims.insert turn.claim (state.voted agent verdict.vote)⟩,
        .ok ⟨turn.claim, (state.tally.after verdict.vote).status, state.tally.after verdict.vote⟩) := by
  have slot := h.slots agent List.mem_cons_self
  unfold Turn.castVote
  cases blind : turn.blindRederivation with
  | true =>
    obtain ⟨single, own⟩ := h.blind blind
    have own := own agent List.mem_cons_self
    rw [if_pos ⟨rfl, own⟩]
    exact voteBlind_succeeds h.coherent h.held h.isOpen slot (h.proposer.trans own.symm) single
  | false =>
    rw [if_neg (by simp)]
    have apart := h.apart blind agent List.mem_cons_self
    exact vote_succeeds h.coherent h.held h.isOpen slot (h.proposer.symm ▸ apart)

theorem Waits.fewer {fewer : List AgentId} (h : Waits turn state waiting) (sub : fewer ⊆ waiting) :
    Waits turn state fewer where
  coherent := h.coherent
  held := h.held
  isOpen := h.isOpen
  tallyOpen := h.tallyOpen
  answered := h.answered
  proposer := h.proposer
  slots agent mem := h.slots agent (sub mem)
  blind own := ⟨(h.blind own).1, fun agent mem => (h.blind own).2 agent (sub mem)⟩
  apart own agent mem := h.apart own agent (sub mem)

/-- What the turn says of a tally's status. -/
def stepAt : QuorumStatus → Step
  | .open => .collecting
  | .reached => .reached
  | .unreachable => .escalate

/-- One verdict: recorded, and the turn waits for the others unless it is decided. -/
theorem Waits.record (h : Waits turn state (agent :: waiting)) (once : agent ∉ waiting) :
    ∃ turn', turn.record Faults.none ⟨agent, none, some verdict⟩ =
        (turn', .ok (stepAt (state.tally.after verdict.vote).status)) ∧
      ((state.tally.after verdict.vote).status = .open → Waits turn' (state.voted agent verdict.vote) waiting) := by
  obtain ⟨tables, cast⟩ := @Waits.castVote turn state agent waiting verdict h
  have slot := h.slots agent List.mem_cons_self
  have answered : ¬ turn.answer.isNone = true := by
    have := h.answered
    cases text : turn.answer with
    | none =>
      rw [text] at this
      cases this
    | some text => simp
  have coherent : Coherent ⟨tables, turn.board.claims.insert turn.claim (state.voted agent verdict.vote)⟩ := by
    rcases Turn.castVote_cases cast with ⟨error, answer, -⟩ | ⟨before, after, -, voted⟩
    · cases answer
    · exact coherent_voted h.coherent voted
  let outcome : Blackboard.Outcome :=
    ⟨turn.claim, (state.tally.after verdict.vote).status, state.tally.after verdict.vote⟩
  have step : (Turn.stepOf turn.claim outcome).1 = stepAt (state.tally.after verdict.vote).status := by
    unfold Turn.stepOf outcome
    dsimp only
    cases (state.tally.after verdict.vote).status <;> rfl
  refine ⟨{ turn with
      board := ⟨tables, turn.board.claims.insert turn.claim (state.voted agent verdict.vote)⟩
      bus := turn.bus ++ .voteCast turn.claim agent verdict.vote verdict.confidence ::
        (Turn.stepOf turn.claim outcome).2
      votesSeen := turn.votesSeen + 1
      stepsSeen := turn.stepsSeen ++ [(Turn.stepOf turn.claim outcome).1] }, ?_, ?_⟩
  · rw [Turn.record]
    dsimp only
    rw [if_neg answered, cast]
    dsimp only
    rw [← step]
  · intro still
    refine ⟨coherent, ?_, still, still, h.answered, h.proposer, fun other mem => ?_, fun blind => ?_, fun apart => ?_⟩
    · dsimp only
      rw [getElem?_insert_claim, if_pos rfl]
    · have apart : other ≠ agent := fun eq => once (eq ▸ mem)
      rw [ClaimState.voted]
      dsimp only
      rw [getElem?_insert, if_neg apart]
      exact h.slots other (List.mem_cons_of_mem _ mem)
    · obtain ⟨⟨k, size⟩, own⟩ := h.blind blind
      refine ⟨⟨k, ?_⟩, fun other mem => own other (List.mem_cons_of_mem _ mem)⟩
      rw [ClaimState.voted]
      dsimp only
      rw [size_insert _ slot, size]
    · exact fun other mem => h.apart apart other (List.mem_cons_of_mem _ mem)

/-- The votes among the answers. -/
def votesOf (answers : AgentId → Option Verdict) (order : List AgentId) : List Vote :=
  order.filterMap fun agent => (answers agent).map Verdict.vote

/-- The collector stops at the first decision, and the tally of all votes decides the same. -/
theorem Waits.collect (answers : AgentId → Option Verdict) (h : Waits turn state waiting) (nodup : waiting.Nodup) :
    collectValidations turn (waiting.map fun agent => (agent, answers agent)) =
      ended (state.tally.afterAll (votesOf answers waiting)).status := by
  induction waiting generalizing turn state with
  | nil =>
    rw [List.map_nil, collectValidations, votesOf, List.filterMap_nil, QuorumTally.afterAll_nil, h.tallyOpen]
    rfl
  | cons agent waiting ih =>
    obtain ⟨once, nodup⟩ := List.nodup_cons.1 nodup
    rw [List.map_cons]
    cases answer : answers agent with
    | none =>
      have skipped : votesOf answers (agent :: waiting) = votesOf answers waiting := by
        simp [votesOf, answer]
      rw [collectValidations, skipped]
      exact ih (h.fewer (List.subset_cons_self _ _)) nodup
    | some verdict =>
      have counted : votesOf answers (agent :: waiting) = verdict.vote :: votesOf answers waiting := by
        simp [votesOf, answer]
      obtain ⟨turn', recorded, waits⟩ := @Waits.record turn state agent waiting verdict h once
      rw [collectValidations, recorded, counted, QuorumTally.afterAll_cons]
      cases status : (state.tally.after verdict.vote).status with
      | «open» => exact ih (waits status) nodup
      | reached =>
        have decided : (state.tally.after verdict.vote).status ≠ .open := by
          rw [status]
          nofun
        rw [QuorumTally.status_afterAll _ _ decided, status]
        rfl
      | unreachable =>
        have decided : (state.tally.after verdict.vote).status ≠ .open := by
          rw [status]
          nofun
        rw [QuorumTally.status_afterAll _ _ decided, status]
        rfl

end Collect

theorem validatorsOf_tail {agents : List AgentId} (nonempty : agents ≠ []) (nodup : agents.Nodup)
    (many : agents.length ≠ 1) :
    validatorsOf agents = Turn.validatorsOf (agents.head nonempty) agents ∧ validatorsOf agents ≠ [] := by
  obtain ⟨proposer, rest, rfl⟩ := List.exists_cons_of_ne_nil nonempty
  have others : ∀ agent ∈ rest, decide (agent ≠ proposer) = true := by
    intro agent mem
    have apart : agent ≠ proposer := by
      rintro rfl
      exact (List.nodup_cons.1 nodup).1 mem
    exact decide_eq_true apart
  rw [validatorsOf, if_neg many, Turn.validatorsOf, List.head_cons, List.filter_cons_of_neg (by simp),
    List.filter_eq_self.2 others, List.drop_one, List.tail_cons]
  refine ⟨rfl, fun empty => ?_⟩
  rw [empty] at many
  exact many rfl

theorem nodup_validatorsOf {agents : List AgentId} (nodup : agents.Nodup) : (validatorsOf agents).Nodup := by
  unfold validatorsOf
  split
  · exact nodup.sublist (List.take_sublist _ _)
  · exact nodup.sublist (List.drop_sublist _ _)

/-- A published claim waits for its validators. -/
theorem published_waits {board : Blackboard} {claim : ClaimId} {state : ClaimState} {validators : List AgentId}
    {turn : Turn} (published : Published fresh board claim state validators) (some : validators ≠ [])
    (here : turn.board = board ∧ turn.claim = claim) (answered : turn.answer.isSome)
    (proposer : state.proposer = turn.proposer)
    (blind : turn.blindRederivation = true → state.k = 1 ∧ validators = [turn.proposer])
    (apart : turn.blindRederivation = false → turn.proposer ∉ validators) :
    Waits turn state validators ∧ validators.length ≤ state.tally.pending := by
  have size : state.validators.size = validators.length := by
    rw [published.state_roster, roster, size_empties published.nodup]
  have long := List.length_pos_of_ne_nil some
  have tally : state.tally.status = .open := by
    rcases published.sound.standing with same | ⟨-, empty⟩
    · rw [← same, published.state_open]
    · omega
  have pending : state.tally.pending = validators.length := by
    rw [published.sound.pending_eq, size, published.state_roster, roster, filled_empties]
    rfl
  refine ⟨⟨?_, ?_, published.state_open, tally, answered, proposer, fun agent mem => ?_, fun own => ?_,
    fun other agent mem => ?_⟩, le_of_eq pending.symm⟩
  · rw [here.1]
    exact coherent_published coherent_fresh published
  · rw [here.1, here.2, published.memory, getElem?_insert_claim, if_pos rfl]
  · rw [published.state_roster, roster, getElem?_empties, if_pos mem]
  · obtain ⟨k, single⟩ := blind own
    refine ⟨⟨k, by rw [size, single]; rfl⟩, fun agent mem => ?_⟩
    rw [single] at mem
    exact List.mem_singleton.1 mem
  · rintro rfl
    exact apart other mem

/-- A turn that has started has published its claim to the validators. -/
theorem start_waits {id : TurnId} {generated : ClaimId} {now : Nat} {task : Str} {agents : List AgentId}
    {turn : Turn} (nodup : agents.Nodup)
    (started : Turn.start fresh Faults.none id generated now task agents = .ok turn) (text : Str) :
    ∃ state, Waits { turn with answer := some text } state (validatorsOf agents) ∧
      (validatorsOf agents).length ≤ state.tally.pending := by
  unfold Turn.start at started
  split at started
  · cases started
  rename_i nonempty
  split at started
  · cases started
  split at started
  · cases started
  simp only at started
  cases publish : Turn.publishCandidate fresh Faults.none id generated now (agents.head nonempty) agents with
  | mk board answer =>
    rw [publish] at started
    unfold Turn.publishCandidate at publish
    cases answer with
    | error error => cases started
    | ok claim =>
      cases started
      split at publish
      · rename_i one
        have single : validatorsOf agents = [agents.head nonempty] := by
          obtain ⟨proposer, rfl⟩ := List.length_eq_one_iff.1 one
          rfl
        rcases publishBlind_cases publish with ⟨error, refused, -⟩ | ⟨same, published⟩
        · cases refused
        · cases same
          rw [single]
          refine ⟨_, published_waits published (by simp) ⟨rfl, rfl⟩ rfl rfl (fun _ => ⟨rfl, rfl⟩) fun other => ?_⟩
          simp [one] at other
      · rename_i many
        obtain ⟨tail, some⟩ := validatorsOf_tail nonempty nodup many
        rcases publish_cases publish with ⟨error, refused, -⟩ | ⟨same, apart, published⟩
        · cases refused
        · cases same
          rw [tail] at some ⊢
          refine ⟨_, published_waits published some ⟨rfl, rfl⟩ rfl rfl (fun own => ?_) fun _ => apart⟩
          simp [many] at own

/-- A turn that has its proposal waits for all its validators, or there is no such turn. -/
theorem proposed_waits {id : TurnId} {generated : ClaimId} {now : Nat} {task : Str} {agents : List AgentId}
    {proposal : Str} (nodup : agents.Nodup) :
    (∃ error, ∀ answers order, validate id generated now task agents proposal answers order = .refused error) ∨
      ∃ turn state, Waits turn state (validatorsOf agents) ∧ (validatorsOf agents).length ≤ state.tally.pending ∧
        ∀ answers order, validate id generated now task agents proposal answers order =
          collectValidations turn (order.map fun agent => (agent, answers agent)) := by
  unfold validate
  cases started : Turn.start fresh Faults.none id generated now task agents with
  | error error => exact Or.inl ⟨error, fun _ _ => rfl⟩
  | ok turn =>
    cases recorded : turn.record Faults.none ⟨turn.proposer, some proposal, none⟩ with
    | mk turn' result =>
      cases result with
      | error error =>
        refine Or.inl ⟨error, fun answers order => ?_⟩
        dsimp only
        rw [recorded]
      | ok step =>
        right
        rcases Turn.record_cases recorded with ⟨error, refused, -⟩ | ⟨text, -, -, -, -, same⟩ |
          ⟨verdict, text, before, after, none, -⟩
        · cases refused
        · obtain ⟨state, waits, room⟩ := start_waits nodup started text
          refine ⟨turn', state, same ▸ waits, room, fun answers order => ?_⟩
          dsimp only
          rw [recorded]
        · cases none

/-- With all validators heard, the phase ends as the tally of their votes says. -/
theorem Waits.complete {turn : Turn} {state : ClaimState} {validators order : List AgentId}
    (h : Waits turn state validators) (nodup : validators.Nodup) (all : order.Perm validators)
    (answers : AgentId → Option Verdict) :
    collectValidations turn (order.map fun agent => (agent, answers agent)) =
      ended (state.tally.afterAll (votesOf answers order)).status :=
  (h.fewer all.subset).collect answers (all.nodup_iff.2 nodup)

/-- The votes that a tally has room for count in any order. -/
theorem afterAll_perm {tally : QuorumTally} {votes votes' : List Vote} (same : votes.Perm votes')
    (room : votes.length ≤ tally.pending) : tally.afterAll votes = tally.afterAll votes' := by
  refine QuorumTally.afterAll_congr ?_
  rw [QuorumTally.recorded_eq_take, QuorumTally.recorded_eq_take, List.take_of_length_le room,
    List.take_of_length_le (same.length_eq ▸ room)]
  exact Multiset.coe_eq_coe.2 same

/-- The phase ends in the same way for every order in which the validators complete; and when the first of
them have decided it, it ends so whatever the others answer. -/
theorem validation_order_free (id : TurnId) (generated : ClaimId) (now : Nat) (task : Str) {agents : List AgentId}
    (nodup : agents.Nodup) (proposal : Str) (answers : AgentId → Option Verdict) :
    (∀ order order' : List AgentId, order.Perm (validatorsOf agents) → order'.Perm (validatorsOf agents) →
      validate id generated now task agents proposal answers order =
        validate id generated now task agents proposal answers order') ∧
    ∀ (first rest : List AgentId) (answers' : AgentId → Option Verdict), (first ++ rest).Perm (validatorsOf agents) →
      validate id generated now task agents proposal answers first ≠ .endedBeforeQuorum →
      (∀ agent ∈ first, answers' agent = answers agent) →
      ∀ order : List AgentId, order.Perm (validatorsOf agents) →
        validate id generated now task agents proposal answers' order =
          validate id generated now task agents proposal answers first := by
  have distinct := nodup_validatorsOf nodup
  rcases proposed_waits nodup with ⟨error, refused⟩ | ⟨turn, state, waits, room, collects⟩
  · refine ⟨fun order order' _ _ => ?_, fun first rest answers' _ _ _ order _ => ?_⟩
    · rw [refused, refused]
    · rw [refused, refused]
  have anyOrder (answers : AgentId → Option Verdict) {order order' : List AgentId}
      (all : order.Perm (validatorsOf agents)) (all' : order'.Perm (validatorsOf agents)) :
      validate id generated now task agents proposal answers order =
        validate id generated now task agents proposal answers order' := by
    have fits : (votesOf answers order).length ≤ state.tally.pending :=
      (List.length_filterMap_le _ _).trans (all.length_eq ▸ room)
    have same : (votesOf answers order).Perm (votesOf answers order') := (all.trans all'.symm).filterMap _
    rw [collects, collects, waits.complete distinct all, waits.complete distinct all', afterAll_perm same fits]
  refine ⟨fun order order' all all' => anyOrder answers all all', ?_⟩
  intro first rest answers' all decided agree order all'
  have heard : votesOf answers' first = votesOf answers first :=
    List.filterMap_congr fun agent mem => by rw [agree agent mem]
  have before := (waits.fewer fun agent mem => all.subset (List.mem_append_left rest mem)).collect answers
    ((all.nodup_iff.2 distinct).sublist (List.sublist_append_left first rest))
  have settled : (state.tally.afterAll (votesOf answers first)).status ≠ .open := by
    intro still
    rw [collects, before, still] at decided
    exact decided rfl
  rw [anyOrder answers' all' all, collects, collects, waits.complete distinct all, before]
  have split : votesOf answers' (first ++ rest) = votesOf answers first ++ votesOf answers' rest := by
    rw [← heard]
    exact List.filterMap_append
  rw [split, QuorumTally.afterAll_append, QuorumTally.status_afterAll _ _ settled]

/-! Four agents, of whose validators one answers no and one not at all. -/

def four : List AgentId := [Id.fromU128 1, Id.fromU128 2, Id.fromU128 3, Id.fromU128 4]

def verdictOf (vote : Vote) : Verdict := ⟨vote, .high, ⟨"checked", by decide⟩, none, by decide, no_evidence⟩

def mixed (agent : AgentId) : Option Verdict :=
  if agent = Id.fromU128 2 then some (verdictOf .no)
  else if agent = Id.fromU128 3 then some (verdictOf .yes)
  else none

theorem four_order_free :
    validate (Id.fromU128 9) (Id.fromU128 8) 0 ⟨"task", by decide⟩ four ⟨"answer", by decide⟩ mixed
        [Id.fromU128 2, Id.fromU128 3, Id.fromU128 4] =
      validate (Id.fromU128 9) (Id.fromU128 8) 0 ⟨"task", by decide⟩ four ⟨"answer", by decide⟩ mixed
        [Id.fromU128 4, Id.fromU128 3, Id.fromU128 2] :=
  (validation_order_free _ _ _ _ (by decide) _ _).1 _ _ (by decide) (by decide)

end SupraHarness.Cli
