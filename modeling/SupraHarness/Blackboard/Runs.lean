import SupraHarness.Blackboard.Calls

/-!
# Runs of the blackboard

A run starts from a fresh board and takes any calls, refused or accepted; the
store may be opened again at any point. Every board it reaches is coherent. Such
a board is the board an opener finds, and all its statuses are the statuses of
their tallies, exactly when it holds no open claim without validators.
-/
namespace SupraHarness.Board

open SupraHarness.Types SupraHarness.Store SupraHarness.Slots
open Std (ExtTreeMap)

/-- A call on the board with what the clock, the identifier generator and the store answer it. -/
inductive Op where
  | publish (faults : Faults) (generated : ClaimId) (now : Nat) (turn : TurnId) (proposer : AgentId)
      (validators : List AgentId) (body : Str)
  | publishBlind (faults : Faults) (generated : ClaimId) (now : Nat) (turn : TurnId)
      (proposer : AgentId) (body : Str)
  | vote (faults : Faults) (claim : ClaimId) (voter : AgentId) (verdict : Verdict)
  | voteBlind (faults : Faults) (claim : ClaimId) (voter : AgentId) (verdict : Verdict)
  | reopen

/-- The error of a call, if it is refused. -/
def refusal {α : Type} : Except BlackboardError α → Option BlackboardError
  | .error e => some e
  | .ok _ => none

/-- The board after a call, and the call's error. -/
def step (board : Blackboard) : Op → Blackboard × Option BlackboardError
  | .publish faults generated now turn proposer validators body =>
    let (board, answer) := board.publish faults generated now turn proposer validators body
    (board, refusal answer)
  | .publishBlind faults generated now turn proposer body =>
    let (board, answer) := board.publishBlind faults generated now turn proposer body
    (board, refusal answer)
  | .vote faults claim voter verdict =>
    let (board, answer) := board.vote faults claim voter verdict
    (board, refusal answer)
  | .voteBlind faults claim voter verdict =>
    let (board, answer) := board.voteBlind faults claim voter verdict
    (board, refusal answer)
  | .reopen =>
    match openBoard board.store with
    | .ok reopened => (reopened, none)
    | .error e => (board, some e)

/-- The board of a fresh store. -/
def fresh : Blackboard := ⟨Tables.empty, ∅⟩

def run (ops : List Op) : Blackboard :=
  ops.foldl (fun board op => (step board op).1) fresh

/-- The turn and the proposer of the claim that a call adds if it is accepted. -/
def Op.proposal : Op → Option (TurnId × AgentId)
  | .publish _ _ _ turn proposer _ _ => some (turn, proposer)
  | .publishBlind _ _ _ turn proposer _ => some (turn, proposer)
  | _ => none

/-- A publish that names no validator. -/
def Op.Rosterless : Op → Prop
  | .publish _ _ _ _ _ validators _ => validators = []
  | _ => False

/-! ## One step -/

/-- The board an opener of the store finds. -/
def Blackboard.reread (board : Blackboard) : Blackboard :=
  ⟨board.store, board.claims.map fun _ state => state.reread⟩

/-- What a call can do: refuse, open the store again, add a claim, or fill a slot. -/
theorem step_cases {board board' : Blackboard} {op : Op} {error : Option BlackboardError}
    (hb : Coherent board) (h : step board op = (board', error)) :
    ((∃ e, error = some e) ∧ board' = board) ∨ (error = none ∧ board' = board.reread) ∨
    (error = none ∧ ∃ claim state validators, Published board board' claim state validators ∧
      op.proposal = some (state.turn, state.proposer) ∧ (validators = [] → op.Rosterless)) ∨
    (error = none ∧ ∃ claim voter vote state state', Voted board board' claim voter vote state state') := by
  cases op with
  | publish faults generated now turn proposer validators body =>
    cases hcall : board.publish faults generated now turn proposer validators body with
    | mk called answer =>
      rw [step, hcall] at h
      cases h
      rcases publish_cases hcall with ⟨e, rfl, rfl⟩ | ⟨rfl, -, hpublished⟩
      · exact Or.inl ⟨⟨e, rfl⟩, rfl⟩
      · exact Or.inr (Or.inr (Or.inl ⟨rfl, _, _, _, hpublished, rfl, id⟩))
  | publishBlind faults generated now turn proposer body =>
    cases hcall : board.publishBlind faults generated now turn proposer body with
    | mk called answer =>
      rw [step, hcall] at h
      cases h
      rcases publishBlind_cases hcall with ⟨e, rfl, rfl⟩ | ⟨rfl, hpublished⟩
      · exact Or.inl ⟨⟨e, rfl⟩, rfl⟩
      · exact Or.inr (Or.inr (Or.inl ⟨rfl, _, _, _, hpublished, rfl, by simp⟩))
  | vote faults claim voter verdict =>
    cases hcall : board.vote faults claim voter verdict with
    | mk called answer =>
      rw [step, hcall] at h
      cases h
      rcases vote_cases hcall with ⟨e, rfl, rfl⟩ | ⟨state, state', rfl, -, hvoted⟩
      · exact Or.inl ⟨⟨e, rfl⟩, rfl⟩
      · exact Or.inr (Or.inr (Or.inr ⟨rfl, _, _, _, _, _, hvoted⟩))
  | voteBlind faults claim voter verdict =>
    cases hcall : board.voteBlind faults claim voter verdict with
    | mk called answer =>
      rw [step, hcall] at h
      cases h
      rcases voteBlind_cases hcall with ⟨e, rfl, rfl⟩ | ⟨state, state', rfl, -, hvoted⟩
      · exact Or.inl ⟨⟨e, rfl⟩, rfl⟩
      · exact Or.inr (Or.inr (Or.inr ⟨rfl, _, _, _, _, _, hvoted⟩))
  | reopen =>
    rw [step, openBoard_coherent hb] at h
    cases h
    exact Or.inr (Or.inl ⟨rfl, rfl⟩)

theorem getElem?_reread (board : Blackboard) (claim : ClaimId) :
    board.reread.claims[claim]? = board.claims[claim]?.map ClaimState.reread := by
  rw [Blackboard.reread, ExtTreeMap.getElem?_map]

theorem Stored.reread {store : Tables} {row : ClaimRow} {state : ClaimState} (h : Stored store row state) :
    Stored store row state.reread := by
  refine ⟨h.turn, h.proposer, h.body, h.k, ?_, h.roster, h.votes⟩
  by_cases hopen : state.status = .open
  · have hreread : state.reread.status = state.tally.status := if_pos hopen
    right
    refine ⟨?_, hreread⟩
    rcases h.status with hs | hs
    · rw [hs, hopen]
      rfl
    · exact hs.1
  · have hreread : state.reread.status = state.status := if_neg hopen
    rw [hreread]
    exact h.status

/-- Opening changes no row, and no claim in a way the rows contradict. -/
theorem coherent_reread {board : Blackboard} (h : Coherent board) : Coherent board.reread := by
  constructor
  · exact h.claimKeys
  · intro row hrow
    obtain ⟨state, hstate, hstored⟩ := h.rows row hrow
    exact ⟨state.reread, by rw [getElem?_reread, hstate]; rfl, hstored.reread⟩
  · intro claim state hstate
    rw [getElem?_reread] at hstate
    obtain ⟨old, hold, -⟩ := Option.map_eq_some_iff.mp hstate
    exact h.known claim old hold
  · exact h.validatorOwner
  · exact h.voteOwner
  · intro claim state hstate
    rw [getElem?_reread] at hstate
    obtain ⟨old, hold, rfl⟩ := Option.map_eq_some_iff.mp hstate
    exact (h.sound claim old hold).reread

theorem coherent_fresh : Coherent fresh := by
  constructor
  · exact List.nodup_nil
  · intro row hrow
    cases hrow
  · intro claim state hstate
    simp [fresh] at hstate
  · intro row hrow
    cases hrow
  · intro row hrow
    cases hrow
  · intro claim state hstate
    simp [fresh] at hstate

theorem coherent_step {board board' : Blackboard} {op : Op} {error : Option BlackboardError}
    (hb : Coherent board) (h : step board op = (board', error)) : Coherent board' := by
  rcases step_cases hb h with
    ⟨-, rfl⟩ | ⟨-, rfl⟩ | ⟨-, _, _, _, hpublished, -⟩ | ⟨-, _, _, _, _, _, hvoted⟩
  · exact hb
  · exact coherent_reread hb
  · exact coherent_published hb hpublished
  · exact coherent_voted hb hvoted

/-- Every board a run reaches is coherent. -/
theorem coherent_run (ops : List Op) : Coherent (run ops) :=
  List.foldlRecOn ops _ coherent_fresh fun _ hb _ _ => coherent_step hb Prod.mk.eta.symm

/-! ## Claims without validators -/

/-- No claim is open without validators. -/
def Validated (board : Blackboard) : Prop :=
  ∀ (claim : ClaimId) (state : ClaimState), board.claims[claim]? = some state → ¬ state.Unvalidated

theorem reread_eq_iff {board : Blackboard} (hb : Coherent board) :
    board.reread = board ↔ Validated board := by
  constructor
  · intro heq claim state hstate
    have hreread := getElem?_reread board claim
    rw [heq, hstate, Option.map_some, Option.some.injEq] at hreread
    exact (hb.sound claim state hstate).reread_eq_iff.mp hreread.symm
  · intro hval
    have hclaims : board.reread.claims = board.claims := by
      apply ExtTreeMap.ext_getElem?
      intro claim
      rw [getElem?_reread]
      cases hstate : board.claims[claim]? with
      | none => rfl
      | some state =>
        rw [Option.map_some, (hb.sound claim state hstate).reread_eq_iff.mpr (hval claim state hstate)]
    rw [Blackboard.reread] at hclaims ⊢
    exact congrArg (Blackboard.mk board.store) hclaims

/-- A call adds a claim without validators only by publishing one. -/
theorem validated_step {board board' : Blackboard} {op : Op} {error : Option BlackboardError}
    (hb : Coherent board) (hval : Validated board) (hop : ¬ op.Rosterless)
    (h : step board op = (board', error)) : Validated board' := by
  rcases step_cases hb h with
    ⟨-, rfl⟩ | ⟨-, rfl⟩ | ⟨-, _, _, validators, hpublished, -, hroster⟩ | ⟨-, _, _, _, _, _, hvoted⟩
  · exact hval
  · rw [(reread_eq_iff hb).mpr hval]
    exact hval
  · intro claim state hstate
    rw [hpublished.memory, getElem?_insert_claim] at hstate
    split at hstate
    · cases hstate
      rintro ⟨-, hempty⟩
      rw [hpublished.state_roster, roster, size_empties hpublished.nodup, List.length_eq_zero_iff] at hempty
      exact hop (hroster hempty)
    · exact hval claim state hstate
  · intro claim state hstate
    rw [hvoted.memory, getElem?_insert_claim] at hstate
    split at hstate
    · cases hstate
      rintro ⟨-, hempty⟩
      rw [hvoted.next] at hempty
      simp only [size_insert _ hvoted.slot] at hempty
      exact hval _ _ hvoted.held ⟨hvoted.isOpen, hempty⟩
    · exact hval claim state hstate

theorem validated_run {ops : List Op} (hops : ∀ op ∈ ops, ¬ op.Rosterless) : Validated (run ops) := by
  have hfresh : Coherent fresh ∧ Validated fresh := by
    refine ⟨coherent_fresh, ?_⟩
    intro claim state hstate
    simp [fresh] at hstate
  have hboth : Coherent (run ops) ∧ Validated (run ops) :=
    List.foldlRecOn (motive := fun board => Coherent board ∧ Validated board) ops _ hfresh fun _ hb op hop =>
      ⟨coherent_step hb.1 Prod.mk.eta.symm, validated_step hb.1 hb.2 (hops op hop) Prod.mk.eta.symm⟩
  exact hboth.2

/-- Opening the store again gives the live board exactly when the board holds no open claim without
validators; a run that publishes none never does. -/
theorem reopened_eq_live_iff (ops : List Op) :
    (openBoard (run ops).store = .ok (run ops) ↔
      ∀ (claim : ClaimId) (state : ClaimState), (run ops).claims[claim]? = some state →
        ¬ (state.status = .open ∧ state.validators.size = 0)) ∧
    ((∀ op ∈ ops, ¬ op.Rosterless) → openBoard (run ops).store = .ok (run ops)) := by
  have hb := coherent_run ops
  have hiff : openBoard (run ops).store = .ok (run ops) ↔ Validated (run ops) := by
    rw [openBoard_coherent hb, Except.ok.injEq]
    exact reread_eq_iff hb
  exact ⟨hiff, fun hops => hiff.mpr (validated_run hops)⟩

/-- An ordinary claim whose proposer is its whole cohort. -/
def soloPublish : Op :=
  .publish Faults.none (Id.fromU128 1) 0 (Id.fromU128 2) (Id.fromU128 3) [] ⟨"p", by decide⟩

/-- In memory the claim stands open, with the one vote that is its quorum. -/
theorem solo_live : (run [soloPublish]).outcome (Id.fromU128 1) =
    some ⟨Id.fromU128 1, .open, ordinaryTally 1⟩ := by
  decide

theorem solo_reopened : (openBoard (run [soloPublish]).store).toOption.bind
    (fun board => board.outcome (Id.fromU128 1)) = some ⟨Id.fromU128 1, .reached, ordinaryTally 1⟩ := by
  decide +kernel

theorem reopened_solo_differs : openBoard (run [soloPublish]).store ≠ .ok (run [soloPublish]) := by
  intro h
  have hreopened := solo_reopened
  rw [h, Except.toOption, Option.bind_some, solo_live] at hreopened
  exact absurd hreopened (by decide)

/-! ## Tallies, statuses and errors -/

/-- What is in memory for a claim: every vote counted once and cast by a member of its roster, and
the status that the counts give. -/
structure Accounted (board : Blackboard) (claim : ClaimId) (state : ClaimState) : Prop where
  yes : state.tally.yes = state.implicitYes + (filled state.validators).countP (·.2 = .yes)
  no : state.tally.no = (filled state.validators).countP (·.2 = .no)
  abstain : state.tally.abstain = (filled state.validators).countP (·.2 = .abstain)
  voters : ((filled state.validators).map (·.1)).Nodup
  members : ∀ vote ∈ filled state.validators, ⟨claim, vote.1⟩ ∈ board.store.validators
  bounded : state.tally.yes + state.tally.no + state.tally.abstain ≤ state.k
  reached : state.status = .reached ↔ quorum state.k ≤ state.tally.yes
  unreachable : state.status = .unreachable ↔
    state.tally.yes + (state.validators.size - (filled state.validators).length) < quorum state.k

/-- A vote is a yes, a no or an abstention. -/
theorem length_eq_votes (l : List (AgentId × Vote)) :
    l.length = l.countP (·.2 = .yes) + l.countP (·.2 = .no) + l.countP (·.2 = .abstain) := by
  induction l with
  | nil => rfl
  | cons e l ih =>
    obtain ⟨agent, vote⟩ := e
    cases vote <;> simp [ih] <;> omega

/-- The peers a tally waits for are the members of the roster who have not voted. -/
theorem Sound.pending_eq {state : ClaimState} (h : Sound state) :
    state.tally.pending = state.validators.size - (filled state.validators).length := by
  have hpending := state.tally.pending_eq
  have hvotes := length_eq_votes (filled state.validators)
  have hcohort := h.cohort
  simp only [h.counts, ClaimState.expected, if_true, reduceCtorEq, if_false, h.tallyK] at hpending
  omega

theorem Sound.accounted {board : Blackboard} {claim : ClaimId} {state : ClaimState} (hb : Coherent board)
    (hstate : board.claims[claim]? = some state) (hval : ¬ state.Unvalidated) :
    Accounted board claim state := by
  have h := hb.sound claim state hstate
  have hstatus : state.status = state.tally.status := by
    rcases h.standing with hs | hs
    · exact hs
    · exact absurd hs hval
  have hyes := h.counts .yes
  have hno := h.counts .no
  have habstain := h.counts .abstain
  simp only [QuorumTally.count, ClaimState.expected, if_true, reduceCtorEq, if_false, Nat.zero_add]
    at hyes hno habstain
  refine ⟨hyes, hno, habstain, nodup_keys_filled _, ?_, ?_, ?_, ?_⟩
  · intro vote hvote
    obtain ⟨row, hrow, hclaim⟩ := List.mem_map.mp (hb.known claim state hstate)
    obtain ⟨st, hst, hstored⟩ := hb.rows row hrow
    rw [hclaim, hstate] at hst
    cases hst
    have hkey : vote.1 ∈ state.validators.keys := by
      rw [ExtTreeMap.mem_keys, ExtTreeMap.mem_iff_isSome_getElem?, mem_filled.mp hvote]
      rfl
    obtain ⟨r, hr, hagent⟩ := List.mem_map.mp (hstored.roster.mem_iff.mpr hkey)
    obtain ⟨hmem, hr⟩ := List.mem_filter.mp hr
    have hrow : r = ⟨claim, vote.1⟩ := by
      rw [← hagent, ← hclaim, ← of_decide_eq_true hr]
    exact hrow ▸ hmem
  · rw [← h.tallyK]
    exact state.tally.bounded
  · rw [hstatus, QuorumTally.status_eq_reached_iff, h.tallyK, quorum_le_iff]
  · rw [hstatus, QuorumTally.status_eq_unreachable_iff, h.tallyK, h.pending_eq, ← Nat.not_le,
      ← Nat.not_le, quorum_le_iff]

/-- A claim open without validators has its quorum all the same. -/
theorem Accounted.validated {board : Blackboard} {claim : ClaimId} {state : ClaimState} (hs : Sound state)
    (h : Accounted board claim state) : ¬ state.Unvalidated := by
  rintro ⟨hopen, hempty⟩
  have hreached := hs.status_of_empty hempty
  rw [QuorumTally.status_eq_reached_iff, hs.tallyK, ← quorum_le_iff, ← h.reached, hopen] at hreached
  cases hreached

theorem decided_step {board board' : Blackboard} {op : Op} {error : Option BlackboardError}
    {claim : ClaimId} {state : ClaimState} (hb : Coherent board) (h : step board op = (board', error))
    (hstate : board.claims[claim]? = some state) (hdecided : state.status ≠ .open) :
    board'.claims[claim]? = some state := by
  rcases step_cases hb h with
    ⟨-, rfl⟩ | ⟨-, rfl⟩ | ⟨-, _, _, _, hpublished, -⟩ | ⟨-, _, _, _, _, _, hvoted⟩
  · exact hstate
  · have hreread : state.reread = state := by
      rw [ClaimState.reread, if_neg hdecided]
    rw [getElem?_reread, hstate, Option.map_some, hreread]
  · rw [hpublished.memory, getElem?_insert_claim, if_neg]
    · exact hstate
    · intro heq
      exact hpublished.fresh (heq ▸ hb.known claim state hstate)
  · rw [hvoted.memory, getElem?_insert_claim, if_neg]
    · exact hstate
    · intro heq
      rw [heq, hvoted.held] at hstate
      cases hstate
      exact hdecided hvoted.isOpen

theorem run_append (ops more : List Op) :
    run (ops ++ more) = more.foldl (fun board op => (step board op).1) (run ops) :=
  List.foldl_append

/-- No later call changes a decided claim. -/
theorem decided_run {ops : List Op} {claim : ClaimId} {state : ClaimState} (more : List Op)
    (hstate : (run ops).claims[claim]? = some state) (hdecided : state.status ≠ .open) :
    (run (ops ++ more)).claims[claim]? = some state := by
  rw [run_append]
  have hboth := List.foldlRecOn (motive := fun board => Coherent board ∧ board.claims[claim]? = some state)
    more (fun board op => (step board op).1) ⟨coherent_run ops, hstate⟩ fun _ hb _ _ =>
      ⟨coherent_step hb.1 Prod.mk.eta.symm, decided_step hb.1 Prod.mk.eta.symm hb.2 hdecided⟩
  exact hboth.2

theorem error_unchanged {board board' : Blackboard} {op : Op} {e : BlackboardError} (hb : Coherent board)
    (h : step board op = (board', some e)) : board' = board := by
  rcases step_cases hb h with ⟨-, heq⟩ | ⟨he, -⟩ | ⟨he, -⟩ | ⟨he, -⟩
  · exact heq
  · cases he
  · cases he
  · cases he

/-- Tallies, rosters, statuses, decided claims and refused calls are as they should be exactly when
no claim is open without validators; a run that publishes none keeps it so. -/
theorem board_accounted_iff (ops : List Op) :
    ((∀ (claim : ClaimId) (state : ClaimState), (run ops).claims[claim]? = some state →
        Accounted (run ops) claim state ∧
        ∀ more : List Op, state.status ≠ .open → (run (ops ++ more)).claims[claim]? = some state) ∧
      (∀ op e board', step (run ops) op = (board', some e) → board' = run ops) ↔
      ∀ (claim : ClaimId) (state : ClaimState), (run ops).claims[claim]? = some state →
        ¬ (state.status = .open ∧ state.validators.size = 0)) ∧
    ((∀ op ∈ ops, ¬ op.Rosterless) → ∀ (claim : ClaimId) (state : ClaimState),
      (run ops).claims[claim]? = some state → ¬ (state.status = .open ∧ state.validators.size = 0)) := by
  have hb := coherent_run ops
  constructor
  · constructor
    · rintro ⟨hclaims, -⟩ claim state hstate
      exact (hclaims claim state hstate).1.validated (hb.sound claim state hstate)
    · intro hval
      constructor
      · intro claim state hstate
        refine ⟨Sound.accounted hb hstate (hval claim state hstate), ?_⟩
        intro more hdecided
        exact decided_run more hstate hdecided
      · intro op e board' hstep
        exact error_unchanged hb hstep
  · exact validated_run

theorem solo_status_unaccounted :
    ¬ ∀ (claim : ClaimId) (state : ClaimState), (run [soloPublish]).claims[claim]? = some state →
      (state.status = .reached ↔ quorum state.k ≤ state.tally.yes) := by
  intro h
  have hlive := solo_live
  rw [Blackboard.outcome] at hlive
  obtain ⟨state, hstate, houtcome⟩ := Option.map_eq_some_iff.mp hlive
  have hiff := h _ state hstate
  have hcohort := (coherent_run [soloPublish]).sound _ state hstate
  injection houtcome with _ hstatus htally
  rw [hstatus, ← hcohort.tallyK, htally] at hiff
  exact absurd (hiff.mpr (by decide)) (by decide)

end SupraHarness.Board
