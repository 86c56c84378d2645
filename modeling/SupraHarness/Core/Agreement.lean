import SupraHarness.Core.Turn
import SupraHarness.Lib.Run

/-!
# What a turn seals is what the cohort agreed on

A run of a turn takes responses and finishes in any order, each finish with a
ledger of its own. The invariant ties the turn to the steps it has taken: its
answer is the proposer's first recorded text, the yes votes of its claim are
verdicts on that answer, and nothing has been appended unless it is finished.
-/
namespace SupraHarness.Core

open SupraHarness.Types SupraHarness.Store SupraHarness.Slots SupraHarness.Run
open SupraHarness.Board hiding step run
open SupraHarness.Prompt hiding step
open Std (ExtTreeMap)

variable {blake3 : List UInt8 → ContentHash}

inductive Call (blake3 : List UInt8 → ContentHash) where
  | record (faults : Faults) (answer : PeerAnswer)
  | finish (generated : SegmentId) (ledger : PromptLedger blake3)

def step (turn : Turn) : Call blake3 → Option Turn
  | .record faults answer => some (turn.record faults answer).1
  | .finish generated ledger => (turn.finish generated ledger).map fun done => done.1

/-- The entries by which a step made its ledger longer. -/
def appended : Turn × Call blake3 × Turn → List (Sealed blake3 Segment)
  | (_, .record _ _, _) => []
  | (turn, .finish generated ledger, _) =>
    match turn.finish generated ledger with
    | some (_, ledger', _) => ledger'.entries.toList.drop ledger.entries.toList.length
    | none => []

/-- The text that a step recorded for the proposer. -/
def proposal : Turn × Call blake3 × Turn → Option Str
  | (turn, .record faults answer, _) =>
    if (turn.record faults answer).2.isOk ∧ answer.agent = turn.proposer then answer.text else none
  | (_, .finish _ _, _) => none

/-- A step that recorded the agent's yes while the turn's answer was this text. -/
def Approved (taken : List (Turn × Call blake3 × Turn)) (agent : AgentId) (text : Str) : Prop :=
  ∃ turn faults answer turn' verdict, (turn, Call.record faults answer, turn') ∈ taken ∧
    answer.agent = agent ∧ answer.verdict = some verdict ∧ verdict.vote = .yes ∧
    (∃ step, (turn.record faults answer).2 = .ok step) ∧ turn.answer = some text

theorem Approved.mono {taken : List (Turn × Call blake3 × Turn)} {agent : AgentId} {text : Str}
    (h : Approved taken agent text) (more : List (Turn × Call blake3 × Turn)) :
    Approved (taken ++ more) agent text := by
  obtain ⟨turn, faults, answer, turn', verdict, hmem, hrest⟩ := h
  exact ⟨turn, faults, answer, turn', verdict, List.mem_append_left _ hmem, hrest⟩

/-- The claim of a turn: its cohort, and where its yes votes come from. -/
structure Backed (first : Turn) (answer : Option Str) (taken : List (Turn × Call blake3 × Turn))
    (state : ClaimState) : Prop where
  sound : Sound state
  k : state.k = first.session.length
  proposer : state.proposer = first.proposer
  members : ∀ agent ∈ state.validators, agent ∈ first.session
  solo : first.session.length = 1 → state.proposer ∈ state.validators
  approvals : ∀ agent, state.validators[agent]? = some (some .yes) →
    ∃ text, answer = some text ∧ Approved taken agent text

/-- A turn and the steps that led to it. -/
structure Tracks (first turn : Turn) (taken : List (Turn × Call blake3 × Turn)) : Prop where
  id : turn.id = first.id
  session : turn.session = first.session
  answer : taken.filterMap proposal = turn.answer.toList
  claim : ∃ state, turn.board.claims[turn.claim]? = some state ∧ Backed first turn.answer taken state
  sealedOnce : (taken.flatMap appended).length = if turn.finished then 1 else 0

theorem Tracks.proposer {first turn : Turn} {taken : List (Turn × Call blake3 × Turn)}
    (h : Tracks first turn taken) : turn.proposer = first.proposer := by
  simp only [Turn.proposer, h.session]

/-! ## The start -/

theorem length_validatorsOf {agents : List AgentId} (hagents : agents ≠ []) (hnodup : agents.Nodup) :
    (Turn.validatorsOf (agents.head hagents) agents).length + 1 = agents.length := by
  cases agents with
  | nil => exact absurd rfl hagents
  | cons proposer rest =>
    have hrest : ∀ agent ∈ rest, decide (agent ≠ proposer) = true := by
      intro agent hmem
      have hne : agent ≠ proposer := by
        rintro rfl
        exact (List.nodup_cons.mp hnodup).1 hmem
      exact decide_eq_true hne
    have hvalidators : Turn.validatorsOf proposer (proposer :: rest) = rest := by
      rw [Turn.validatorsOf, List.filter_cons_of_neg (by simp), List.filter_eq_self.mpr hrest]
    rw [List.head_cons, hvalidators, List.length_cons]

theorem published_backed {board board' : Blackboard} {claim : ClaimId} {state : ClaimState}
    {validators : List AgentId} {first : Turn} (h : Published board board' claim state validators)
    (hk : state.k = first.session.length) (hproposer : state.proposer = first.proposer)
    (hmembers : ∀ agent ∈ validators, agent ∈ first.session)
    (hsolo : first.session.length = 1 → state.proposer ∈ validators) :
    board'.claims[claim]? = some state ∧
      Backed first none ([] : List (Turn × Call blake3 × Turn)) state := by
  have hmem : ∀ agent, agent ∈ state.validators ↔ agent ∈ validators := by
    intro agent
    rw [h.state_roster, roster, mem_empties]
  refine ⟨by rw [h.memory, getElem?_insert_claim, if_pos rfl], h.sound, hk, hproposer, ?_, ?_, ?_⟩
  · intro agent hagent
    exact hmembers agent ((hmem agent).mp hagent)
  · intro hone
    exact (hmem _).mpr (hsolo hone)
  · intro agent hslot
    rw [h.state_roster, roster, getElem?_empties] at hslot
    split at hslot
    · cases hslot
    · cases hslot

theorem tracks_start {board : Blackboard} {faults : Faults} {id : TurnId} {generated : ClaimId} {now : Nat}
    {task : Str} {agents : List AgentId} {first : Turn} (hnodup : agents.Nodup)
    (h : Turn.start board faults id generated now task agents = .ok first) :
    first.session = agents ∧ Tracks first first ([] : List (Turn × Call blake3 × Turn)) := by
  unfold Turn.start at h
  split at h
  · cases h
  rename_i hagents
  split at h
  · cases h
  split at h
  · cases h
  simp only at h
  cases hpublish : Turn.publishCandidate board faults id generated now (agents.head hagents) agents with
  | mk board' answer =>
    rw [hpublish] at h
    unfold Turn.publishCandidate at hpublish
    cases answer with
    | error e => cases h
    | ok claim =>
      cases h
      refine ⟨rfl, rfl, rfl, rfl, ?_, rfl⟩
      split at hpublish
      · rename_i hone
        rcases publishBlind_cases hpublish with ⟨e, he, -⟩ | ⟨hclaim, hpublished⟩
        · cases he
        · cases hclaim
          refine ⟨_, published_backed hpublished hone.symm rfl ?_ ?_⟩
          · intro agent hagent
            rw [List.mem_singleton.mp hagent]
            exact List.head_mem hagents
          · intro _
            exact List.mem_cons_self
      · rename_i hone
        rcases publish_cases hpublish with ⟨e, he, -⟩ | ⟨hclaim, -, hpublished⟩
        · cases he
        · cases hclaim
          refine ⟨_, published_backed hpublished (length_validatorsOf hagents hnodup) rfl ?_ ?_⟩
          · intro agent hagent
            exact List.mem_of_mem_filter hagent
          · intro hlength
            exact absurd hlength hone

/-! ## One step -/

/-- A recorded vote is on the answer the turn has. -/
theorem voted_backed {first turn turn' : Turn} {taken : List (Turn × Call blake3 × Turn)} {faults : Faults}
    {answer : PeerAnswer} {verdict : Verdict} {text : Str} {state next : ClaimState}
    (hback : Backed first turn.answer taken state) (hverdict : answer.verdict = some verdict)
    (htext : turn.answer = some text) (hok : ∃ step, (turn.record faults answer).2 = .ok step)
    (h : Voted turn.board turn'.board turn.claim answer.agent verdict.vote state next) :
    Backed first turn.answer (taken ++ [(turn, Call.record faults answer, turn')]) next := by
  have hmem : ∀ agent, agent ∈ next.validators ↔ agent ∈ state.validators := by
    intro agent
    rw [h.next]
    exact mem_insert_of_slot _ h.slot
  have hproposer : next.proposer = state.proposer := by
    rw [h.next]
  refine ⟨?_, ?_, hproposer.trans hback.proposer, ?_, ?_, ?_⟩
  · rw [h.next]
    exact sound_vote hback.sound h.slot h.record
  · rw [h.next]
    exact hback.k
  · intro agent hagent
    exact hback.members agent ((hmem agent).mp hagent)
  · intro hone
    rw [hproposer]
    exact (hmem _).mpr (hback.solo hone)
  · intro agent hyes
    rw [h.next, Slots.getElem?_insert] at hyes
    by_cases hvoter : agent = answer.agent
    · rw [if_pos hvoter, Option.some.injEq, Option.some.injEq] at hyes
      refine ⟨text, htext, turn, faults, answer, turn', verdict, ?_, hvoter.symm, hverdict, hyes, hok, htext⟩
      exact List.mem_append_right _ List.mem_cons_self
    · rw [if_neg hvoter] at hyes
      obtain ⟨t, ht, happroved⟩ := hback.approvals agent hyes
      exact ⟨t, ht, happroved.mono _⟩

theorem Backed.mono {first : Turn} {answer : Option Str} {taken : List (Turn × Call blake3 × Turn)}
    {state : ClaimState} (h : Backed first answer taken state) (more : List (Turn × Call blake3 × Turn)) :
    Backed first answer (taken ++ more) state := by
  refine ⟨h.sound, h.k, h.proposer, h.members, h.solo, ?_⟩
  intro agent hyes
  obtain ⟨text, htext, happroved⟩ := h.approvals agent hyes
  exact ⟨text, htext, happroved.mono more⟩

theorem tracks_record {first turn turn' : Turn} {taken : List (Turn × Call blake3 × Turn)} {faults : Faults}
    {answer : PeerAnswer} {result : Except TurnError Step} (h : Tracks first turn taken)
    (hrecord : turn.record faults answer = (turn', result)) :
    Tracks first turn' (taken ++ [(turn, Call.record faults answer, turn')]) := by
  obtain ⟨state, hstate, hback⟩ := h.claim
  have hsealed : ((taken ++ [(turn, Call.record faults answer, turn')]).flatMap appended).length =
      if turn.finished then 1 else 0 := by
    rw [← h.sealedOnce, List.flatMap_append]
    simp [appended]
  rcases Turn.record_cases hrecord with
    ⟨e, rfl, rfl⟩ | ⟨text, rfl, -, hnone, ⟨step, rfl⟩, rfl⟩ |
    ⟨verdict, text, old, next, hnotext, hverdict, htext, ⟨step, rfl⟩, hvoted, hturn⟩
  · refine ⟨h.id, h.session, ?_, ⟨state, hstate, hback.mono _⟩, hsealed⟩
    rw [List.filterMap_append, h.answer]
    simp [proposal, hrecord, Except.isOk, Except.toBool]
  · refine ⟨h.id, h.session, ?_, ⟨state, hstate, ?_⟩, hsealed⟩
    · rw [List.filterMap_append, h.answer, hnone]
      simp [proposal, hrecord, Except.isOk, Except.toBool]
    · refine ⟨hback.sound, hback.k, hback.proposer, hback.members, hback.solo, ?_⟩
      intro agent hyes
      obtain ⟨_, hsome, -⟩ := hback.approvals agent hyes
      rw [hnone] at hsome
      cases hsome
  · have hold : old = state := Option.some.inj (hvoted.held.symm.trans hstate)
    subst hold
    have hok : ∃ step, (turn.record faults answer).2 = .ok step := ⟨step, by rw [hrecord]⟩
    have hnext : turn'.board.claims[turn.claim]? = some next := by
      rw [hvoted.memory, getElem?_insert_claim, if_pos rfl]
    have hanswer : turn'.answer = turn.answer := by rw [hturn]
    have hclaim : turn'.claim = turn.claim := by rw [hturn]
    have hfinished : turn'.finished = turn.finished := by rw [hturn]
    refine ⟨by rw [hturn, ← h.id], by rw [hturn, ← h.session], ?_, ⟨next, ?_, ?_⟩, ?_⟩
    · rw [List.filterMap_append, h.answer, hanswer]
      simp [proposal, hnotext]
    · rw [hclaim]
      exact hnext
    · rw [hanswer]
      exact voted_backed hback hverdict htext hok hvoted
    · rw [hfinished]
      exact hsealed

/-- A finished turn has appended one entry, and appends no other. -/
theorem tracks_finish {first turn turn' : Turn} {taken : List (Turn × Call blake3 × Turn)}
    {generated : SegmentId} {ledger ledger' : PromptLedger blake3} {result : Except TurnError SegmentId}
    (h : Tracks first turn taken) (hfinish : turn.finish generated ledger = some (turn', ledger', result)) :
    Tracks first turn' (taken ++ [(turn, Call.finish generated ledger, turn')]) := by
  obtain ⟨state, hstate, hback⟩ := h.claim
  have hanswer : (taken ++ [(turn, Call.finish generated ledger, turn')]).filterMap proposal =
      turn.answer.toList := by
    rw [List.filterMap_append, h.answer]
    simp [proposal]
  have hsealed : ((taken ++ [(turn, Call.finish generated ledger, turn')]).flatMap appended).length =
      (if turn.finished then 1 else 0) + (ledger'.entries.toList.drop ledger.entries.toList.length).length := by
    rw [← h.sealedOnce, List.flatMap_append, List.length_append]
    simp [appended, hfinish]
  rcases Turn.finish_cases hfinish with ⟨e, rfl, rfl, rfl⟩ |
    ⟨text, segment, rfl, hfinished, -, -, -, -, -, hentries, hturn⟩
  · refine ⟨h.id, h.session, hanswer, ⟨state, hstate, hback.mono _⟩, ?_⟩
    rw [hsealed]
    simp
  · have hclaim : turn'.claim = turn.claim := by rw [hturn]
    have hboard : turn'.board = turn.board := by rw [hturn]
    have hsame : turn'.answer = turn.answer := by rw [hturn]
    have hdone : turn'.finished = true := by rw [hturn]
    refine ⟨by rw [hturn, ← h.id], by rw [hturn, ← h.session], ?_, ⟨state, ?_, ?_⟩, ?_⟩
    · rw [hsame]
      exact hanswer
    · rw [hboard, hclaim]
      exact hstate
    · rw [hsame]
      exact hback.mono _
    · rw [hsealed, hfinished, hdone, hentries]
      simp

theorem tracks_step {first turn turn' : Turn} {taken : List (Turn × Call blake3 × Turn)} {call : Call blake3}
    (h : Tracks first turn taken) (hstep : step turn call = some turn') :
    Tracks first turn' (taken ++ [(turn, call, turn')]) := by
  cases call with
  | record faults answer =>
    cases hrecord : turn.record faults answer with
    | mk called result =>
      rw [step, hrecord] at hstep
      cases hstep
      exact tracks_record h hrecord
  | finish generated ledger =>
    obtain ⟨⟨called, ledger', result⟩, hfinish, rfl⟩ := Option.map_eq_some_iff.mp hstep
    exact tracks_finish h hfinish

/-! ## The agreed answer -/

/-- A reached claim has its quorum: the proposer's implicit vote and the recorded ones. -/
theorem Backed.quorum {first : Turn} {answer : Option Str} {taken : List (Turn × Call blake3 × Turn)}
    {state : ClaimState} {text : Str} (h : Backed first answer taken state) (hreached : state.status = .reached)
    (htext : answer = some text) :
    ∃ approvers : List AgentId, approvers.Nodup ∧ (∀ agent ∈ approvers, agent ∈ first.session) ∧
      quorum first.session.length ≤ approvers.length ∧
      ∀ agent ∈ approvers, (agent = first.proposer ∧ first.session.length ≠ 1) ∨ Approved taken agent text := by
  have hstatus : state.tally.status = .reached := by
    rcases h.sound.standing with hs | hs
    · exact hs.symm.trans hreached
    · rw [hs.1] at hreached
      cases hreached
  have hyes := h.sound.counts .yes
  rw [QuorumTally.status_eq_reached_iff, ← quorum_le_iff, h.sound.tallyK, h.k] at hstatus
  let voters := ((filled state.validators).filter fun e => e.2 = .yes).map (·.1)
  have hvoters : ∀ agent ∈ voters, state.validators[agent]? = some (some .yes) := by
    intro agent hagent
    obtain ⟨e, he, rfl⟩ := List.mem_map.mp hagent
    obtain ⟨hmem, hvote⟩ := List.mem_filter.mp he
    rw [← of_decide_eq_true hvote]
    exact mem_filled.mp hmem
  have hnodup : voters.Nodup :=
    (nodup_keys_filled state.validators).sublist (List.filter_sublist.map _)
  have hmembers : ∀ agent ∈ voters, agent ∈ state.validators := by
    intro agent hagent
    rw [ExtTreeMap.mem_iff_isSome_getElem?, hvoters agent hagent]
    rfl
  have hlength : voters.length = (filled state.validators).countP (·.2 = .yes) := by
    rw [List.length_map, List.countP_eq_length_filter]
  have happroved : ∀ agent ∈ voters, Approved taken agent text := by
    intro agent hagent
    obtain ⟨t, ht, happroved⟩ := h.approvals agent (hvoters agent hagent)
    rw [htext] at ht
    exact Option.some.inj ht ▸ happroved
  simp only [QuorumTally.count, ClaimState.expected, if_true, ← hlength] at hyes
  by_cases hsolo : state.proposer ∈ state.validators
  · rw [ClaimState.implicitYes, if_pos hsolo] at hyes
    refine ⟨voters, hnodup, ?_, by omega, ?_⟩
    · intro agent hagent
      exact h.members agent (hmembers agent hagent)
    · intro agent hagent
      exact Or.inr (happroved agent hagent)
  · rw [ClaimState.implicitYes, if_neg hsolo] at hyes
    refine ⟨state.proposer :: voters, ?_, ?_, by rw [List.length_cons]; omega, ?_⟩
    · exact List.nodup_cons.mpr ⟨fun hmem => hsolo (hmembers _ hmem), hnodup⟩
    · intro agent hagent
      rcases List.mem_cons.mp hagent with rfl | hagent
      · rw [h.proposer]
        exact List.head_mem first.fielded
      · exact h.members agent (hmembers agent hagent)
    · intro agent hagent
      rcases List.mem_cons.mp hagent with rfl | hagent
      · exact Or.inl ⟨h.proposer, fun hone => hsolo (h.solo hone)⟩
      · exact Or.inr (happroved agent hagent)

/-- Over a whole run the finishes append at most one segment. A finish that appends seals the
proposer's first recorded text, which a quorum of the cohort has approved; a refused response leaves
the turn as it was. -/
theorem turn_seals_agreed_answer {board : Blackboard} {faults : Faults} {id : TurnId} {generated : ClaimId}
    {now : Nat} {task : Str} {agents : List AgentId} {first : Turn} (hagents : agents.Nodup)
    (hstart : Turn.start board faults id generated now task agents = .ok first) (calls : List (Call blake3)) :
    ((trace step first calls).flatMap appended).length ≤ 1 ∧
    ∀ turn, run step first calls = some turn →
      (∀ faults answer turn' e, turn.record faults answer = (turn', .error e) → turn' = turn) ∧
      ∀ (generated : SegmentId) (ledger : PromptLedger blake3) (turn' : Turn) (ledger' : PromptLedger blake3)
        (result : Except TurnError SegmentId), turn.finish generated ledger = some (turn', ledger', result) →
        ledger' = ledger ∨ ∃ text segment,
          ledger'.entries.toList = ledger.entries.toList ++ [Sealed.seal blake3 ledger.nextSeq segment] ∧
          segment.kind = .turn first.id .assistant ∧ segment.blocks.toList = [.text text] ∧
          ((trace step first calls).filterMap proposal).head? = some text ∧
          ∃ approvers : List AgentId, approvers.Nodup ∧ (∀ agent ∈ approvers, agent ∈ agents) ∧
            quorum agents.length ≤ approvers.length ∧
            ∀ agent ∈ approvers, (agent = first.proposer ∧ agents.length ≠ 1) ∨
              Approved (trace step first calls) agent text := by
  obtain ⟨rfl, htracks⟩ :
      first.session = agents ∧ Tracks first first ([] : List (Turn × Call blake3 × Turn)) :=
    tracks_start hagents hstart
  obtain ⟨last, hlast, hrun⟩ := run_history (fun _ _ _ _ h hstep => tracks_step h hstep) calls htracks
  rw [List.nil_append] at hlast
  constructor
  · rw [hlast.sealedOnce]
    split <;> omega
  · intro turn hturn
    obtain rfl := hrun turn hturn
    constructor
    · intro faults answer turn' e hrecord
      rcases Turn.record_cases hrecord with ⟨_, -, heq⟩ | ⟨_, _, _, _, ⟨_, hok⟩, _⟩ |
        ⟨_, _, _, _, _, _, _, ⟨_, hok⟩, _⟩
      · exact heq
      · cases hok
      · cases hok
    · intro generated ledger turn' ledger' result hfinish
      rcases Turn.finish_cases hfinish with ⟨_, -, -, heq⟩ |
        ⟨text, segment, -, -, hreached, htext, -, hkind, hblocks, hentries, -⟩
      · exact Or.inl heq
      · right
        obtain ⟨state, hstate, hback⟩ := hlast.claim
        have hstatus : state.status = .reached := by
          rw [Turn.status, Blackboard.outcome, hstate] at hreached
          simpa using hreached
        refine ⟨text, segment, hentries, ?_, hblocks, ?_, hback.quorum hstatus htext⟩
        · rw [hkind, hlast.id]
        · rw [hlast.answer, htext]
          rfl

/-- Three peers, a proposal, one approval and two finishes. -/
def threePeers : List AgentId := [Id.fromU128 1, Id.fromU128 2, Id.fromU128 3]

def approval : Verdict :=
  ⟨.yes, .medium, ⟨"independently checked", by decide⟩, none, by decide, no_evidence⟩

def threePeersStart : Except TurnError Turn :=
  Turn.start Board.fresh Faults.none (Id.fromU128 4) (Id.fromU128 5) 0 ⟨"the fix", by decide⟩ threePeers

def threePeersCalls : List (Call zeroDigest) :=
  [.record Faults.none ⟨Id.fromU128 1, some ⟨"fix it", by decide⟩, none⟩,
    .record Faults.none ⟨Id.fromU128 2, none, some approval⟩,
    .finish (Id.fromU128 6) PromptLedger.new, .finish (Id.fromU128 7) PromptLedger.new]

theorem threePeers_start : threePeersStart.isOk = true := by
  decide

theorem turn_seals_agreed_answer_three_peers : ∃ first, threePeersStart = .ok first ∧
    ((trace step first threePeersCalls).flatMap appended).length ≤ 1 := by
  cases h : threePeersStart with
  | error e =>
    have hstart := threePeers_start
    rw [h] at hstart
    cases hstart
  | ok first =>
    have hagents : threePeers.Nodup := by decide
    exact ⟨first, rfl, (turn_seals_agreed_answer hagents h threePeersCalls).1⟩

/-- The first of the two finishes appends, and the second is refused. -/
example : threePeersStart.toOption.map (fun first => (trace step first threePeersCalls).map
    fun taken => (appended taken).length) = some [0, 0, 1, 0] := by
  decide

end SupraHarness.Core
