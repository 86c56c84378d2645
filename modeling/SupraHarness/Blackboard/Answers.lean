import SupraHarness.Blackboard.Runs
import SupraHarness.Types.Tally

/-!
# Votes on a store that answers

On a coherent board, a member who has not voted on an open claim can vote: no constraint of the tables is
in the way of a verdict, and no other call can have closed the claim.
-/
namespace SupraHarness.Board

open SupraHarness.Types SupraHarness.Store SupraHarness.Slots
open Std (ExtTreeMap)

/-- A character takes a byte or more. -/
theorem length_le_utf8ByteSize (chars : List Char) : chars.length ≤ (String.ofList chars).utf8ByteSize := by
  induction chars with
  | nil => exact Nat.zero_le _
  | cons c chars ih =>
    rw [String.ofList_cons, String.utf8ByteSize_append, String.utf8ByteSize_singleton, List.length_cons]
    have := c.utf8Size_pos
    omega

theorem sqlLength_le (s : Str) : sqlLength s ≤ s.len := by
  have shorter : sqlLength s ≤ s.text.toList.length := (List.takeWhile_prefix _).length_le
  have bytes := length_le_utf8ByteSize s.text.toList
  rw [String.ofList_toList] at bytes
  exact shorter.trans bytes

variable {board : Blackboard} {claim : ClaimId} {voter : AgentId} {state : ClaimState} {verdict : Verdict}

/-- An empty slot has no row. -/
theorem unrecorded (coherent : Coherent board) (held : board.claims[claim]? = some state)
    (slot : state.validators[voter]? = some none) :
    (claim, voter) ∉ board.store.votes.map fun row => (row.claim, row.voter) := by
  intro mem
  obtain ⟨vote, inside, same⟩ := List.mem_map.1 mem
  obtain ⟨row, mem, own⟩ := List.mem_map.1 (coherent.known claim state held)
  obtain ⟨found, here, stored⟩ := coherent.rows row mem
  rw [own, held] at here
  cases here
  obtain ⟨rfl, rfl⟩ := Prod.mk.inj same
  have listed : (vote.voter, vote.vote) ∈
      (board.store.votes.filter fun r => r.claim = row.claim).map fun r => (r.voter, r.vote) :=
    List.mem_map.2 ⟨vote, List.mem_filter.2 ⟨inside, by simp [own]⟩, rfl⟩
  obtain ⟨⟨agent, cast⟩, filled, eq⟩ := List.mem_map.1 (stored.votes.mem_iff.1 listed)
  cases (Prod.mk.inj eq).1
  rw [mem_filled, slot] at filled
  cases filled

theorem insertVote_none (n : Nat) {tables : Tables}
    (free : (claim, voter) ∉ tables.votes.map fun row => (row.claim, row.voter)) :
    ∃ tables', insertVote Faults.none n tables claim voter verdict = .ok tables' := by
  have vote : voteText verdict.vote ∈ ["yes", "no", "abstain"] := by
    cases verdict.vote <;> decide
  have reason : sqlLength verdict.reason ≤ 140 := (sqlLength_le _).trans verdict.reasonFits
  have evidence : (verdict.evidenceRef.all fun e => sqlLength e ≤ 40) = true := by
    cases ref : verdict.evidenceRef with
    | none => rfl
    | some reference =>
      exact decide_eq_true ((sqlLength_le reference).trans (verdict.evidenceFits reference ref))
  let row : VoteRow := ⟨claim, voter, voteText verdict.vote, verdict.reason, verdict.evidenceRef⟩
  refine ⟨{ tables with votes := tables.votes ++ [row] }, ?_⟩
  rw [insertVote, insertVoteRow]
  simp only [check, unique, vote, reason, evidence, free, decide_true, if_true, not_false_eq_true]
  rfl

theorem updateStatus_none (coherent : Coherent board) (held : board.claims[claim]? = some state)
    (isOpen : state.status = .open) {tables : Tables} (same : tables.claims = board.store.claims)
    (n : Nat) (status : QuorumStatus) :
    ∃ tables', updateStatus Faults.none n tables claim (statusText status) = .ok (tables', true) := by
  have text : statusText status ∈ ["open", "reached", "unreachable"] := by
    cases status <;> decide
  obtain ⟨row, mem, own⟩ := List.mem_map.1 (coherent.known claim state held)
  obtain ⟨found, here, stored⟩ := coherent.rows row mem
  rw [own, held] at here
  cases here
  have rowOpen : row.status = "open" := by
    rcases stored.status with eq | both
    · rw [eq, isOpen]
      rfl
    · exact both.1
  have once : board.store.claims.countP (fun row => row.claim = claim ∧ row.status = "open") = 1 := by
    have same (row' : ClaimRow) (mem' : row' ∈ board.store.claims) :
        decide (row'.claim = claim ∧ row'.status = "open") = true ↔ (row'.claim == claim) = true := by
      rw [decide_eq_true_iff, beq_iff_eq]
      refine ⟨And.left, fun eq => ⟨eq, ?_⟩⟩
      rw [List.inj_on_of_nodup_map coherent.claimKeys mem' mem (eq.trans own.symm), rowOpen]
    calc board.store.claims.countP (fun row => row.claim = claim ∧ row.status = "open")
        = board.store.claims.countP (fun row => row.claim == claim) := List.countP_congr same
      _ = (board.store.claims.map (·.claim)).count claim := by
          rw [List.count, List.countP_map]
          rfl
      _ = 1 := List.count_eq_one_of_mem coherent.claimKeys (coherent.known claim state held)
  refine ⟨{ tables with claims := tables.claims.map (closeRow claim (statusText status)) }, ?_⟩
  rw [updateStatus, same]
  simp only [once, text, or_true, check, decide_true, List.all_eq_true, implies_true, if_true]
  rfl

/-- A tally waits for a member who has not voted. -/
theorem pending_of_slot (sound : Sound state) (slot : state.validators[voter]? = some none) :
    state.tally.pending ≠ 0 := by
  have shorter : (filled (state.validators.insert voter (some .yes))).length ≤
      (state.validators.insert voter (some Vote.yes)).size := length_filled_le _
  rw [(filled_insert slot).length_eq, List.length_cons, size_insert _ slot] at shorter
  rw [sound.pending_eq]
  omega

theorem voteTransaction_succeeds (coherent : Coherent board) (held : board.claims[claim]? = some state)
    (isOpen : state.status = .open) (slot : state.validators[voter]? = some none) (outcome : QuorumStatus) :
    ∃ tables, board.voteTransaction Faults.none claim voter verdict outcome = (tables, .ok ()) := by
  obtain ⟨tables, inserted⟩ := @insertVote_none claim voter verdict 0 board.store (unrecorded coherent held slot)
  have same : tables.claims = board.store.claims := by rw [insertVote_ok inserted]
  have begins : Faults.none.onBegin = none := rfl
  have commits : Faults.none.onCommit = none := rfl
  unfold Blackboard.voteTransaction withTransaction
  by_cases stays : outcome = .open
  · exact ⟨tables, by simp only [begins, commits, inserted, if_pos stays]⟩
  · obtain ⟨tables', updated⟩ := updateStatus_none coherent held isOpen same 1 outcome
    exact ⟨tables', by simp only [begins, commits, inserted, if_neg stays, updated]⟩

/-- The claim after one more vote. -/
def ClaimState.voted (state : ClaimState) (voter : AgentId) (vote : Vote) : ClaimState :=
  { state with
    validators := state.validators.insert voter (some vote)
    tally := state.tally.after vote
    status := (state.tally.after vote).status }

/-- A member who has not voted on an open claim can vote, whatever the verdict. -/
theorem recordVote_succeeds (coherent : Coherent board) (held : board.claims[claim]? = some state)
    (isOpen : state.status = .open) (slot : state.validators[voter]? = some none) :
    ∃ tables, board.recordVote Faults.none claim voter verdict state =
      (⟨tables, board.claims.insert claim (state.voted voter verdict.vote)⟩,
        .ok ⟨claim, (state.tally.after verdict.vote).status, state.tally.after verdict.vote⟩) := by
  have room := pending_of_slot (coherent.sound claim state held) slot
  obtain ⟨tables, done⟩ := @voteTransaction_succeeds board claim voter state verdict coherent held isOpen slot
    (state.tally.after verdict.vote).status
  refine ⟨tables, ?_⟩
  rw [Blackboard.recordVote, slot]
  dsimp only
  rw [QuorumTally.record_of_room room]
  dsimp only
  rw [done]
  rfl

theorem vote_succeeds (coherent : Coherent board) (held : board.claims[claim]? = some state)
    (isOpen : state.status = .open) (slot : state.validators[voter]? = some none) (apart : voter ≠ state.proposer) :
    ∃ tables, board.vote Faults.none claim voter verdict =
      (⟨tables, board.claims.insert claim (state.voted voter verdict.vote)⟩,
        .ok ⟨claim, (state.tally.after verdict.vote).status, state.tally.after verdict.vote⟩) := by
  rw [Blackboard.vote, held]
  dsimp only
  rw [if_neg (not_not_intro isOpen), if_neg apart]
  exact recordVote_succeeds coherent held isOpen slot

theorem voteBlind_succeeds (coherent : Coherent board) (held : board.claims[claim]? = some state)
    (isOpen : state.status = .open) (slot : state.validators[voter]? = some none) (own : state.proposer = voter)
    (single : state.k = 1 ∧ state.validators.size = 1) :
    ∃ tables, board.voteBlind Faults.none claim voter verdict =
      (⟨tables, board.claims.insert claim (state.voted voter verdict.vote)⟩,
        .ok ⟨claim, (state.tally.after verdict.vote).status, state.tally.after verdict.vote⟩) := by
  rw [Blackboard.voteBlind, held]
  dsimp only
  rw [if_neg (not_not_intro isOpen), if_neg (by simp [own, single])]
  exact recordVote_succeeds coherent held isOpen slot

end SupraHarness.Board
