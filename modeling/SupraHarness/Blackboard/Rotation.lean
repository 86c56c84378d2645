import Mathlib.Data.List.MinMax
import Mathlib.Data.Prod.Lex
import Mathlib.Data.String.Basic
import SupraHarness.Blackboard.Runs

/-!
# Rotating the proposer

The next proposer of a turn is counted afresh from the claims on the board: the candidate who has proposed least. As
long as every claim of the turn comes from the candidate named for it, no candidate is ahead of another by more than
one, whatever else is called in between. The counts are those of one turn, and every turn starts them anew.
-/
namespace SupraHarness.Board

open SupraHarness.Types SupraHarness.Store SupraHarness.Slots
open Std (ExtTreeMap)

/-! ## The next proposer -/

/-- The claims whose turn and proposer pass a test. -/
def Blackboard.count (board : Blackboard) (p : TurnId → AgentId → Bool) : Nat :=
  countEntries (fun state => p state.turn state.proposer) board.claims

/-- The claims of a turn that an agent has proposed. -/
def Blackboard.proposals (board : Blackboard) (turn : TurnId) (agent : AgentId) : Nat :=
  board.count fun t a => decide (t = turn ∧ a = agent)

/-- The claims that an agent has proposed in any turn. -/
def Blackboard.allProposals (board : Blackboard) (agent : AgentId) : Nat := board.count fun _ a => decide (a = agent)

/-- One claim of the counting loop: only candidates have a count. -/
def addProposal (turn : TurnId) (counts : ExtTreeMap AgentId Nat) (state : ClaimState) : ExtTreeMap AgentId Nat :=
  if state.turn = turn then counts.modify state.proposer (· + 1) else counts

/-- Fewer proposals first, ties by the text of the identifier. -/
def rotationKey (entry : AgentId × Nat) : Nat ×ₗ String := toLex (entry.2, entry.1.text)

/-- The candidate who has proposed least within `turn`, or `none` for an empty candidate list. -/
def Blackboard.nextProposer (board : Blackboard) (turn : TurnId) (candidates : List AgentId) : Option AgentId :=
  let counts : ExtTreeMap AgentId Nat := candidates.foldl (fun counts candidate => counts.insertIfNew candidate 0) ∅
  let counts := (board.claims.toList.map Prod.snd).foldl (addProposal turn) counts
  (counts.toList.argmin rotationKey).map Prod.fst

theorem getElem?_candidates (candidates : List AgentId) (counts : ExtTreeMap AgentId Nat) (agent : AgentId)
    (zero : ∀ n ∈ counts[agent]?, n = 0) :
    (candidates.foldl (fun counts candidate => counts.insertIfNew candidate 0) counts)[agent]? =
      if agent ∈ candidates then some 0 else counts[agent]? := by
  induction candidates generalizing counts with
  | nil => simp
  | cons candidate candidates ih =>
    have first : (counts.insertIfNew candidate 0)[agent]? = if agent = candidate then some 0 else counts[agent]? := by
      rw [ExtTreeMap.getElem?_insertIfNew]
      by_cases h : agent = candidate
      · subst h
        rw [if_pos rfl]
        cases held : counts[agent]? with
        | none =>
          have absent : agent ∉ counts := by
            rw [ExtTreeMap.mem_iff_isSome_getElem?, held]
            decide
          rw [if_pos ⟨Std.ReflCmp.compare_self, absent⟩]
        | some n =>
          have present : agent ∈ counts := by
            rw [ExtTreeMap.mem_iff_isSome_getElem?, held]
            rfl
          rw [if_neg fun both => both.2 present, zero n held]
      · rw [if_neg h, if_neg fun both => h (Std.LawfulEqCmp.eq_of_compare both.1).symm]
    rw [List.foldl_cons, ih, first]
    · by_cases h : agent = candidate
      · simp [h]
      · simp [h]
    · rw [first]
      intro n hn
      by_cases h : agent = candidate
      · rw [if_pos h] at hn
        exact (Option.some.inj hn).symm
      · rw [if_neg h] at hn
        exact zero n hn

theorem getElem?_addProposal (turn : TurnId) (counts : ExtTreeMap AgentId Nat) (state : ClaimState) (agent : AgentId) :
    (addProposal turn counts state)[agent]? =
      counts[agent]?.map (· + if state.turn = turn ∧ state.proposer = agent then 1 else 0) := by
  rw [addProposal]
  by_cases hturn : state.turn = turn
  · rw [if_pos hturn, ExtTreeMap.getElem?_modify]
    by_cases hagent : state.proposer = agent
    · subst hagent
      rw [if_pos Std.ReflCmp.compare_self]
      simp [hturn]
    · rw [if_neg fun same => hagent (Std.LawfulEqCmp.eq_of_compare same)]
      simp [hagent]
  · simp [hturn]

theorem getElem?_addProposals (turn : TurnId) (states : List ClaimState) (counts : ExtTreeMap AgentId Nat)
    (agent : AgentId) :
    (states.foldl (addProposal turn) counts)[agent]? =
      counts[agent]?.map (· + states.countP fun state => decide (state.turn = turn ∧ state.proposer = agent)) := by
  induction states generalizing counts with
  | nil => simp
  | cons state states ih =>
    rw [List.foldl_cons, ih, getElem?_addProposal, Option.map_map, List.countP_cons]
    congr 1
    funext n
    simp only [Function.comp_apply, decide_eq_true_eq]
    omega

/-- The proposer named is a candidate, and no candidate has proposed less. -/
theorem nextProposer_spec {board : Blackboard} {turn : TurnId} {candidates : List AgentId} {agent : AgentId}
    (h : board.nextProposer turn candidates = some agent) :
    agent ∈ candidates ∧ ∀ other ∈ candidates, board.proposals turn agent ≤ board.proposals turn other := by
  rw [Blackboard.nextProposer] at h
  generalize hcounts : (board.claims.toList.map Prod.snd).foldl (addProposal turn) _ = counts at h
  have counted (other : AgentId) :
      counts[other]? = if other ∈ candidates then some (board.proposals turn other) else none := by
    rw [← hcounts, getElem?_addProposals, getElem?_candidates _ _ _ (by simp), List.countP_map]
    by_cases hother : other ∈ candidates
    · rw [if_pos hother, if_pos hother, Option.map_some, Nat.zero_add]
      rfl
    · rw [if_neg hother, if_neg hother]
      simp
  obtain ⟨⟨first, count⟩, least, rfl⟩ := Option.map_eq_some_iff.1 h
  have entry := counted first
  rw [ExtTreeMap.mem_toList_iff_getElem?_eq_some.1 (List.argmin_mem least)] at entry
  by_cases hfirst : first ∈ candidates
  · rw [if_pos hfirst, Option.some_inj] at entry
    refine ⟨hfirst, fun other hother => ?_⟩
    have mem : (other, board.proposals turn other) ∈ counts.toList := by
      rw [ExtTreeMap.mem_toList_iff_getElem?_eq_some, counted, if_pos hother]
    have le := List.le_of_mem_argmin mem least
    rw [rotationKey, rotationKey, Prod.Lex.toLex_le_toLex] at le
    dsimp only at le ⊢
    omega
  · rw [if_neg hfirst] at entry
    cases entry

/-! ## Runs -/

/-- A call leaves the claims of every kind as many as they were, or adds the claim it proposes. -/
theorem count_step {board board' : Blackboard} {op : Op} {error : Option BlackboardError} (hb : Coherent board)
    (h : step board op = (board', error)) :
    (∀ p, board'.count p = board.count p) ∨
      ∃ turn agent, op.proposal = some (turn, agent) ∧
        ∀ p, board'.count p = board.count p + if p turn agent then 1 else 0 := by
  rcases step_cases hb h with
    ⟨-, rfl⟩ | ⟨-, rfl⟩ | ⟨-, _, state, _, published, proposal, -⟩ | ⟨-, _, _, _, _, state', voted⟩
  · exact .inl fun _ => rfl
  · exact .inl fun p => countEntries_map _ _ _ fun _ _ => rfl
  · refine .inr ⟨_, _, proposal, fun p => ?_⟩
    rw [Blackboard.count, published.memory, countEntries_new, Blackboard.count]
    by_contra held
    obtain ⟨old, hold⟩ := Option.ne_none_iff_exists'.1 held
    exact published.fresh (hb.known _ _ hold)
  · refine .inl fun p => ?_
    rw [Blackboard.count, voted.memory, countEntries_replace _ voted.held, Blackboard.count]
    rw [voted.next]

/-- Every claim of the turn comes from the candidate that is named for it. -/
def Rotates (turn : TurnId) (candidates : List AgentId) : Blackboard → List Op → Prop
  | _, [] => True
  | board, op :: ops =>
    (∀ agent, op.proposal = some (turn, agent) → board.nextProposer turn candidates = some agent) ∧
      Rotates turn candidates (step board op).1 ops

/-- No candidate is ahead of another by more than one. -/
def Balanced (candidates : List AgentId) (count : AgentId → Nat) : Prop :=
  ∀ a ∈ candidates, ∀ b ∈ candidates, count a ≤ count b + 1

/-- Whoever has least may take one more. -/
theorem Balanced.bump {candidates : List AgentId} {count count' : AgentId → Nat} {agent : AgentId}
    (h : Balanced candidates count) (least : ∀ other ∈ candidates, count agent ≤ count other)
    (next : ∀ other, count' other = count other + if agent = other then 1 else 0) : Balanced candidates count' := by
  intro a ha b hb
  have hab := h a ha b hb
  have hmin := least b hb
  rw [next, next]
  by_cases hagent : agent = a
  · subst hagent
    rw [if_pos rfl]
    split <;> omega
  · rw [if_neg hagent]
    split <;> omega

theorem balanced_step {board board' : Blackboard} {op : Op} {error : Option BlackboardError} {turn : TurnId}
    {candidates : List AgentId} (hb : Coherent board) (h : step board op = (board', error))
    (named : ∀ agent, op.proposal = some (turn, agent) → board.nextProposer turn candidates = some agent)
    (balanced : Balanced candidates (board.proposals turn)) : Balanced candidates (board'.proposals turn) := by
  rcases count_step hb h with same | ⟨turn', agent, proposal, counts⟩
  · have unchanged : board'.proposals turn = board.proposals turn := by
      funext other
      exact same fun t a => decide (t = turn ∧ a = other)
    rwa [unchanged]
  · have next (other : AgentId) :
        board'.proposals turn other = board.proposals turn other + if turn' = turn ∧ agent = other then 1 else 0 := by
      rw [Blackboard.proposals, counts, Blackboard.proposals]
      simp only [decide_eq_true_eq]
    by_cases hturn : turn' = turn
    · subst hturn
      obtain ⟨-, least⟩ := nextProposer_spec (named agent proposal)
      refine balanced.bump least fun other => ?_
      rw [next]
      simp
    · have unchanged : board'.proposals turn = board.proposals turn := by
        funext other
        rw [next, if_neg fun both => hturn both.1, Nat.add_zero]
      rwa [unchanged]

theorem balanced_fresh (turn : TurnId) (candidates : List AgentId) : Balanced candidates (fresh.proposals turn) := by
  intro a _ b _
  exact Nat.zero_le _

theorem balanced_from {turn : TurnId} {candidates : List AgentId} {board : Blackboard} (ops : List Op)
    (hb : Coherent board) (balanced : Balanced candidates (board.proposals turn))
    (h : Rotates turn candidates board ops) :
    Balanced candidates ((ops.foldl (fun board op => (step board op).1) board).proposals turn) := by
  induction ops generalizing board with
  | nil => exact balanced
  | cons op ops ih =>
    obtain ⟨named, rest⟩ := h
    exact ih (coherent_step hb Prod.mk.eta.symm) (balanced_step hb Prod.mk.eta.symm named balanced) rest

theorem Rotates.front {turn : TurnId} {candidates : List AgentId} {board : Blackboard} {front back : List Op}
    (h : Rotates turn candidates board (front ++ back)) : Rotates turn candidates board front := by
  induction front generalizing board with
  | nil => trivial
  | cons op front ih => exact ⟨h.1, ih h.2⟩

/-- While the candidates of a turn take it in rotation, none is ahead of another by more than one. -/
theorem rotation_is_balanced (turn : TurnId) (candidates : List AgentId) (ops : List Op)
    (h : Rotates turn candidates fresh ops) :
    ∀ front, front <+: ops → ∀ a ∈ candidates, ∀ b ∈ candidates,
      (run front).proposals turn a ≤ (run front).proposals turn b + 1 := by
  rintro front ⟨back, rfl⟩
  exact balanced_from front coherent_fresh (balanced_fresh turn candidates) h.front

theorem p_fits : "p".utf8ByteSize < 2 ^ 63 := by decide

/-- A claim of a turn, by one of two peers. -/
def peerClaim (claim turn proposer validator : Nat) : Op :=
  .publish Faults.none (Id.fromU128 claim) 0 (Id.fromU128 turn) (Id.fromU128 proposer) [Id.fromU128 validator]
    ⟨"p", p_fits⟩

/-- Two peers take one turn in rotation. -/
def oneTurn : List Op := [peerClaim 1 10 20 21, peerClaim 2 10 21 20, peerClaim 3 10 20 21]

theorem rotation_is_balanced_three :
    (run oneTurn).proposals (Id.fromU128 10) (Id.fromU128 20) = 2 ∧
      (run oneTurn).proposals (Id.fromU128 10) (Id.fromU128 20) ≤
        (run oneTurn).proposals (Id.fromU128 10) (Id.fromU128 21) + 1 := by
  have rotates : Rotates (Id.fromU128 10) [Id.fromU128 20, Id.fromU128 21] fresh oneTurn := by
    refine ⟨?_, ?_, ?_, trivial⟩
    all_goals
      rintro agent proposal
      cases proposal
      decide +kernel
  exact ⟨by decide +kernel, rotation_is_balanced _ _ _ rotates _ (List.prefix_refl _) _ (by decide) _ (by decide)⟩

/-- The first of two peers publishes a claim in each of two turns. -/
def twoTurns : List Op := [peerClaim 1 10 20 21, peerClaim 2 11 20 21]

/-- A turn starts the counts anew, so that the first peer is named in each of the two. -/
theorem rotation_starts_anew :
    (∀ turn, Rotates turn [Id.fromU128 20, Id.fromU128 21] fresh twoTurns) ∧
      (run twoTurns).allProposals (Id.fromU128 20) = 2 ∧ (run twoTurns).allProposals (Id.fromU128 21) = 0 := by
  refine ⟨fun turn => ⟨?_, ?_, trivial⟩, by decide +kernel, by decide +kernel⟩
  all_goals
    rintro agent proposal
    obtain ⟨rfl, rfl⟩ := Prod.mk.inj (Option.some.inj proposal)
    decide +kernel

end SupraHarness.Board
