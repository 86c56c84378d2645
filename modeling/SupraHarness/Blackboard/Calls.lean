import SupraHarness.Blackboard.Coherence

/-!
# What the calls of a blackboard do

A refused call leaves memory and store as they were. An accepted publish adds
one claim with its rows; an accepted vote fills one slot of one open claim, adds
one row and closes the claim's row when the vote decides it. Both keep the board
coherent with its store.
-/
namespace SupraHarness.Board

open SupraHarness.Types SupraHarness.Store SupraHarness.Slots
open Std (ExtTreeMap)

/-! ## Publishing -/

/-- One claim more, in memory and in the store. -/
structure Published (board board' : Blackboard) (claim : ClaimId) (state : ClaimState)
    (validators : List AgentId) : Prop where
  fresh : claim ∉ board.store.claims.map (·.claim)
  nodup : validators.Nodup
  state_roster : state.validators = roster validators
  state_open : state.status = .open
  rows : ∃ row : ClaimRow, row.claim = claim ∧ row.turn = state.turn ∧ row.proposer = state.proposer ∧
    row.body = state.body ∧ row.k = state.k ∧ row.status = "open" ∧
    board'.store = ⟨board.store.claims ++ [row],
      board.store.validators ++ validators.map fun agent => ⟨claim, agent⟩, board.store.votes⟩
  memory : board'.claims = board.claims.insert claim state
  sound : Sound state

theorem insertTransaction_error {board : Blackboard} {faults : Faults} {claim : ClaimId} {turn : TurnId}
    {proposer : AgentId} {body : Str} {k now : Nat} {validators : List AgentId} {store : Tables}
    {e : BlackboardError}
    (h : board.insertTransaction faults claim turn proposer body k now validators = (store, .error e)) :
    store = board.store :=
  withTransaction_error h

theorem insertTransaction_ok {board : Blackboard} {faults : Faults} {claim : ClaimId} {turn : TurnId}
    {proposer : AgentId} {body : Str} {k now : Nat} {validators : List AgentId} {store : Tables}
    (h : board.insertTransaction faults claim turn proposer body k now validators = (store, .ok ())) :
    insertClaim faults board.store claim turn proposer body k now "open" validators = .ok store := by
  have hwork := withTransaction_ok h
  cases hinsert : insertClaim faults board.store claim turn proposer body k now "open" validators with
  | error e =>
    rw [hinsert] at hwork
    cases hwork
  | ok tables =>
    rw [hinsert] at hwork
    cases hwork
    rfl

theorem i64OfUsize_of_le {k : Nat} (h : i64OfUsize k ≤ 80) : i64OfUsize k = k := by
  unfold i64OfUsize at h ⊢
  split
  · rfl
  · rw [if_neg (by assumption)] at h
    omega

/-- A publish is refused and changes nothing, or adds an ordinary claim. -/
theorem publish_cases {board board' : Blackboard} {faults : Faults} {generated : ClaimId} {now : Nat}
    {turn : TurnId} {proposer : AgentId} {validators : List AgentId} {body : Str}
    {answer : Except BlackboardError ClaimId}
    (h : board.publish faults generated now turn proposer validators body = (board', answer)) :
    (∃ e, answer = .error e ∧ board' = board) ∨
    (answer = .ok generated ∧ proposer ∉ validators ∧
      Published board board' generated ⟨turn, proposer, body, validators.length + 1,
        ordinaryTally (validators.length + 1), .open, roster validators⟩ validators) := by
  simp only [Blackboard.publish] at h
  by_cases hmem : proposer ∈ validators
  · rw [if_pos hmem] at h
    cases h
    exact Or.inl ⟨_, rfl, rfl⟩
  · rw [if_neg hmem] at h
    by_cases hbody : maxBodyBytes < body.len
    · rw [if_pos hbody] at h
      cases h
      exact Or.inl ⟨_, rfl, rfl⟩
    · rw [if_neg hbody] at h
      cases htx : board.insertTransaction faults generated turn proposer body (validators.length + 1)
          now validators with
      | mk store result =>
        rw [htx] at h
        cases result with
        | error e =>
          cases h
          rw [insertTransaction_error htx]
          exact Or.inl ⟨e, rfl, rfl⟩
        | ok u =>
          cases h
          obtain ⟨hstore, hfresh, -, hk, hnodup⟩ := insertClaim_ok (insertTransaction_ok htx)
          obtain ⟨htallyK, hcount⟩ := ordinaryTally_spec (k := validators.length + 1) (by omega)
          refine Or.inr ⟨rfl, hmem, hfresh, hnodup, rfl, rfl, ?_, rfl, ?_⟩
          · exact ⟨_, rfl, rfl, rfl, rfl, i64OfUsize_of_le hk, rfl, hstore⟩
          · apply sound_published 1 hnodup (if_neg hmem).symm rfl (by omega) htallyK hcount
            · intro hp
              exact absurd hp hmem
            · intro hne
              exact ordinaryTally_open (by omega)

/-- A blind publish is refused and changes nothing, or adds a claim only its proposer validates. -/
theorem publishBlind_cases {board board' : Blackboard} {faults : Faults} {generated : ClaimId} {now : Nat}
    {turn : TurnId} {proposer : AgentId} {body : Str} {answer : Except BlackboardError ClaimId}
    (h : board.publishBlind faults generated now turn proposer body = (board', answer)) :
    (∃ e, answer = .error e ∧ board' = board) ∨
    (answer = .ok generated ∧
      Published board board' generated
        ⟨turn, proposer, body, 1, QuorumTally.new 1, .open, roster [proposer]⟩ [proposer]) := by
  simp only [Blackboard.publishBlind] at h
  by_cases hbody : maxBodyBytes < body.len
  · rw [if_pos hbody] at h
    cases h
    exact Or.inl ⟨_, rfl, rfl⟩
  · rw [if_neg hbody] at h
    cases htx : board.insertTransaction faults generated turn proposer body 1 now [proposer] with
    | mk store result =>
      rw [htx] at h
      cases result with
      | error e =>
        cases h
        rw [insertTransaction_error htx]
        exact Or.inl ⟨e, rfl, rfl⟩
      | ok u =>
        cases h
        obtain ⟨hstore, hfresh, -, hk, hnodup⟩ := insertClaim_ok (insertTransaction_ok htx)
        refine Or.inr ⟨rfl, hfresh, hnodup, rfl, rfl, ?_, rfl, ?_⟩
        · exact ⟨_, rfl, rfl, rfl, rfl, i64OfUsize_of_le hk, rfl, hstore⟩
        · apply sound_published 0 hnodup (if_pos List.mem_cons_self).symm rfl
            (Nat.le_refl 1) rfl
          · intro vote
            simp
          · intro _
            rfl
          · intro _
            decide

/-- Rows of other claims do not change what is stored for a claim. -/
theorem stored_of_filters {store store' : Tables} {row : ClaimRow} {state : ClaimState}
    (h : Stored store row state)
    (hvalidators : store'.validators.filter (fun r => r.claim = row.claim) =
      store.validators.filter fun r => r.claim = row.claim)
    (hvotes : store'.votes.filter (fun r => r.claim = row.claim) =
      store.votes.filter fun r => r.claim = row.claim) : Stored store' row state := by
  refine ⟨h.turn, h.proposer, h.body, h.k, h.status, ?_, ?_⟩
  · rw [hvalidators]
    exact h.roster
  · rw [hvotes]
    exact h.votes

/-- The new rows belong to the new claim, so every other claim finds the rows it had. -/
theorem coherent_published {board board' : Blackboard} {claim : ClaimId} {state : ClaimState}
    {validators : List AgentId} (hb : Coherent board)
    (h : Published board board' claim state validators) : Coherent board' := by
  obtain ⟨row, rfl, hturn, hproposer, hbody, hk, hstatus, hstore⟩ := h.rows
  have hkeys : board'.store.claims.map (·.claim) = board.store.claims.map (·.claim) ++ [row.claim] := by
    simp [hstore]
  have hget : ∀ claim : ClaimId, board'.claims[claim]? =
      if claim = row.claim then some state else board.claims[claim]? := by
    intro claim
    rw [h.memory, getElem?_insert_claim]
  have hnoValidators : board.store.validators.filter (fun r => r.claim = row.claim) = [] := by
    rw [List.filter_eq_nil_iff]
    intro r hr hclaim
    exact h.fresh (of_decide_eq_true hclaim ▸ hb.validatorOwner r hr)
  have hnoVotes : board.store.votes.filter (fun r => r.claim = row.claim) = [] := by
    rw [List.filter_eq_nil_iff]
    intro r hr hclaim
    exact h.fresh (of_decide_eq_true hclaim ▸ hb.voteOwner r hr)
  constructor
  · rw [hkeys]
    apply List.nodup_append.mpr
    refine ⟨hb.claimKeys, List.nodup_singleton _, ?_⟩
    intro a ha b hb' hab
    rw [List.mem_singleton.mp hb'] at hab
    exact h.fresh (hab ▸ ha)
  · intro r hr
    rw [hstore] at hr
    rcases List.mem_append.mp hr with hr | hr
    · have hne : r.claim ≠ row.claim := by
        intro heq
        exact h.fresh (heq ▸ List.mem_map_of_mem hr)
      obtain ⟨st, hst, hstored⟩ := hb.rows r hr
      refine ⟨st, by rw [hget, if_neg hne, hst], stored_of_filters hstored ?_ ?_⟩
      · rw [hstore, List.filter_append]
        have hnone : (validators.map fun agent => (⟨row.claim, agent⟩ : ValidatorRow)).filter
            (fun r' => r'.claim = r.claim) = [] := by
          rw [List.filter_eq_nil_iff]
          intro r' hr' hclaim
          obtain ⟨agent, -, rfl⟩ := List.mem_map.mp hr'
          exact hne (of_decide_eq_true hclaim).symm
        rw [hnone, List.append_nil]
      · rw [hstore]
    · rw [List.mem_singleton.mp hr]
      refine ⟨state, by rw [hget, if_pos rfl], hturn, hproposer, hbody, hk, ?_, ?_, ?_⟩
      · left
        rw [hstatus, h.state_open]
        rfl
      · rw [hstore, List.filter_append, hnoValidators, List.nil_append, h.state_roster]
        have hall : (validators.map fun agent => (⟨row.claim, agent⟩ : ValidatorRow)).filter
            (fun r => r.claim = row.claim) = validators.map fun agent => ⟨row.claim, agent⟩ := by
          rw [List.filter_eq_self]
          intro r hr
          obtain ⟨agent, -, rfl⟩ := List.mem_map.mp hr
          exact decide_eq_true rfl
        rw [hall, List.map_map]
        have hagents : validators.map ((fun r : ValidatorRow => r.agent) ∘ fun agent => ⟨row.claim, agent⟩) =
            validators := List.map_id _
        rw [hagents]
        exact (keys_empties h.nodup).symm
      · rw [hstore, hnoVotes, h.state_roster, roster, filled_empties]
        exact List.Perm.refl _
  · intro claim st hst
    rw [hkeys, List.mem_append]
    rw [hget] at hst
    by_cases heq : claim = row.claim
    · exact Or.inr (List.mem_singleton.mpr heq)
    · rw [if_neg heq] at hst
      exact Or.inl (hb.known claim st hst)
  · intro r hr
    rw [hkeys, List.mem_append]
    rw [hstore] at hr
    rcases List.mem_append.mp hr with hr | hr
    · exact Or.inl (hb.validatorOwner r hr)
    · obtain ⟨agent, -, rfl⟩ := List.mem_map.mp hr
      exact Or.inr List.mem_cons_self
  · intro r hr
    rw [hkeys, List.mem_append]
    rw [hstore] at hr
    exact Or.inl (hb.voteOwner r hr)
  · intro claim st hst
    rw [hget] at hst
    by_cases heq : claim = row.claim
    · rw [if_pos heq, Option.some.injEq] at hst
      exact hst ▸ h.sound
    · rw [if_neg heq] at hst
      exact hb.sound claim st hst

/-! ## Voting -/

/-- One slot of one open claim filled, in memory and in the store. -/
structure Voted (board board' : Blackboard) (claim : ClaimId) (voter : AgentId) (vote : Vote)
    (state state' : ClaimState) : Prop where
  held : board.claims[claim]? = some state
  isOpen : state.status = .open
  slot : state.validators[voter]? = some none
  record : state.tally.record vote = .ok (state'.tally, state'.status)
  next : state' = { state with
    validators := state.validators.insert voter (some vote), tally := state'.tally, status := state'.status }
  rows : ∃ row : VoteRow, row.claim = claim ∧ row.voter = voter ∧ row.vote = voteText vote ∧
    board'.store = ⟨board.store.claims.map (closeRow claim (statusText state'.status)),
      board.store.validators, board.store.votes ++ [row]⟩
  memory : board'.claims = board.claims.insert claim state'

theorem closeRow_open (claim : ClaimId) : closeRow claim (statusText .open) = id := by
  funext row
  unfold closeRow
  split
  · rename_i h
    cases row
    simp_all [statusText]
  · rfl

theorem voteTransaction_ok {board : Blackboard} {faults : Faults} {claim : ClaimId} {voter : AgentId}
    {verdict : Verdict} {outcome : QuorumStatus} {store : Tables}
    (h : board.voteTransaction faults claim voter verdict outcome = (store, .ok ())) :
    ∃ row : VoteRow, row.claim = claim ∧ row.voter = voter ∧ row.vote = voteText verdict.vote ∧
      store = ⟨board.store.claims.map (closeRow claim (statusText outcome)), board.store.validators,
        board.store.votes ++ [row]⟩ := by
  have hwork := withTransaction_ok h
  refine ⟨⟨claim, voter, voteText verdict.vote, verdict.reason, verdict.evidenceRef⟩, rfl, rfl, rfl, ?_⟩
  cases hinsert : insertVote faults 0 board.store claim voter verdict with
  | error e =>
    rw [hinsert] at hwork
    cases hwork
  | ok tables =>
    have htables := insertVote_ok hinsert
    rw [hinsert] at hwork
    simp only at hwork
    by_cases hopen : outcome = .open
    · rw [if_pos hopen] at hwork
      cases hwork
      rw [hopen, closeRow_open, List.map_id, htables]
    · rw [if_neg hopen] at hwork
      cases hupdate : updateStatus faults 1 tables claim (statusText outcome) with
      | error e =>
        rw [hupdate] at hwork
        cases hwork
      | ok done =>
        obtain ⟨tables', changed⟩ := done
        have htables' := updateStatus_ok hupdate
        rw [hupdate] at hwork
        cases changed with
        | false => cases hwork
        | true =>
          cases hwork
          rw [htables', htables]

/-- A vote on an open claim is refused and changes nothing, or fills the voter's empty slot. -/
theorem recordVote_cases {board board' : Blackboard} {faults : Faults} {claim : ClaimId}
    {voter : AgentId} {verdict : Verdict} {state : ClaimState} {answer : Except BlackboardError Blackboard.Outcome}
    (hheld : board.claims[claim]? = some state) (hopen : state.status = .open)
    (h : board.recordVote faults claim voter verdict state = (board', answer)) :
    (∃ e, answer = .error e ∧ board' = board) ∨
    ∃ state', answer = .ok ⟨claim, state'.status, state'.tally⟩ ∧
      Voted board board' claim voter verdict.vote state state' := by
  simp only [Blackboard.recordVote] at h
  cases hslot : state.validators[voter]? with
  | none =>
    rw [hslot] at h
    cases h
    exact Or.inl ⟨_, rfl, rfl⟩
  | some slot =>
    cases slot with
    | some v =>
      rw [hslot] at h
      cases h
      exact Or.inl ⟨_, rfl, rfl⟩
    | none =>
      cases hrecord : state.tally.record verdict.vote with
      | error e =>
        rw [hslot, hrecord] at h
        cases h
        exact Or.inl ⟨_, rfl, rfl⟩
      | ok done =>
        obtain ⟨tally, outcome⟩ := done
        rw [hslot, hrecord] at h
        simp only at h
        cases htx : board.voteTransaction faults claim voter verdict outcome with
        | mk store result =>
          rw [htx] at h
          cases result with
          | error e =>
            cases h
            have hstore : store = board.store := withTransaction_error htx
            rw [hstore]
            exact Or.inl ⟨e, rfl, rfl⟩
          | ok u =>
            cases h
            right
            exact ⟨_, rfl, hheld, hopen, hslot, hrecord, rfl, voteTransaction_ok htx, rfl⟩

theorem vote_cases {board board' : Blackboard} {faults : Faults} {claim : ClaimId} {voter : AgentId}
    {verdict : Verdict} {answer : Except BlackboardError Blackboard.Outcome}
    (h : board.vote faults claim voter verdict = (board', answer)) :
    (∃ e, answer = .error e ∧ board' = board) ∨
    ∃ state state', answer = .ok ⟨claim, state'.status, state'.tally⟩ ∧ voter ≠ state.proposer ∧
      Voted board board' claim voter verdict.vote state state' := by
  simp only [Blackboard.vote] at h
  cases hheld : board.claims[claim]? with
  | none =>
    rw [hheld] at h
    cases h
    exact Or.inl ⟨_, rfl, rfl⟩
  | some state =>
    rw [hheld] at h
    simp only at h
    by_cases hopen : state.status = .open
    · rw [if_neg (not_not_intro hopen)] at h
      by_cases hproposer : voter = state.proposer
      · rw [if_pos hproposer] at h
        cases h
        exact Or.inl ⟨_, rfl, rfl⟩
      · rw [if_neg hproposer] at h
        rcases recordVote_cases hheld hopen h with herror | ⟨state', hanswer, hvoted⟩
        · exact Or.inl herror
        · exact Or.inr ⟨state, state', hanswer, hproposer, hvoted⟩
    · rw [if_pos hopen] at h
      cases h
      exact Or.inl ⟨_, rfl, rfl⟩

theorem voteBlind_cases {board board' : Blackboard} {faults : Faults} {claim : ClaimId} {voter : AgentId}
    {verdict : Verdict} {answer : Except BlackboardError Blackboard.Outcome}
    (h : board.voteBlind faults claim voter verdict = (board', answer)) :
    (∃ e, answer = .error e ∧ board' = board) ∨
    ∃ state state', answer = .ok ⟨claim, state'.status, state'.tally⟩ ∧ voter = state.proposer ∧
      Voted board board' claim voter verdict.vote state state' := by
  simp only [Blackboard.voteBlind] at h
  cases hheld : board.claims[claim]? with
  | none =>
    rw [hheld] at h
    cases h
    exact Or.inl ⟨_, rfl, rfl⟩
  | some state =>
    rw [hheld] at h
    simp only at h
    by_cases hopen : state.status = .open
    · rw [if_neg (not_not_intro hopen)] at h
      by_cases hblind : state.proposer ≠ voter ∨ state.k ≠ 1 ∨ state.validators.size ≠ 1
      · rw [if_pos hblind] at h
        cases h
        exact Or.inl ⟨_, rfl, rfl⟩
      · rw [if_neg hblind] at h
        have hproposer : voter = state.proposer := by
          by_contra hne
          exact hblind (Or.inl fun heq => hne heq.symm)
        rcases recordVote_cases hheld hopen h with herror | ⟨state', hanswer, hvoted⟩
        · exact Or.inl herror
        · exact Or.inr ⟨state, state', hanswer, hproposer, hvoted⟩
    · rw [if_pos hopen] at h
      cases h
      exact Or.inl ⟨_, rfl, rfl⟩

@[simp] theorem closeRow_claim (claim : ClaimId) (status : String) (row : ClaimRow) :
    (closeRow claim status row).claim = row.claim := by
  unfold closeRow
  split <;> rfl

theorem keys_insert_of_slot {validators : ExtTreeMap AgentId (Option Vote)} {voter : AgentId}
    {slot : Option Vote} (v : Option Vote) (h : validators[voter]? = some slot) :
    (validators.insert voter v).keys.Perm validators.keys := by
  apply (List.perm_ext_iff_of_nodup ExtTreeMap.nodup_keys ExtTreeMap.nodup_keys).mpr
  intro agent
  rw [ExtTreeMap.mem_keys, ExtTreeMap.mem_keys, mem_insert_of_slot v h]

/-- The vote's rows belong to the claim voted on, and hold what its memory holds. -/
theorem coherent_voted {board board' : Blackboard} {claim : ClaimId} {voter : AgentId} {vote : Vote}
    {state state' : ClaimState} (hb : Coherent board)
    (h : Voted board board' claim voter vote state state') : Coherent board' := by
  obtain ⟨row, hclaim, hvoter, hvote, hstore⟩ := h.rows
  have hkeys : board'.store.claims.map (·.claim) = board.store.claims.map (·.claim) := by
    rw [hstore, List.map_map]
    apply List.map_congr_left
    intro r _
    exact closeRow_claim ..
  have hget : ∀ other : ClaimId, board'.claims[other]? =
      if other = claim then some state' else board.claims[other]? := by
    intro other
    rw [h.memory, getElem?_insert_claim]
  constructor
  · rw [hkeys]
    exact hb.claimKeys
  · intro r hr
    rw [hstore] at hr
    obtain ⟨old, hold, rfl⟩ := List.mem_map.mp hr
    obtain ⟨st, hst, hstored⟩ := hb.rows old hold
    rw [closeRow_claim, hget]
    by_cases heq : old.claim = claim
    · rw [if_pos heq]
      rw [heq, h.held] at hst
      cases hst
      have hrowOpen : old.status = "open" := by
        rcases hstored.status with hs | hs
        · rw [hs, h.isOpen]
          rfl
        · exact hs.1
      have hclosed : closeRow claim (statusText state'.status) old =
          { old with status := statusText state'.status } := by
        rw [closeRow, if_pos ⟨heq, hrowOpen⟩]
      refine ⟨state', rfl, ?_⟩
      rw [hclosed, h.next]
      refine ⟨hstored.turn, hstored.proposer, hstored.body, hstored.k, Or.inl rfl, ?_, ?_⟩
      · rw [hstore]
        exact hstored.roster.trans (keys_insert_of_slot _ h.slot).symm
      · have hfilled := (filled_insert (v := vote) h.slot).map fun e => (e.1, voteText e.2)
        rw [hstore]
        simp only [List.filter_append, List.map_append]
        have hsingle : ([row].filter fun r => r.claim = old.claim).map (fun r => (r.voter, r.vote)) =
            [(voter, voteText vote)] := by
          simp [hclaim, heq, hvoter, hvote]
        rw [hsingle]
        apply List.Perm.trans _ hfilled.symm
        apply (List.perm_append_comm).trans
        exact hstored.votes.cons _
    · have hclosed : closeRow claim (statusText state'.status) old = old := by
        rw [closeRow, if_neg fun hc => heq hc.1]
      rw [if_neg heq, hclosed]
      refine ⟨st, hst, stored_of_filters hstored ?_ ?_⟩
      · rw [hstore]
      · rw [hstore, List.filter_append]
        have hnone : [row].filter (fun r => r.claim = old.claim) = [] := by
          rw [List.filter_eq_nil_iff]
          intro r hr' hc
          rw [List.mem_singleton.mp hr', hclaim] at hc
          exact heq (of_decide_eq_true hc).symm
        rw [hnone, List.append_nil]
  · intro other st hst
    rw [hkeys]
    rw [hget] at hst
    by_cases heq : other = claim
    · exact heq ▸ hb.known claim state h.held
    · rw [if_neg heq] at hst
      exact hb.known other st hst
  · intro r hr
    rw [hkeys]
    rw [hstore] at hr
    exact hb.validatorOwner r hr
  · intro r hr
    rw [hkeys]
    rw [hstore] at hr
    rcases List.mem_append.mp hr with hr | hr
    · exact hb.voteOwner r hr
    · rw [List.mem_singleton.mp hr, hclaim]
      exact hb.known claim state h.held
  · intro other st hst
    rw [hget] at hst
    by_cases heq : other = claim
    · rw [if_pos heq, Option.some.injEq] at hst
      rw [← hst, h.next]
      exact sound_vote (hb.sound claim state h.held) h.slot h.record
    · rw [if_neg heq] at hst
      exact hb.sound other st hst

end SupraHarness.Board
