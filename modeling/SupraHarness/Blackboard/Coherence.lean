import SupraHarness.Blackboard.Board

/-!
# Memory and rows of the blackboard

Every reachable board is coherent: each claim in memory has its row, its roster
and its votes in the store and no others, and its tally is what the implicit and
the recorded votes add up to. The one thing that the rows do not determine is
the status of a claim that was published without validators: it stands open in
memory, and reading the rows back finds that it has reached its quorum.
-/
namespace SupraHarness.Board

open SupraHarness.Types SupraHarness.Store SupraHarness.Slots
open Std (ExtTreeMap)

/-! ## Claims in memory -/

/-- The vote the proposer casts by publishing; a blind claim has none. -/
def ClaimState.implicitYes (state : ClaimState) : Nat :=
  if state.proposer ∈ state.validators then 0 else 1

/-- What the tally counts for one kind of vote. -/
def ClaimState.expected (state : ClaimState) (vote : Vote) : Nat :=
  (if vote = .yes then state.implicitYes else 0) + (filled state.validators).countP (·.2 = vote)

/-- A claim in memory: its tally, its cohort and its status. -/
structure Sound (state : ClaimState) : Prop where
  tallyK : state.tally.k = state.k
  counts : ∀ vote, state.tally.count vote = state.expected vote
  cohort : state.k = state.validators.size + state.implicitYes
  blind : state.proposer ∈ state.validators → state.validators.size = 1
  atLeastOne : 1 ≤ state.k
  standing : state.status = state.tally.status ∨ (state.status = .open ∧ state.validators.size = 0)

/-- The claim an opener finds in the rows of this one. -/
def ClaimState.reread (state : ClaimState) : ClaimState :=
  { state with status := if state.status = .open then state.tally.status else state.status }

/-- An open claim without validators. -/
def ClaimState.Unvalidated (state : ClaimState) : Prop :=
  state.status = .open ∧ state.validators.size = 0

/-- A claim without validators has its quorum from the start: the proposer's own vote. -/
theorem Sound.status_of_empty {state : ClaimState} (h : Sound state) (hempty : state.validators.size = 0) :
    state.tally.status = .reached := by
  have hne : state.proposer ∉ state.validators := by
    intro hmem
    have hone := h.blind hmem
    omega
  have hone : state.implicitYes = 1 := if_neg hne
  have hyes := h.counts .yes
  have hk := h.cohort
  simp only [QuorumTally.count, ClaimState.expected, if_true, hone] at hyes
  rw [QuorumTally.status_eq_reached_iff, h.tallyK]
  omega

/-- What is read back is the claim itself, unless it is open without validators. -/
theorem Sound.reread_eq_iff {state : ClaimState} (h : Sound state) :
    state.reread = state ↔ ¬ state.Unvalidated := by
  constructor
  · rintro heq ⟨hopen, hempty⟩
    have hstatus := congrArg ClaimState.status heq
    simp only [ClaimState.reread, hopen, if_true, h.status_of_empty hempty] at hstatus
    cases hstatus
  · intro hval
    rcases h.standing with hs | hs
    · apply ClaimState.ext <;> try rfl
      simp [ClaimState.reread, hs]
    · exact absurd hs hval

theorem Sound.reread {state : ClaimState} (h : Sound state) : Sound state.reread := by
  refine ⟨h.tallyK, h.counts, h.cohort, h.blind, h.atLeastOne, ?_⟩
  by_cases hopen : state.status = .open
  · exact Or.inl (if_pos hopen)
  · left
    rcases h.standing with hs | hs
    · rw [ClaimState.reread]
      simp only [if_neg hopen]
      exact hs
    · exact absurd hs.1 hopen

theorem ordinaryTally_spec {k : Nat} (hk : 1 ≤ k) :
    (ordinaryTally k).k = k ∧
      ∀ vote, (ordinaryTally k).count vote = if vote = .yes then 1 else 0 := by
  have hpending : (QuorumTally.new k).pending ≠ 0 := by
    simp only [QuorumTally.new, QuorumTally.pending]
    omega
  rw [ordinaryTally, QuorumTally.record, dif_neg hpending]
  constructor
  · rfl
  · intro vote
    rw [QuorumTally.count_add, QuorumTally.count_new, Nat.zero_add]

/-- A claim as `publish` and `publish_blind` put it in memory. -/
theorem sound_published {turn : TurnId} {proposer : AgentId} {body : Str} {k : Nat} (implicit : Nat)
    {tally : QuorumTally} {validators : List AgentId} (hnodup : validators.Nodup)
    (himplicit : implicit = if proposer ∈ validators then 0 else 1)
    (hk : k = validators.length + implicit) (hpos : 1 ≤ k) (htally : tally.k = k)
    (hcount : ∀ vote, tally.count vote = if vote = .yes then implicit else 0)
    (hblind : proposer ∈ validators → validators.length = 1)
    (hopen : validators.length ≠ 0 → tally.status = .open) :
    Sound ⟨turn, proposer, body, k, tally, .open, roster validators⟩ := by
  have hsize : (roster validators).size = validators.length := size_empties hnodup
  have himp : ClaimState.implicitYes ⟨turn, proposer, body, k, tally, .open, roster validators⟩ =
      implicit := by
    rw [himplicit, ClaimState.implicitYes]
    simp only [roster, mem_empties]
  refine ⟨htally, ?_, ?_, ?_, hpos, ?_⟩
  · intro vote
    rw [hcount, ClaimState.expected, himp]
    simp [roster, filled_empties]
  · rw [himp]
    simpa [hsize] using hk
  · intro hmem
    rw [hsize]
    exact hblind (mem_empties.mp hmem)
  · by_cases hempty : validators.length = 0
    · right
      exact ⟨rfl, by rw [hsize, hempty]⟩
    · exact Or.inl (hopen hempty).symm

/-- An ordinary claim with validators is open when it is published. -/
theorem ordinaryTally_open {k : Nat} (hk : 2 ≤ k) : (ordinaryTally k).status = .open := by
  obtain ⟨hk', hcount⟩ := ordinaryTally_spec (show 1 ≤ k by omega)
  have hyes := hcount .yes
  have hpending := (ordinaryTally k).pending_eq
  simp only [hcount, if_true, reduceCtorEq, if_false, hk'] at hpending
  simp only [QuorumTally.count, if_true] at hyes
  cases hs : (ordinaryTally k).status with
  | «open» => rfl
  | reached =>
    rw [QuorumTally.status_eq_reached_iff] at hs
    omega
  | unreachable =>
    rw [QuorumTally.status_eq_unreachable_iff] at hs
    omega

theorem mem_insert_of_slot {validators : ExtTreeMap AgentId (Option Vote)} {voter agent : AgentId}
    {slot : Option Vote} (v : Option Vote) (h : validators[voter]? = some slot) :
    agent ∈ validators.insert voter v ↔ agent ∈ validators := by
  rw [ExtTreeMap.mem_iff_isSome_getElem?, ExtTreeMap.mem_iff_isSome_getElem?, Slots.getElem?_insert]
  by_cases ha : agent = voter
  · subst ha
    simp [h]
  · rw [if_neg ha]

/-- A recorded vote keeps a claim sound: its slot and its count grow together. -/
theorem sound_vote {state : ClaimState} {voter : AgentId} {vote : Vote} {tally : QuorumTally}
    {outcome : QuorumStatus} (h : Sound state) (hslot : state.validators[voter]? = some none)
    (hrecord : state.tally.record vote = .ok (tally, outcome)) :
    Sound { state with
      validators := state.validators.insert voter (some vote), tally := tally, status := outcome } := by
  obtain ⟨-, hk, hstatus, hcount⟩ := QuorumTally.record_eq_ok hrecord
  have hmem : state.proposer ∈ state.validators.insert voter (some vote) ↔
      state.proposer ∈ state.validators := mem_insert_of_slot _ hslot
  have himplicit : ClaimState.implicitYes { state with
      validators := state.validators.insert voter (some vote), tally := tally, status := outcome } =
      state.implicitYes := by
    simp only [ClaimState.implicitYes, hmem]
  have hsize : (state.validators.insert voter (some vote)).size = state.validators.size :=
    Slots.size_insert _ hslot
  refine ⟨?_, ?_, ?_, ?_, h.atLeastOne, Or.inl hstatus⟩
  · exact hk.trans h.tallyK
  · intro other
    have hfilled := (filled_insert (v := vote) hslot).countP_eq fun e => decide (e.2 = other)
    rw [hcount, h.counts, ClaimState.expected, ClaimState.expected, himplicit, hfilled,
      List.countP_cons]
    by_cases hv : other = vote
    · simp [hv]
      omega
    · have hv' : vote ≠ other := fun he => hv he.symm
      simp [hv, hv']
  · rw [himplicit]
    simp only [hsize]
    exact h.cohort
  · intro hp
    simp only [hsize]
    exact h.blind (hmem.mp hp)

/-! ## Reading a claim back -/

/-- The loop over the stored votes fills the empty slots and counts every vote. -/
theorem replay_votes {votes : List StoredVote} {validators : ExtTreeMap AgentId (Option Vote)}
    {tally : QuorumTally} (hnodup : (votes.map (·.voter)).Nodup)
    (hslots : ∀ vote ∈ votes, validators[vote.voter]? = some none) (hroom : votes.length ≤ tally.pending) :
    ∃ tally' : QuorumTally, votes.foldl replayVote (validators, tally, false) =
        (fillAll validators (votes.map fun v => (v.voter, v.vote)), tally', false) ∧
      tally'.k = tally.k ∧
      ∀ vote, tally'.count vote = tally.count vote + votes.countP (·.vote = vote) := by
  induction votes generalizing validators tally with
  | nil => exact ⟨tally, rfl, rfl, by simp⟩
  | cons v votes ih =>
    rw [List.map_cons, List.nodup_cons] at hnodup
    have hpending : tally.pending ≠ 0 := by
      simp only [List.length_cons] at hroom
      omega
    have hstep : replayVote (validators, tally, false) v =
        (validators.insert v.voter (some v.vote), tally.add v.vote hpending, false) := by
      simp [replayVote, hslots v List.mem_cons_self, QuorumTally.record, hpending]
    have hrest : ∀ w ∈ votes, (validators.insert v.voter (some v.vote))[w.voter]? = some none := by
      intro w hw
      rw [Slots.getElem?_insert, if_neg]
      · exact hslots w (List.mem_cons_of_mem _ hw)
      · intro heq
        exact hnodup.1 (heq ▸ List.mem_map_of_mem hw)
    have hroom' : votes.length ≤ (tally.add v.vote hpending).pending := by
      have hold := tally.pending_eq
      have hnew := (tally.add v.vote hpending).pending_eq
      have hone : (if Vote.yes = v.vote then 1 else 0) + (if Vote.no = v.vote then 1 else 0) +
          (if Vote.abstain = v.vote then 1 else 0) = 1 := by
        cases v.vote <;> rfl
      simp only [QuorumTally.count_add, QuorumTally.k_add] at hnew
      simp only [List.length_cons] at hroom
      omega
    obtain ⟨tally', hfold, hk, hcount⟩ := ih hnodup.2 hrest hroom'
    refine ⟨tally', ?_, hk.trans (QuorumTally.k_add ..), ?_⟩
    · rw [List.foldl_cons, hstep, hfold]
      rfl
    · intro vote
      rw [hcount, QuorumTally.count_add, List.countP_cons]
      by_cases hv : vote = v.vote
      · simp [hv]
        omega
      · have hv' : ¬ v.vote = vote := fun he => hv he.symm
        simp [hv, hv']

/-- The rows of one claim hold what the memory holds. -/
structure Stored (store : Tables) (row : ClaimRow) (state : ClaimState) : Prop where
  turn : row.turn = state.turn
  proposer : row.proposer = state.proposer
  body : row.body = state.body
  k : row.k = state.k
  status : row.status = statusText state.status ∨ row.status = "open" ∧ state.status = state.tally.status
  roster : ((store.validators.filter fun r => r.claim = row.claim).map (·.agent)).Perm
    state.validators.keys
  votes : ((store.votes.filter fun r => r.claim = row.claim).map fun r => (r.voter, r.vote)).Perm
    ((filled state.validators).map fun e => (e.1, voteText e.2))

/-- The stored votes of a claim, parsed. -/
theorem readClaim_stored {store : Tables} {row : ClaimRow} {state : ClaimState}
    (h : Stored store row state) :
    ∃ votes, readClaim store row = .ok
        (⟨row.claim, state.turn, state.proposer, state.body, state.k, row.status⟩,
          validatorsOf store row.claim, votes) ∧
      (votes.map fun v => (v.voter, v.vote)).Perm (filled state.validators) := by
  let parsed := fun r : VoteRow =>
    StoredVote.mk row.claim r.voter ((voteFromText r.vote).getD .abstain)
  have hrows : ((voteRowsOf store row.claim).map fun r => (r.voter, r.vote)).Perm
      ((filled state.validators).map fun e => (e.1, voteText e.2)) :=
    ((voteRowsOf_perm store row.claim).map _).trans h.votes
  have hparse : ∀ r ∈ voteRowsOf store row.claim, storedVote row.claim r = .ok (parsed r) := by
    intro r hr
    obtain ⟨e, -, he⟩ := List.mem_map.mp (hrows.mem_iff.mp (List.mem_map_of_mem hr))
    have hvote : voteText e.2 = r.vote := (Prod.mk.inj he).2
    simp [storedVote, parsed, ← hvote]
  refine ⟨(voteRowsOf store row.claim).map parsed, ?_, ?_⟩
  · simp only [readClaim, mapM_eq_ok hparse, h.turn, h.proposer, h.body, h.k]
    rfl
  · have hmap := hrows.map fun e : AgentId × String => (e.1, (voteFromText e.2).getD .abstain)
    simpa [List.map_map, Function.comp_def, parsed] using hmap

/-- Blind claims are told apart by their roster, ordinary ones get the proposer's vote. -/
theorem hydrate_tally {state : ClaimState} {validators : List AgentId} (hs : Sound state)
    (hroster : validators.Perm state.validators.keys) :
    let tally := if state.k = 1 ∧ validators.length = 1 ∧ validators.head? = some state.proposer
      then QuorumTally.new state.k else ordinaryTally state.k
    tally.k = state.k ∧ ∀ vote, tally.count vote = if vote = .yes then state.implicitYes else 0 := by
  have hlength : validators.length = state.validators.size := by
    rw [hroster.length_eq, ExtTreeMap.length_keys]
  have hblind : (state.k = 1 ∧ validators.length = 1 ∧ validators.head? = some state.proposer) ↔
      state.proposer ∈ state.validators := by
    constructor
    · rintro ⟨-, -, hhead⟩
      exact ExtTreeMap.mem_keys.mp (hroster.mem_iff.mp (List.mem_of_mem_head? hhead))
    · intro hmem
      have hone := hs.blind hmem
      have hk := hs.cohort
      rw [ClaimState.implicitYes, if_pos hmem] at hk
      obtain ⟨agent, rfl⟩ := List.length_eq_one_iff.mp (hlength.trans hone)
      have hagent := hroster.mem_iff.mpr (ExtTreeMap.mem_keys.mpr hmem)
      rw [List.mem_singleton.mp hagent]
      exact ⟨by omega, rfl, rfl⟩
  by_cases hmem : state.proposer ∈ state.validators
  · simp only [if_pos (hblind.mpr hmem), ClaimState.implicitYes, if_pos hmem]
    exact ⟨rfl, by intro vote; simp⟩
  · simp only [if_neg (fun hb => hmem (hblind.mp hb)), ClaimState.implicitYes, if_neg hmem]
    exact ordinaryTally_spec hs.atLeastOne

/-- An opener finds the claim that is in memory, with the status its tally gives an open claim. -/
theorem hydrate_stored (claim : ClaimId) {status : String} {state : ClaimState}
    {validators : List AgentId} {votes : List StoredVote} (hs : Sound state)
    (hstatus : status = statusText state.status ∨ status = "open" ∧ state.status = state.tally.status)
    (hroster : validators.Perm state.validators.keys)
    (hvotes : (votes.map fun v => (v.voter, v.vote)).Perm (filled state.validators)) :
    hydrate ⟨claim, state.turn, state.proposer, state.body, state.k, status⟩
      validators votes = .ok state.reread := by
  obtain ⟨htallyK, htallyCount⟩ := hydrate_tally hs hroster
  have hmax : max state.k 1 = state.k := Nat.max_eq_left hs.atLeastOne
  have hnodup : (votes.map (·.voter)).Nodup := by
    have hkeys := (hvotes.map Prod.fst).nodup_iff.mpr (nodup_keys_filled state.validators)
    simpa [List.map_map, Function.comp_def] using hkeys
  have hslots : ∀ vote ∈ votes, (roster validators)[vote.voter]? = some none := by
    intro vote hvote
    have hfilled := mem_filled.mp (hvotes.mem_iff.mp (List.mem_map_of_mem hvote))
    have hmem : vote.voter ∈ state.validators :=
      ExtTreeMap.mem_iff_isSome_getElem?.mpr (by rw [hfilled]; rfl)
    rw [roster, getElem?_empties, if_pos (hroster.mem_iff.mpr (ExtTreeMap.mem_keys.mpr hmem))]
  have hroom : votes.length ≤ (if state.k = 1 ∧ validators.length = 1 ∧
      validators.head? = some state.proposer then QuorumTally.new state.k
      else ordinaryTally state.k).pending := by
    have hlength : votes.length = (filled state.validators).length := by
      rw [← hvotes.length_eq, List.length_map]
    have hfilled := length_filled_le state.validators
    have hpending := QuorumTally.pending_eq (if state.k = 1 ∧ validators.length = 1 ∧
      validators.head? = some state.proposer then QuorumTally.new state.k
      else ordinaryTally state.k)
    have hcohort := hs.cohort
    simp only [htallyCount, htallyK, if_true, reduceCtorEq, if_false] at hpending
    omega
  obtain ⟨tally, hfold, hk, hcount⟩ := replay_votes hnodup hslots hroom
  have hvalidators : fillAll (roster validators) (votes.map fun v => (v.voter, v.vote)) =
      state.validators := fillAll_empties hroster hvotes
  have htally : tally = state.tally := by
    apply QuorumTally.ext_count
    · rw [hk, htallyK, hs.tallyK]
    · intro vote
      have hcountP := hvotes.countP_eq fun e => decide (e.2 = vote)
      rw [List.countP_map] at hcountP
      rw [hcount, htallyCount, hs.counts, ClaimState.expected, ← hcountP]
      rfl
  rw [hvalidators, htally] at hfold
  simp only [hydrate, hmax, hfold]
  rcases hstatus with rfl | ⟨rfl, htallyStatus⟩
  · cases hmemory : state.status <;> simp [statusText, ClaimState.reread, hmemory]
  · simp [ClaimState.reread, htallyStatus]

/-! ## The board against its store -/

/-- Memory and rows agree, row by row and claim by claim. -/
structure Coherent (board : Blackboard) : Prop where
  claimKeys : (board.store.claims.map (·.claim)).Nodup
  rows : ∀ row ∈ board.store.claims, ∃ state : ClaimState,
    board.claims[row.claim]? = some state ∧ Stored board.store row state
  known : ∀ (claim : ClaimId) (state : ClaimState), board.claims[claim]? = some state → claim ∈ board.store.claims.map (·.claim)
  validatorOwner : ∀ row ∈ board.store.validators, row.claim ∈ board.store.claims.map (·.claim)
  voteOwner : ∀ row ∈ board.store.votes, row.claim ∈ board.store.claims.map (·.claim)
  sound : ∀ (claim : ClaimId) (state : ClaimState), board.claims[claim]? = some state → Sound state

theorem getElem?_insert_claim (claims : ExtTreeMap ClaimId ClaimState) (claim other : ClaimId)
    (state : ClaimState) :
    (claims.insert claim state)[other]? = if other = claim then some state else claims[other]? := by
  rw [ExtTreeMap.getElem?_insert]
  by_cases h : other = claim
  · rw [if_pos h, if_pos (by rw [h]; exact Std.ReflCmp.compare_self)]
  · rw [if_neg h, if_neg]
    intro hc
    exact h (Std.LawfulEqCmp.eq_of_compare hc).symm

/-- Reading rows of coherent claims gives each of them as an opener sees it. -/
theorem hydrate_rows {board : Blackboard} (h : Coherent board) {rows : List ClaimRow}
    (hsub : ∀ row ∈ rows, row ∈ board.store.claims) :
    ∃ read, rows.mapM (readClaim board.store) = .ok read ∧ ∀ claims : ExtTreeMap ClaimId ClaimState,
      ∃ claims' : ExtTreeMap ClaimId ClaimState, hydrateAll read claims = .ok claims' ∧
        ∀ claim : ClaimId, claims'[claim]? = if claim ∈ rows.map (·.claim)
          then board.claims[claim]?.map ClaimState.reread else claims[claim]? := by
  induction rows with
  | nil => exact ⟨[], rfl, fun claims => ⟨claims, rfl, by simp⟩⟩
  | cons row rows ih =>
    obtain ⟨read, hread, hrest⟩ := ih fun r hr => hsub r (List.mem_cons_of_mem _ hr)
    obtain ⟨state, hstate, hstored⟩ := h.rows row (hsub row List.mem_cons_self)
    obtain ⟨votes, hrow, hvotes⟩ := readClaim_stored hstored
    have hroster := (validatorsOf_perm board.store row.claim).trans hstored.roster
    have hhydrate := hydrate_stored row.claim (h.sound _ _ hstate) hstored.status hroster hvotes
    refine ⟨_, by rw [List.mapM_cons, hrow, hread]; rfl, ?_⟩
    intro claims
    obtain ⟨claims', hclaims, hget⟩ := hrest (claims.insert row.claim state.reread)
    refine ⟨claims', ?_, ?_⟩
    · rw [hydrateAll, hhydrate]
      exact hclaims
    · intro claim
      rw [hget, getElem?_insert_claim]
      by_cases hmem : claim ∈ rows.map (·.claim)
      · simp [hmem]
      · by_cases heq : claim = row.claim
        · subst heq
          rw [if_neg hmem, if_pos rfl, if_pos (by simp), hstate]
          rfl
        · rw [if_neg hmem, if_neg heq, if_neg]
          rw [List.map_cons, List.mem_cons]
          rintro (hc | hc)
          · exact heq hc
          · exact hmem hc

/-- Opening the store of a coherent board gives the board with its open claims' statuses re-read. -/
theorem openBoard_coherent {board : Blackboard} (h : Coherent board) :
    openBoard board.store = .ok ⟨board.store, board.claims.map fun _ state => state.reread⟩ := by
  have hperm := List.mergeSort_perm board.store.claims fun a b => decide (a.claim.toU128 ≤ b.claim.toU128)
  obtain ⟨read, hread, hhydrate⟩ := hydrate_rows h fun row hrow => hperm.mem_iff.mp hrow
  obtain ⟨claims, hclaims, hget⟩ := hhydrate ∅
  have hmap : claims = board.claims.map fun _ state => state.reread := by
    apply ExtTreeMap.ext_getElem?
    intro claim
    rw [hget, ExtTreeMap.getElem?_map]
    simp only [(hperm.map fun row : ClaimRow => row.claim).mem_iff]
    by_cases hmem : claim ∈ board.store.claims.map (·.claim)
    · rw [if_pos hmem]
    · cases hstate : board.claims[claim]? with
      | none => simp [hmem]
      | some state => exact absurd (h.known claim state hstate) hmem
  rw [openBoard, readAll, hread]
  simp only [hclaims, hmap]
  rfl

end SupraHarness.Board
