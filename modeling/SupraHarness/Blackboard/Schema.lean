import SupraHarness.Store.Transaction
import SupraHarness.Types.Cohort

/-!
# The blackboard's tables

Three tables hold the claims, their validator rosters and the votes. An insert
is refused by a `CHECK` or by a primary key; an identifier column holds the
26-character text of an identifier, which is the identifier here. Reading back
gives every claim with its roster and its votes, in the order of their keys.
-/
namespace SupraHarness.Board

open SupraHarness.Types SupraHarness.Store

structure ClaimRow where
  claim : ClaimId
  turn : TurnId
  proposer : AgentId
  body : Str
  k : Int
  createdAt : Int
  status : String
  deriving DecidableEq, Repr

structure ValidatorRow where
  claim : ClaimId
  agent : AgentId
  deriving DecidableEq, Repr

structure VoteRow where
  claim : ClaimId
  voter : AgentId
  vote : String
  reason : Str
  evidence : Option Str
  deriving DecidableEq, Repr

structure Tables where
  claims : List ClaimRow
  validators : List ValidatorRow
  votes : List VoteRow
  deriving DecidableEq, Repr

def Tables.empty : Tables := ⟨[], [], []⟩

/-- `i64::try_from(k).unwrap_or(i64::MAX)` -/
def i64OfUsize (k : Nat) : Int := if k ≤ 2 ^ 63 - 1 then k else 2 ^ 63 - 1

/-- `usize::try_from(k).unwrap_or(0)` -/
def usizeOfI64 (k : Int) : Nat := k.toNat

def voteText : Vote → String
  | .yes => "yes"
  | .no => "no"
  | .abstain => "abstain"

def voteFromText (text : String) : Option Vote :=
  if text = "yes" then some .yes
  else if text = "no" then some .no
  else if text = "abstain" then some .abstain
  else none

@[simp] theorem voteFromText_voteText (vote : Vote) : voteFromText (voteText vote) = some vote := by
  cases vote <;> decide

def statusText : QuorumStatus → String
  | .open => "open"
  | .reached => "reached"
  | .unreachable => "unreachable"

/-- The row of one claim, under the constraints of `bb_claim`. -/
def insertClaimRow (tables : Tables) (row : ClaimRow) : Except RusqliteError Tables := do
  check "length(body) > 0 AND length(body) <= 2048"
    (0 < sqlLength row.body && sqlLength row.body ≤ 2048)
  check "k >= 1 AND k <= 80" (1 ≤ row.k && row.k ≤ 80)
  check "created_at >= 0" (0 ≤ row.createdAt)
  check "status IN ('open', 'reached', 'unreachable')" (row.status ∈ ["open", "reached", "unreachable"])
  unique "bb_claim.claim_id" (row.claim ∉ tables.claims.map (·.claim))
  .ok { tables with claims := tables.claims ++ [row] }

/-- The row of one validator, under the primary key of `bb_validator`. -/
def insertValidatorRow (tables : Tables) (row : ValidatorRow) : Except RusqliteError Tables := do
  unique "bb_validator.claim_id, bb_validator.agent" (row ∉ tables.validators)
  .ok { tables with validators := tables.validators ++ [row] }

/-- The row of one vote, under the constraints of `bb_vote`. -/
def insertVoteRow (tables : Tables) (row : VoteRow) : Except RusqliteError Tables := do
  check "vote IN ('yes', 'no', 'abstain')" (row.vote ∈ ["yes", "no", "abstain"])
  check "length(reason) <= 140" (sqlLength row.reason ≤ 140)
  check "evidence IS NULL OR length(evidence) <= 40" (row.evidence.all fun e => sqlLength e ≤ 40)
  unique "bb_vote.claim_id, bb_vote.voter"
    ((row.claim, row.voter) ∉ tables.votes.map fun row => (row.claim, row.voter))
  .ok { tables with votes := tables.votes ++ [row] }

/-- The validator loop of `insert_claim`, from statement `n` on. -/
def insertValidators (faults : Faults) (claim : ClaimId) (n : Nat) (tables : Tables) :
    List AgentId → Except RusqliteError Tables
  | [] => .ok tables
  | agent :: agents => do
    faults.statement n
    let tables ← insertValidatorRow tables ⟨claim, agent⟩
    insertValidators faults claim (n + 1) tables agents

/-- Insert one claim row with its validator roster. -/
def insertClaim (faults : Faults) (tables : Tables) (claim : ClaimId) (turn : TurnId)
    (proposer : AgentId) (body : Str) (k now : Nat) (status : String) (validators : List AgentId) :
    Except RusqliteError Tables := do
  faults.statement 0
  let tables ← insertClaimRow tables ⟨claim, turn, proposer, body, i64OfUsize k, now, status⟩
  faults.statement 1
  insertValidators faults claim 2 tables validators

/-- The `SET status = ?2 WHERE claim_id = ?1 AND status = 'open'` on one row. -/
def closeRow (claim : ClaimId) (status : String) (row : ClaimRow) : ClaimRow :=
  if row.claim = claim ∧ row.status = "open" then { row with status := status } else row

/-- Close a claim row under a terminal status. Returns whether a row changed. -/
def updateStatus (faults : Faults) (n : Nat) (tables : Tables) (claim : ClaimId) (status : String) :
    Except RusqliteError (Tables × Bool) := do
  faults.statement n
  let matching := fun row : ClaimRow => row.claim = claim ∧ row.status = "open"
  check "status IN ('open', 'reached', 'unreachable')"
    (tables.claims.all fun row => ¬ matching row ∨ status ∈ ["open", "reached", "unreachable"])
  .ok ({ tables with claims := tables.claims.map (closeRow claim status) },
    tables.claims.countP (fun row => matching row) = 1)

/-- Insert one vote row. -/
def insertVote (faults : Faults) (n : Nat) (tables : Tables) (claim : ClaimId) (voter : AgentId)
    (verdict : Verdict) : Except RusqliteError Tables := do
  faults.statement n
  insertVoteRow tables ⟨claim, voter, voteText verdict.vote, verdict.reason, verdict.evidenceRef⟩

/-! ## Reading back -/

structure StoredClaim where
  claim : ClaimId
  turn : TurnId
  proposer : AgentId
  body : Str
  k : Nat
  status : String
  deriving DecidableEq, Repr

structure StoredVote where
  claim : ClaimId
  voter : AgentId
  vote : Vote
  deriving DecidableEq, Repr

/-- `SELECT agent ... WHERE claim_id = ?1 ORDER BY agent` -/
def validatorsOf (tables : Tables) (claim : ClaimId) : List AgentId :=
  ((tables.validators.filter fun row => row.claim = claim).map (·.agent)).mergeSort
    fun a b => a.toU128 ≤ b.toU128

/-- `SELECT voter, vote ... WHERE claim_id = ?1 ORDER BY voter` -/
def voteRowsOf (tables : Tables) (claim : ClaimId) : List VoteRow :=
  (tables.votes.filter fun row => row.claim = claim).mergeSort fun a b => a.voter.toU128 ≤ b.voter.toU128

def storedVote (claim : ClaimId) (row : VoteRow) : Except StoreError StoredVote :=
  match voteFromText row.vote with
  | some vote => .ok ⟨claim, row.voter, vote⟩
  | none => .error (.malformed s!"bad vote {row.vote}")

def readClaim (tables : Tables) (row : ClaimRow) :
    Except StoreError (StoredClaim × List AgentId × List StoredVote) := do
  let votes ← (voteRowsOf tables row.claim).mapM (storedVote row.claim)
  .ok (⟨row.claim, row.turn, row.proposer, row.body, usizeOfI64 row.k, row.status⟩,
    validatorsOf tables row.claim, votes)

/-- Read every stored claim with its validators and votes, in id order. -/
def readAll (tables : Tables) :
    Except StoreError (List (StoredClaim × List AgentId × List StoredVote)) :=
  (tables.claims.mergeSort fun a b => a.claim.toU128 ≤ b.claim.toU128).mapM (readClaim tables)

/-! ## What the statements do -/

theorem insertClaimRow_ok {tables t' : Tables} {row : ClaimRow} (h : insertClaimRow tables row = .ok t') :
    t' = { tables with claims := tables.claims ++ [row] } ∧
      row.claim ∉ tables.claims.map (·.claim) ∧ 1 ≤ row.k ∧ row.k ≤ 80 := by
  simp only [insertClaimRow, bind_eq_ok] at h
  obtain ⟨_, -, _, hk, _, -, _, -, _, hunique, h⟩ := h
  cases h
  have hk := check_eq_ok hk
  have hunique := unique_eq_ok hunique
  simp only [Bool.and_eq_true, decide_eq_true_eq] at hk hunique
  exact ⟨rfl, hunique, hk⟩

/-- The loop adds one row per validator, and stops at a repeated one. -/
theorem insertValidators_ok {faults : Faults} {claim : ClaimId} {n : Nat} {tables t' : Tables}
    {agents : List AgentId} (h : insertValidators faults claim n tables agents = .ok t') :
    t' = { tables with validators := tables.validators ++ agents.map fun agent => ⟨claim, agent⟩ } ∧
      agents.Nodup ∧ ∀ agent ∈ agents, ⟨claim, agent⟩ ∉ tables.validators := by
  induction agents generalizing n tables with
  | nil =>
    cases h
    simp
  | cons agent agents ih =>
    simp only [insertValidators, insertValidatorRow, bind_eq_ok] at h
    obtain ⟨_, -, tables', ⟨_, hunique, hrow⟩, h⟩ := h
    cases hrow
    have hfresh := unique_eq_ok hunique
    simp only [decide_eq_true_eq] at hfresh
    obtain ⟨rfl, hnodup, hnew⟩ := ih h
    refine ⟨by simp, ?_, ?_⟩
    · refine List.nodup_cons.mpr ⟨?_, hnodup⟩
      intro hmem
      exact hnew agent hmem (List.mem_append_right _ List.mem_cons_self)
    · intro other hother
      rcases List.mem_cons.mp hother with rfl | hother
      · exact hfresh
      · intro hmem
        exact hnew other hother (List.mem_append_left _ hmem)

theorem insertClaim_ok {faults : Faults} {tables t' : Tables} {claim : ClaimId} {turn : TurnId}
    {proposer : AgentId} {body : Str} {k now : Nat} {status : String} {validators : List AgentId}
    (h : insertClaim faults tables claim turn proposer body k now status validators = .ok t') :
    t' = ⟨tables.claims ++ [⟨claim, turn, proposer, body, i64OfUsize k, now, status⟩],
        tables.validators ++ validators.map fun agent => ⟨claim, agent⟩, tables.votes⟩ ∧
      claim ∉ tables.claims.map (·.claim) ∧ 1 ≤ i64OfUsize k ∧ i64OfUsize k ≤ 80 ∧ validators.Nodup := by
  simp only [insertClaim, bind_eq_ok] at h
  obtain ⟨-, -, tables', hrow, -, -, h⟩ := h
  obtain ⟨rfl, hclaim, hlow, hhigh⟩ := insertClaimRow_ok hrow
  obtain ⟨rfl, hnodup, -⟩ := insertValidators_ok h
  exact ⟨rfl, hclaim, hlow, hhigh, hnodup⟩

theorem insertVote_ok {faults : Faults} {n : Nat} {tables t' : Tables} {claim : ClaimId}
    {voter : AgentId} {verdict : Verdict} (h : insertVote faults n tables claim voter verdict = .ok t') :
    t' = { tables with votes := tables.votes ++
      [⟨claim, voter, voteText verdict.vote, verdict.reason, verdict.evidenceRef⟩] } := by
  simp only [insertVote, insertVoteRow, bind_eq_ok] at h
  obtain ⟨-, -, -, -, -, -, -, -, -, -, h⟩ := h
  exact (Except.ok.inj h).symm

theorem updateStatus_ok {faults : Faults} {n : Nat} {tables t' : Tables} {claim : ClaimId}
    {status : String} {changed : Bool} (h : updateStatus faults n tables claim status = .ok (t', changed)) :
    t' = { tables with claims := tables.claims.map (closeRow claim status) } := by
  simp only [updateStatus, bind_eq_ok] at h
  obtain ⟨-, -, -, -, h⟩ := h
  exact (congrArg Prod.fst (Except.ok.inj h)).symm

theorem validatorsOf_perm (tables : Tables) (claim : ClaimId) :
    (validatorsOf tables claim).Perm
      ((tables.validators.filter fun row => row.claim = claim).map (·.agent)) :=
  List.mergeSort_perm _ _

theorem voteRowsOf_perm (tables : Tables) (claim : ClaimId) :
    (voteRowsOf tables claim).Perm (tables.votes.filter fun row => row.claim = claim) :=
  List.mergeSort_perm _ _

end SupraHarness.Board
