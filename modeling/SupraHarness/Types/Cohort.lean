import SupraHarness.Types.Hash

/-!
# Cohorts: votes, verdicts and quorum arithmetic

The threshold is `ceil(2k/3)` in integers. A tally counts the votes of one
claim; that its threshold belongs to its cohort, and that it never holds more
votes than the cohort has peers, are fields. The status of a tally is a function
of its counts, and a decided status is final.
-/
namespace SupraHarness.Types

/-- Absolute ceiling on peers in one cohort. -/
def peerCeiling : Nat := 80

/-- Peers needed to carry a claim: `ceil(2k/3)`. -/
def quorum (k : Nat) : Nat :=
  if k = 0 then 0 else (2 * k + 2) / 3

/-- The threshold is the least number that is two thirds of the cohort. -/
theorem quorum_le_iff {k n : Nat} : quorum k ≤ n ↔ 2 * k ≤ 3 * n := by
  unfold quorum
  split <;> omega

/-- `shards_needed`, at 15 requests a minute. -/
def shardsNeeded (k : Nat) : Nat := (k + 14) / 15

inductive Vote where
  | yes | no | abstain
  deriving DecidableEq, Repr

inductive Confidence where
  | low | medium | high
  deriving DecidableEq, Repr

def maxReasonBytes : Nat := 140

def maxEvidenceBytes : Nat := 40

/-- A validator's bounded response. -/
@[ext] structure Verdict where
  vote : Vote
  confidence : Confidence
  reason : Str
  evidenceRef : Option Str
  reasonFits : reason.len ≤ maxReasonBytes
  evidenceFits : ∀ reference ∈ evidenceRef, reference.len ≤ maxEvidenceBytes

inductive VerdictError where
  | reasonTooLong (bytes : Nat)
  | evidenceRefTooLong (bytes : Nat)
  deriving DecidableEq, Repr

/-- A verdict without a reference to evidence keeps within the bound on it. -/
theorem no_evidence : ∀ reference ∈ (none : Option Str), reference.len ≤ maxEvidenceBytes := by simp

def Verdict.new (vote : Vote) (confidence : Confidence) (reason : Str) (evidenceRef : Option Str) :
    Except VerdictError Verdict :=
  if hreason : reason.len ≤ maxReasonBytes then
    match evidenceRef with
    | none => .ok ⟨vote, confidence, reason, none, hreason, by simp⟩
    | some reference =>
      if href : reference.len ≤ maxEvidenceBytes then
        .ok ⟨vote, confidence, reason, some reference, hreason, by simpa using href⟩
      else .error (.evidenceRefTooLong reference.len)
  else .error (.reasonTooLong reason.len)

/-- Where a claim stands. -/
inductive QuorumStatus where
  | open | reached | unreachable
  deriving DecidableEq, Repr

inductive TallyError where
  | overfull (k : Nat)
  deriving DecidableEq, Repr

/-- Incremental quorum accounting for one claim. -/
@[ext] structure QuorumTally where
  k : Nat
  needed : Nat
  yes : Nat
  no : Nat
  abstain : Nat
  threshold : needed = quorum k
  bounded : yes + no + abstain ≤ k
  deriving DecidableEq, Repr

namespace QuorumTally

def new (k : Nat) : QuorumTally := ⟨k, quorum k, 0, 0, 0, rfl, Nat.zero_le k⟩

/-- Peers who have not answered. -/
def pending (t : QuorumTally) : Nat := t.k - t.yes - t.no - t.abstain

def isReached (t : QuorumTally) : Bool := t.needed ≤ t.yes

def isUnreachable (t : QuorumTally) : Bool := t.yes + t.pending < t.needed

def status (t : QuorumTally) : QuorumStatus :=
  if t.isReached then .reached else if t.isUnreachable then .unreachable else .open

/-- One more vote, where a peer is still pending. -/
def add (t : QuorumTally) (vote : Vote) (h : t.pending ≠ 0) : QuorumTally :=
  have hroom : t.yes + t.no + t.abstain + 1 ≤ t.k := by
    have hb := t.bounded
    unfold pending at h
    omega
  match vote with
  | .yes => { t with yes := t.yes + 1, bounded := by omega }
  | .no => { t with no := t.no + 1, bounded := by omega }
  | .abstain => { t with abstain := t.abstain + 1, bounded := by omega }

/-- Record a vote and report where the claim now stands. -/
def record (t : QuorumTally) (vote : Vote) : Except TallyError (QuorumTally × QuorumStatus) :=
  if h : t.pending = 0 then .error (.overfull t.k)
  else .ok (t.add vote h, (t.add vote h).status)

/-- The votes of one kind. -/
def count (t : QuorumTally) : Vote → Nat
  | .yes => t.yes
  | .no => t.no
  | .abstain => t.abstain

theorem ext_count {s t : QuorumTally} (hk : s.k = t.k) (h : ∀ vote, s.count vote = t.count vote) :
    s = t := by
  apply QuorumTally.ext hk
  · rw [s.threshold, t.threshold, hk]
  · exact h .yes
  · exact h .no
  · exact h .abstain

@[simp] theorem k_new (k : Nat) : (new k).k = k := rfl

@[simp] theorem count_new (k : Nat) (vote : Vote) : (new k).count vote = 0 := by
  cases vote <;> rfl

@[simp] theorem k_add (t : QuorumTally) (vote : Vote) (h : t.pending ≠ 0) : (t.add vote h).k = t.k := by
  cases vote <;> rfl

/-- A vote raises its own count by one, and no other. -/
theorem count_add (t : QuorumTally) (vote other : Vote) (h : t.pending ≠ 0) :
    (t.add vote h).count other = t.count other + if other = vote then 1 else 0 := by
  cases vote <;> cases other <;> rfl

theorem pending_eq (t : QuorumTally) :
    t.pending + (t.count .yes + t.count .no + t.count .abstain) = t.k := by
  have hb := t.bounded
  simp only [pending, count]
  omega

theorem record_eq_ok {t t' : QuorumTally} {vote : Vote} {status : QuorumStatus}
    (h : t.record vote = .ok (t', status)) :
    t.pending ≠ 0 ∧ t'.k = t.k ∧ status = t'.status ∧
      ∀ other, t'.count other = t.count other + if other = vote then 1 else 0 := by
  unfold record at h
  split at h
  · cases h
  · rename_i hp
    cases h
    exact ⟨hp, k_add t vote hp, rfl, fun other => count_add t vote other hp⟩

/-- The status, read off the counts: two thirds of the cohort said yes, or can no longer. -/
theorem status_eq_reached_iff (t : QuorumTally) : t.status = .reached ↔ 2 * t.k ≤ 3 * t.yes := by
  rw [← quorum_le_iff, ← t.threshold, status]
  by_cases h : t.needed ≤ t.yes
  · simp [isReached, h]
  · by_cases hu : t.yes + t.pending < t.needed <;> simp [isReached, isUnreachable, h, hu]

theorem status_eq_unreachable_iff (t : QuorumTally) :
    t.status = .unreachable ↔ 3 * (t.yes + t.pending) < 2 * t.k := by
  have hq : 3 * (t.yes + t.pending) < 2 * t.k ↔ t.yes + t.pending < t.needed := by
    rw [t.threshold, ← Nat.not_le, ← Nat.not_le, quorum_le_iff]
  rw [hq, status]
  by_cases h : t.needed ≤ t.yes
  · have hn : ¬ t.yes + t.pending < t.needed := by omega
    simp [isReached, h, hn]
  · by_cases hu : t.yes + t.pending < t.needed <;> simp [isReached, isUnreachable, h, hu]

end QuorumTally

end SupraHarness.Types
