import SupraHarness.Types.Cohort
import Mathlib.Data.Rat.Floor
import Mathlib.Data.Multiset.Count

/-!
# Runs of a tally

A tally of `k` peers is handed votes one at a time; the votes beyond `k` are
refused. What it holds after any run is the count of the votes it recorded, so
the order of the votes does not matter, and its status says what the votes still
pending can bring about.
-/
namespace SupraHarness.Types.QuorumTally

/-- The tally a call of `record` leaves behind. -/
def after (t : QuorumTally) (vote : Vote) : QuorumTally :=
  match t.record vote with
  | .ok (t', _) => t'
  | .error _ => t

def afterAll (t : QuorumTally) (votes : List Vote) : QuorumTally := votes.foldl after t

/-- The votes that were not refused. -/
def recorded (t : QuorumTally) : List Vote → List Vote
  | [] => []
  | vote :: votes =>
    match t.record vote with
    | .ok (t', _) => vote :: t'.recorded votes
    | .error _ => t.recorded votes

variable {t : QuorumTally}

@[simp] theorem afterAll_nil (t : QuorumTally) : t.afterAll [] = t := rfl

@[simp] theorem afterAll_cons (t : QuorumTally) (vote : Vote) (votes : List Vote) :
    t.afterAll (vote :: votes) = (t.after vote).afterAll votes := rfl

theorem afterAll_append (t : QuorumTally) (votes more : List Vote) :
    t.afterAll (votes ++ more) = (t.afterAll votes).afterAll more := by
  simp [afterAll, List.foldl_append]

theorem record_of_full (h : t.pending = 0) (vote : Vote) : t.record vote = .error (.overfull t.k) := by
  rw [record, dif_pos h]

theorem after_of_full (h : t.pending = 0) (vote : Vote) : t.after vote = t := by
  rw [after, record_of_full h]

theorem record_of_room (h : t.pending ≠ 0) (vote : Vote) :
    t.record vote = .ok (t.after vote, (t.after vote).status) := by
  rw [after, record, dif_neg h]

@[simp] theorem k_after (t : QuorumTally) (vote : Vote) : (t.after vote).k = t.k := by
  by_cases h : t.pending = 0
  · rw [after_of_full h]
  · exact (record_eq_ok (record_of_room h vote)).2.1

theorem count_after (h : t.pending ≠ 0) (vote other : Vote) :
    (t.after vote).count other = t.count other + if other = vote then 1 else 0 :=
  (record_eq_ok (record_of_room h vote)).2.2.2 other

theorem pending_after (h : t.pending ≠ 0) (vote : Vote) : (t.after vote).pending + 1 = t.pending := by
  have hold := t.pending_eq
  have hnew := (t.after vote).pending_eq
  rw [k_after, count_after h, count_after h, count_after h] at hnew
  cases vote <;> simp at hnew <;> omega

/-- A full tally refuses every vote and stays. -/
theorem afterAll_of_full (h : t.pending = 0) (votes : List Vote) :
    t.afterAll votes = t ∧ t.recorded votes = [] := by
  induction votes with
  | nil => exact ⟨rfl, rfl⟩
  | cons vote votes ih =>
    rw [afterAll_cons, after_of_full h, recorded, record_of_full h]
    exact ih

theorem recorded_cons (h : t.pending ≠ 0) (vote : Vote) (votes : List Vote) :
    t.recorded (vote :: votes) = vote :: (t.after vote).recorded votes := by
  rw [recorded, record_of_room h]

/-- The votes recorded are the first ones, as many as were pending. -/
theorem recorded_eq_take (t : QuorumTally) (votes : List Vote) : t.recorded votes = votes.take t.pending := by
  induction votes generalizing t with
  | nil => simp [recorded]
  | cons vote votes ih =>
    by_cases h : t.pending = 0
    · rw [(afterAll_of_full h _).2, h, List.take_zero]
    · rw [recorded_cons h, ih, ← pending_after h vote, List.take_succ_cons]

@[simp] theorem k_afterAll (t : QuorumTally) (votes : List Vote) : (t.afterAll votes).k = t.k := by
  induction votes generalizing t with
  | nil => rfl
  | cons vote votes ih => rw [afterAll_cons, ih, k_after]

/-- The counts are the counts of the votes recorded. -/
theorem count_afterAll (t : QuorumTally) (votes : List Vote) (vote : Vote) :
    (t.afterAll votes).count vote = t.count vote + (t.recorded votes).count vote := by
  induction votes generalizing t with
  | nil => simp [recorded]
  | cons first votes ih =>
    by_cases h : t.pending = 0
    · simp [(afterAll_of_full h _).1, (afterAll_of_full h _).2]
    · rw [afterAll_cons, ih, recorded_cons h, count_after h, List.count_cons]
      by_cases he : vote = first
      · simp [he]
        omega
      · simp [he, Ne.symm he]

/-- The tally is a function of the multiset of the votes recorded. -/
theorem afterAll_congr {votes votes' : List Vote}
    (h : (t.recorded votes : Multiset Vote) = (t.recorded votes' : Multiset Vote)) :
    t.afterAll votes = t.afterAll votes' := by
  apply ext_count
  · rw [k_afterAll, k_afterAll]
  · intro vote
    rw [count_afterAll, count_afterAll, ← Multiset.coe_count, h, Multiset.coe_count]

/-! ## What the status says -/

theorem lt_ceil_iff {n k : Nat} : n < ⌈(2 * k : ℚ) / 3⌉₊ ↔ 3 * n < 2 * k := by
  rw [Nat.lt_ceil, lt_div_iff₀ (by norm_num)]
  constructor
  · intro h
    have h' : ((n * 3 : Nat) : ℚ) < ((2 * k : Nat) : ℚ) := by
      push_cast
      exact h
    have := Nat.cast_lt.mp h'
    omega
  · intro h
    have h' : ((3 * n : Nat) : ℚ) < ((2 * k : Nat) : ℚ) := Nat.cast_lt.mpr h
    push_cast at h'
    linarith

theorem not_reached_and_unreachable (t : QuorumTally) : ¬ (t.isReached = true ∧ t.isUnreachable = true) := by
  intro h
  have hreached : t.needed ≤ t.yes := of_decide_eq_true h.1
  have hunreachable : t.yes + t.pending < t.needed := of_decide_eq_true h.2
  omega

theorem status_of_full (h : t.pending = 0) : t.status ≠ .open := by
  unfold status
  by_cases hr : t.needed ≤ t.yes
  · simp [isReached, hr]
  · have hu : t.yes < t.needed := by omega
    simp [isReached, isUnreachable, hr, hu, h]

theorem status_after (t : QuorumTally) (vote : Vote) (h : t.status ≠ .open) : (t.after vote).status = t.status := by
  by_cases hp : t.pending = 0
  · rw [after_of_full hp]
  · have hyes := count_after hp vote .yes
    have hpending := pending_after hp vote
    have hk := k_after t vote
    simp only [count] at hyes
    cases hs : t.status with
    | «open» => exact absurd hs h
    | reached =>
      rw [status_eq_reached_iff] at hs ⊢
      omega
    | unreachable =>
      rw [status_eq_unreachable_iff] at hs ⊢
      split at hyes <;> omega

/-- A decided status is never left. -/
theorem status_afterAll (t : QuorumTally) (votes : List Vote) (h : t.status ≠ .open) :
    (t.afterAll votes).status = t.status := by
  induction votes generalizing t with
  | nil => rfl
  | cons vote votes ih =>
    have hvote := status_after t vote h
    rw [afterAll_cons, ih, hvote]
    rw [hvote]
    exact h

/-- The approvals after more votes are those so far and those among the votes recorded. -/
theorem yes_afterAll (t : QuorumTally) (votes : List Vote) :
    (t.afterAll votes).yes = t.yes + (t.recorded votes).count .yes :=
  count_afterAll t votes .yes

/-- Unreachable: however the pending peers vote, they do not reach two thirds. -/
theorem unreachable_iff_no_completion (t : QuorumTally) :
    t.status = .unreachable ↔
      ∀ votes : List Vote, votes.length = t.pending → (t.afterAll votes).yes < ⌈(2 * t.k : ℚ) / 3⌉₊ := by
  rw [status_eq_unreachable_iff]
  constructor
  · intro h votes hlen
    have hcount : (t.recorded votes).count .yes ≤ t.pending := by
      rw [recorded_eq_take, ← hlen, List.take_length]
      exact List.count_le_length
    rw [lt_ceil_iff, yes_afterAll]
    omega
  · intro h
    have hall := h (List.replicate t.pending .yes) List.length_replicate
    rw [lt_ceil_iff, yes_afterAll, recorded_eq_take, List.take_of_length_le List.length_replicate.le,
      List.count_replicate_self] at hall
    exact hall

@[simp] theorem pending_new (k : Nat) : (new k).pending = k := rfl

/-- Each vote recorded is one fewer pending. -/
theorem pending_afterAll (t : QuorumTally) (votes : List Vote) :
    (t.afterAll votes).pending + (t.recorded votes).length = t.pending := by
  induction votes generalizing t with
  | nil => rfl
  | cons vote votes ih =>
    by_cases h : t.pending = 0
    · rw [(afterAll_of_full h _).1, (afterAll_of_full h _).2]
      rfl
    · have hrest := ih (t.after vote)
      have hvote := pending_after h vote
      rw [afterAll_cons, recorded_cons h, List.length_cons]
      omega

theorem pending_run (k : Nat) (votes : List Vote) :
    ((new k).afterAll votes).pending + min votes.length k = k := by
  have h := pending_afterAll (new k) votes
  rw [recorded_eq_take, List.length_take, pending_new, Nat.min_comm] at h
  exact h

/-- A tally of any size after any votes. Its status is a function of the multiset of the votes it
recorded; the decided statuses exclude each other and are final; it is unreachable exactly when no way
of casting the pending votes brings two thirds of the cohort; with no vote pending it is decided; every
vote up to the size of the cohort is counted and answered with the status, every one beyond it is refused
and changes nothing. -/
theorem status_of_run (k : Nat) (votes : List Vote) :
    (∀ votes' : List Vote, ((new k).recorded votes' : Multiset Vote) = ((new k).recorded votes : Multiset Vote) →
      ((new k).afterAll votes').status = ((new k).afterAll votes).status) ∧
    ¬ (((new k).afterAll votes).isReached = true ∧ ((new k).afterAll votes).isUnreachable = true) ∧
    (((new k).afterAll votes).status ≠ .open → ∀ more,
      ((new k).afterAll (votes ++ more)).status = ((new k).afterAll votes).status) ∧
    (((new k).afterAll votes).status = .unreachable ↔
      ∀ more : List Vote, more.length = ((new k).afterAll votes).pending →
        ((new k).afterAll (votes ++ more)).yes < ⌈(2 * k : ℚ) / 3⌉₊) ∧
    (((new k).afterAll votes).pending = 0 → ((new k).afterAll votes).status ≠ .open) ∧
    ((new k).afterAll votes).pending + (((new k).afterAll votes).yes + ((new k).afterAll votes).no +
      ((new k).afterAll votes).abstain) = k ∧
    ∀ vote,
      (votes.length < k → ((new k).afterAll votes).record vote =
        .ok ((new k).afterAll (votes ++ [vote]), ((new k).afterAll (votes ++ [vote])).status)) ∧
      (k ≤ votes.length → ((new k).afterAll votes).record vote = .error (.overfull k) ∧
        (new k).afterAll (votes ++ [vote]) = (new k).afterAll votes) := by
  have hk : ((new k).afterAll votes).k = k := k_afterAll _ _
  have hrun := pending_run k votes
  refine ⟨?_, not_reached_and_unreachable _, ?_, ?_, status_of_full, ?_, ?_⟩
  · intro votes' h
    rw [afterAll_congr h]
  · intro h more
    rw [afterAll_append]
    exact status_afterAll _ more h
  · rw [unreachable_iff_no_completion, hk]
    simp only [afterAll_append]
  · have hpending := ((new k).afterAll votes).pending_eq
    rw [hk] at hpending
    exact hpending
  · intro vote
    rw [afterAll_append, afterAll_cons, afterAll_nil]
    constructor
    · intro hlen
      apply record_of_room
      omega
    · intro hlen
      have hfull : ((new k).afterAll votes).pending = 0 := by omega
      have hrecord := record_of_full hfull vote
      rw [hk] at hrecord
      exact ⟨hrecord, after_of_full hfull vote⟩

/-- Six votes for four peers: two abstentions settle it, and the last two votes are refused. -/
theorem status_of_run_four_peers :
    ((new 4).afterAll [.yes, .abstain, .abstain, .yes, .yes, .yes]).status = .unreachable ∧
    ((new 4).afterAll [.yes, .abstain, .abstain, .yes, .yes, .yes]).record .yes = .error (.overfull 4) := by
  obtain ⟨-, -, hfinal, -, -, -, hvote⟩ := status_of_run 4 [.yes, .abstain, .abstain]
  obtain ⟨-, -, -, -, -, -, hrefused⟩ := status_of_run 4 [.yes, .abstain, .abstain, .yes, .yes, .yes]
  exact ⟨hfinal (by decide) [.yes, .yes, .yes], ((hrefused .yes).2 (by decide)).1⟩

end SupraHarness.Types.QuorumTally
