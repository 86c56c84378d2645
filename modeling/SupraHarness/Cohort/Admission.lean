import SupraHarness.Types.Cohort
import SupraHarness.Types.Lineage
import Mathlib.Data.Finset.Card

/-!
# Tiers

How much evidence a task carries, and the cohort sizes it earns. The sizes that no
tier selects are never fielded: the peer limit lowers the tier, and the tier selects
the size.
-/
namespace SupraHarness.Types

/-- How much evidence a task carries. -/
inductive Tier where
  | e0 | e1 | e2 | e3 | e4 | e5
  deriving DecidableEq, Repr

namespace Tier

def rank : Tier → Nat
  | e0 => 0
  | e1 => 1
  | e2 => 2
  | e3 => 3
  | e4 => 4
  | e5 => 5

instance tierLe : LE Tier := ⟨fun a b => a.rank ≤ b.rank⟩

instance tierMax : Max Tier := ⟨fun a b => if a.rank ≤ b.rank then b else a⟩

instance tierMin : Min Tier := ⟨fun a b => if a.rank ≤ b.rank then a else b⟩

/-- Every tier, ascending. -/
def all : List Tier := [e0, e1, e2, e3, e4, e5]

/-- The cohort sizes a tier selects from, inclusive. -/
def kRange : Tier → Nat × Nat
  | e0 => (1, 1)
  | e1 => (2, 2)
  | e2 => (3, 5)
  | e3 => (7, 12)
  | e4 => (16, 32)
  | e5 => (33, peerCeiling)

/-- The tier that selects `k`, if any. -/
def containing (k : Nat) : Option Tier := all.find? fun tier => tier.kRange.1 ≤ k && k ≤ tier.kRange.2

/-- The strongest tier that can run within a peer limit. -/
def largestWithin (limit : Nat) : Option Tier := all.reverse.find? fun tier => tier.kRange.1 ≤ limit

/-- Cohort size for a tier under a peer limit. -/
def kForLimit (tier : Tier) (limit : Nat) : Nat :=
  if limit < tier.kRange.1 then 0 else if tier.kRange.2 < limit then tier.kRange.2 else limit

theorem le_def {a b : Tier} : a ≤ b ↔ a.rank ≤ b.rank := Iff.rfl

theorem rank_injective {a b : Tier} (h : a.rank = b.rank) : a = b := by
  cases a <;> cases b <;> simp_all [rank]

theorem rank_le_five (tier : Tier) : tier.rank ≤ 5 := by cases tier <;> simp [rank]

theorem rank_max (a b : Tier) : (max a b).rank = max a.rank b.rank := by
  change (if a.rank ≤ b.rank then b else a).rank = _
  split <;> omega

theorem rank_min (a b : Tier) : (min a b).rank = min a.rank b.rank := by
  change (if a.rank ≤ b.rank then a else b).rank = _
  split <;> omega

theorem mem_all (tier : Tier) : tier ∈ all := by cases tier <;> simp [all]

/-- The ranges are not empty, and those of stronger tiers lie above. -/
theorem kRange_apart {a b : Tier} (h : a.rank < b.rank) : a.kRange.2 < b.kRange.1 := by
  cases a <;> cases b <;> simp_all [rank, kRange, peerCeiling]

theorem kRange_inhabited (tier : Tier) : 0 < tier.kRange.1 ∧ tier.kRange.1 ≤ tier.kRange.2 := by
  cases tier <;> simp [kRange, peerCeiling]

/-- A tier contains the sizes of its range. -/
theorem containing_eq_some_iff {k : Nat} {tier : Tier} :
    containing k = some tier ↔ tier.kRange.1 ≤ k ∧ k ≤ tier.kRange.2 := by
  have hsound : ∀ {t : Tier}, containing k = some t → t.kRange.1 ≤ k ∧ k ≤ t.kRange.2 := by
    intro t h
    simpa using List.find?_some h
  constructor
  · exact hsound
  · intro h
    cases hc : containing k with
    | none => exact absurd h (by simpa using List.find?_eq_none.mp hc tier (mem_all tier))
    | some found =>
      have hfound := hsound hc
      rcases Nat.lt_trichotomy found.rank tier.rank with hlt | heq | hgt
      · have := kRange_apart hlt
        omega
      · rw [rank_injective heq]
      · have := kRange_apart hgt
        omega

/-- The strongest tier within a limit is the strongest whose smallest cohort fits. -/
theorem largestWithin_eq_some {limit : Nat} {tier : Tier} (h : largestWithin limit = some tier) :
    tier.kRange.1 ≤ limit ∧ ∀ other : Tier, other.kRange.1 ≤ limit → other ≤ tier := by
  have hfits : tier.kRange.1 ≤ limit := by simpa using List.find?_some h
  refine ⟨hfits, ?_⟩
  intro other hother
  obtain ⟨-, before, after, hsplit, hbefore⟩ := List.find?_eq_some_iff_append.mp h
  rw [le_def]
  by_contra hlt
  have hmem : other ∈ before := by
    cases tier <;> cases other <;> simp_all [rank, kRange, all, List.cons_eq_append_iff]
  have := hbefore other hmem
  simp at this
  omega

theorem largestWithin_eq_none_iff {limit : Nat} : largestWithin limit = none ↔ limit = 0 := by
  rw [largestWithin, List.find?_eq_none]
  constructor
  · intro h
    have hsmallest := h e0 (by simp [all])
    change ¬ decide (1 ≤ limit) = true at hsmallest
    rw [decide_eq_true_iff] at hsmallest
    omega
  · rintro rfl tier -
    have hpos := (kRange_inhabited tier).1
    rw [decide_eq_true_iff]
    omega

end Tier

/-- Ascending severity. -/
def Reversibility.rank : Reversibility → Nat
  | r0 => 0
  | r1 => 1
  | r2 => 2
  | r3 => 3

/-- Faulty peers a cohort of `k` can absorb: `floor((k-1)/3)`. -/
def byzantineTolerance (k : Nat) : Nat := if k = 0 then 0 else (k - 1) / 3

/-- Resolve a requested tier and a peer limit to what actually runs. -/
def admitWithin (requested : Tier) (limit : Nat) : Option (Tier × Nat) :=
  (Tier.largestWithin limit).map fun ceiling => (min requested ceiling, (min requested ceiling).kForLimit limit)

end SupraHarness.Types

/-!
## Admission

The record of a cohort that runs. Any two sets of peers that carry a claim share a peer that
is not faulty, and the peers that are not faulty can carry one by themselves.
-/
namespace SupraHarness.Cohort

open Types

/-- The cohort that will actually run. -/
structure Admission where
  requested : Tier
  tier : Tier
  k : Nat
  needed : Nat
  faulty : Nat
  shards : Nat
  limit : Nat
  deriving DecidableEq, Repr

namespace Admission

/-- Admit a requested tier under a peer limit. -/
def decide (requested : Tier) (limit : Nat) : Option Admission :=
  (admitWithin requested limit).map fun field =>
    ⟨requested, field.1, field.2, quorum field.2, byzantineTolerance field.2, shardsNeeded field.2, limit⟩

/-- Whether the limit reduced the requested tier. -/
def reduced (admission : Admission) : Bool := admission.tier ≠ admission.requested

theorem decide_eq_none_iff {requested : Tier} {limit : Nat} : decide requested limit = none ↔ limit = 0 := by
  simp [decide, admitWithin, Tier.largestWithin_eq_none_iff]

theorem decide_eq_some {requested : Tier} {limit : Nat} {admission : Admission}
    (h : decide requested limit = some admission) :
    ∃ ceiling, Tier.largestWithin limit = some ceiling ∧
      admission = ⟨requested, min requested ceiling, (min requested ceiling).kForLimit limit,
        quorum ((min requested ceiling).kForLimit limit), byzantineTolerance ((min requested ceiling).kForLimit limit),
        shardsNeeded ((min requested ceiling).kForLimit limit), limit⟩ := by
  simp only [decide, admitWithin, Option.map_map, Option.map_eq_some_iff] at h
  obtain ⟨ceiling, hceiling, rfl⟩ := h
  exact ⟨ceiling, hceiling, rfl⟩

/-- What is known of the cohort of a decision. -/
structure Fits (requested : Tier) (limit : Nat) (admission : Admission) : Prop where
  granted : admission.requested = requested ∧ admission.limit = limit
  within : admission.k ≤ limit
  inside : admission.tier.kRange.1 ≤ admission.k ∧ admission.k ≤ admission.tier.kRange.2
  lowered : admission.tier ≤ requested
  strongest : ∀ tier : Tier, tier ≤ requested → tier.kRange.1 ≤ limit → tier ≤ admission.tier
  largest : ∀ n, n ≤ limit → n ≤ admission.tier.kRange.2 → n ≤ admission.k
  numbers : admission.needed = quorum admission.k ∧ admission.faulty = byzantineTolerance admission.k ∧
    admission.shards = shardsNeeded admission.k

theorem fits_of_decide {requested : Tier} {limit : Nat} {admission : Admission}
    (h : decide requested limit = some admission) : Fits requested limit admission := by
  obtain ⟨ceiling, hceiling, rfl⟩ := decide_eq_some h
  obtain ⟨hfits, hstrongest⟩ := Tier.largestWithin_eq_some hceiling
  have hrank := Tier.rank_min requested ceiling
  have hlow : (min requested ceiling).kRange.1 ≤ limit := by
    rcases Nat.lt_or_ge (min requested ceiling).rank ceiling.rank with hlt | hge
    · have hbelow := Tier.kRange_apart hlt
      have hinhabited := Tier.kRange_inhabited (min requested ceiling)
      omega
    · rw [Tier.rank_injective (show (min requested ceiling).rank = ceiling.rank by omega)]
      exact hfits
  have hinhabited := Tier.kRange_inhabited (min requested ceiling)
  have hk : (min requested ceiling).kForLimit limit = min (min requested ceiling).kRange.2 limit := by
    rw [Tier.kForLimit, if_neg (by omega)]
    split <;> omega
  have hinside : (min requested ceiling).kRange.1 ≤ (min requested ceiling).kForLimit limit ∧
      (min requested ceiling).kForLimit limit ≤ (min requested ceiling).kRange.2 := by
    rw [hk]
    exact ⟨le_min hinhabited.2 hlow, min_le_left _ _⟩
  have hlowered : (min requested ceiling).rank ≤ requested.rank := by omega
  refine ⟨⟨rfl, rfl⟩, hk.trans_le (min_le_right _ _), hinside, hlowered, ?_, ?_, rfl, rfl, rfl⟩
  · intro tier hrequested hsmallest
    have hother := hstrongest tier hsmallest
    rw [Tier.le_def] at hrequested hother
    change tier.rank ≤ (min requested ceiling).rank
    omega
  · intro n hlimit hrange
    exact (le_min hrange hlimit).trans_eq hk.symm

/-- A stronger request or a wider limit never fields a weaker tier or fewer peers. -/
theorem Fits.mono {requested requested' : Tier} {limit limit' : Nat} {before after : Admission}
    (h : Fits requested limit before) (h' : Fits requested' limit' after) (hrequested : requested ≤ requested')
    (hlimit : limit ≤ limit') : before.tier ≤ after.tier ∧ before.k ≤ after.k := by
  have hlowered := h.lowered
  have htier : before.tier ≤ after.tier := by
    apply h'.strongest
    · rw [Tier.le_def] at hlowered hrequested ⊢
      omega
    · exact h.inside.1.trans (h.within.trans hlimit)
  refine ⟨htier, ?_⟩
  rw [Tier.le_def] at htier
  rcases Nat.lt_or_ge before.tier.rank after.tier.rank with hlt | hge
  · have hapart := Tier.kRange_apart hlt
    have hbefore := h.inside.2
    have hafter := h'.inside.1
    omega
  · have hsame := Tier.rank_injective (Nat.le_antisymm htier hge)
    apply h'.largest _ (h.within.trans hlimit)
    rw [← hsame]
    exact h.inside.2

/-- A limit of zero admits nothing; every other one fields the strongest tier it has room for that was asked for, at
the largest size of that tier within the limit, and never a size between the tiers. -/
theorem decide_fields_strongest (requested : Tier) (limit : Nat) :
    (decide requested limit = none ↔ limit = 0) ∧
      ∀ admission, decide requested limit = some admission →
        admission.k ≤ limit ∧ Tier.containing admission.k = some admission.tier ∧
          (∀ tier, tier ≤ admission.tier ↔ tier ≤ requested ∧ tier.kRange.1 ≤ limit) ∧
          (∀ n ≤ limit, Tier.containing n = some admission.tier → n ≤ admission.k) ∧
          (admission.reduced = true ↔ limit < requested.kRange.1) := by
  refine ⟨decide_eq_none_iff, ?_⟩
  intro admission h
  have hfits := fits_of_decide h
  have hlowered := hfits.lowered
  have hlow := hfits.inside.1.trans hfits.within
  refine ⟨hfits.within, Tier.containing_eq_some_iff.mpr hfits.inside, ?_, ?_, ?_⟩
  · intro tier
    constructor
    · intro htier
      rw [Tier.le_def] at htier hlowered ⊢
      refine ⟨htier.trans hlowered, ?_⟩
      rcases Nat.lt_or_ge tier.rank admission.tier.rank with hlt | hge
      · have hapart := Tier.kRange_apart hlt
        have hinhabited := Tier.kRange_inhabited tier
        omega
      · rw [Tier.rank_injective (Nat.le_antisymm htier hge)]
        exact hlow
    · rintro ⟨hrequested, hsmallest⟩
      exact hfits.strongest tier hrequested hsmallest
  · intro n hn hcontains
    exact hfits.largest n hn (Tier.containing_eq_some_iff.mp hcontains).2
  · rw [reduced, decide_eq_true_iff, hfits.granted.1]
    constructor
    · intro hne
      by_contra hroom
      have hstrong := hfits.strongest requested (Nat.le_refl _) (Nat.le_of_not_lt hroom)
      exact hne (Tier.rank_injective (Nat.le_antisymm hlowered hstrong))
    · intro hshort heq
      rw [heq] at hlow
      omega

/-! ### Quorums -/

variable {α : Type*} [DecidableEq α]

/-- Two sets of the peers share at least as many as their sizes exceed the cohort by. -/
theorem card_add_card_le {peers s t : Finset α} (hs : s ⊆ peers) (ht : t ⊆ peers) :
    s.card + t.card ≤ (s ∩ t).card + peers.card := by
  have hunion := Finset.card_le_card (Finset.union_subset hs ht)
  have hsum := Finset.card_union_add_card_inter s t
  omega

theorem overlap_lt (k : Nat) (hk : 0 < k) : byzantineTolerance k + k < 2 * quorum k := by
  have hquorum := (quorum_le_iff (k := k)).mp (Nat.le_refl _)
  rw [byzantineTolerance, if_neg (by omega)]
  omega

theorem quorum_le_sound (k : Nat) : quorum k + byzantineTolerance k ≤ k := by
  unfold quorum byzantineTolerance
  split <;> omega

/-- In every cohort that is admitted, two sets of peers that each carry a claim share more peers than may be faulty,
and whichever peers are faulty, no more than the cohort absorbs, the others can carry a claim without them. -/
theorem quorums_share_sound {requested : Tier} {limit : Nat} {admission : Admission}
    (h : decide requested limit = some admission) {peers : Finset α} (hpeers : peers.card = admission.k) :
    (∀ s ⊆ peers, ∀ t ⊆ peers, admission.needed ≤ s.card → admission.needed ≤ t.card →
        admission.faulty < (s ∩ t).card) ∧
      ∀ bad ⊆ peers, bad.card ≤ admission.faulty → admission.needed ≤ (peers \ bad).card := by
  have hfits := fits_of_decide h
  obtain ⟨hneeded, hfaulty, -⟩ := hfits.numbers
  have hpos := (Tier.kRange_inhabited admission.tier).1.trans_le hfits.inside.1
  constructor
  · intro s hs t ht hscarries htcarries
    have hshare := card_add_card_le hs ht
    have hoverlap := overlap_lt admission.k hpos
    omega
  · intro bad hbad hfew
    rw [Finset.card_sdiff_of_subset hbad]
    have hsound := quorum_le_sound admission.k
    omega

/-- Of four peers, two sets of three share two. -/
theorem quorums_share_sound_four :
    decide .e2 4 = some ⟨.e2, .e2, 4, 3, 1, 1, 4⟩ ∧ 1 < (({0, 1, 2} : Finset (Fin 4)) ∩ {1, 2, 3}).card :=
  ⟨rfl, (@quorums_share_sound (Fin 4) _ .e2 4 ⟨.e2, .e2, 4, 3, 1, 1, 4⟩ rfl Finset.univ rfl).1 _
    (Finset.subset_univ _) _ (Finset.subset_univ _) (Nat.le_refl 3) (Nat.le_refl 3)⟩

end Admission

/-! ## Escalation -/

/-- What the turn loop does when a cohort cannot carry its claim. -/
inductive Escalation where
  | unreachableQuorum | blindMismatch | findingConfirmed
  deriving DecidableEq, Repr

/-- The tier the next attempt earns. -/
def Escalation.nextTier : Escalation → Tier → Tier
  | .unreachableQuorum, current | .blindMismatch, current =>
    match current with
    | .e0 | .e1 => .e2
    | .e2 => .e3
    | .e3 => .e4
    | .e4 | .e5 => .e5
  | .findingConfirmed, current =>
    match current with
    | .e0 => .e1
    | .e1 => .e2
    | .e2 => .e3
    | .e3 => .e4
    | .e4 | .e5 => .e5

/-- One escalation is one step at least, and saturates. -/
theorem Escalation.rank_nextTier (escalation : Escalation) (current : Tier) :
    min 5 (current.rank + 1) ≤ (escalation.nextTier current).rank := by
  cases escalation <;> cases current <;> simp [nextTier, Tier.rank]

/-- Only a confirmed finding leads to E1. -/
theorem Escalation.two_le_nextTier {escalation : Escalation} (h : escalation ≠ .findingConfirmed) (current : Tier) :
    2 ≤ (escalation.nextTier current).rank := by
  cases escalation <;> cases current <;> simp_all [nextTier, Tier.rank]

/-- The tier that the attempts after some escalations earn. -/
def escalate (current : Tier) (escalations : List Escalation) : Tier :=
  escalations.foldl (fun tier escalation => escalation.nextTier tier) current

theorem rank_escalate (current : Tier) (escalations : List Escalation) :
    min 5 (current.rank + escalations.length) ≤ (escalate current escalations).rank := by
  induction escalations generalizing current with
  | nil => simp [escalate]
  | cons escalation rest ih =>
    have hstep := escalation.rank_nextTier current
    have hrest := ih (escalation.nextTier current)
    rw [List.length_cons]
    change _ ≤ (escalate (escalation.nextTier current) rest).rank
    omega

theorem escalate_append (current : Tier) (front back : List Escalation) :
    escalate current (front ++ back) = escalate (escalate current front) back := by
  simp [escalate]

theorem two_le_escalate {current : Tier} {escalations : List Escalation} {escalation : Escalation}
    (hmem : escalation ∈ escalations) (h : escalation ≠ .findingConfirmed) :
    2 ≤ (escalate current escalations).rank := by
  obtain ⟨front, back, rfl⟩ := List.append_of_mem hmem
  have hstep := Escalation.two_le_nextTier h (escalate current front)
  have hback := rank_escalate (escalation.nextTier (escalate current front)) back
  rw [escalate_append]
  change 2 ≤ (escalate (escalation.nextTier (escalate current front)) back).rank
  omega

/-- However the attempts of a task fail, under one limit or a raised one each fields at least the tier and the peers
of those before it, five failures earn the full scrutiny, and a quorum out of reach or a blind mismatch earns
independent review for good. -/
theorem escalation_never_fields_less (current : Tier) (front back : List Escalation) :
    (∀ limit limit' before after, limit ≤ limit' →
      Admission.decide (escalate current front) limit = some before →
      Admission.decide (escalate current (front ++ back)) limit' = some after →
        before.tier ≤ after.tier ∧ before.k ≤ after.k) ∧
      (5 ≤ back.length → escalate current (front ++ back) = .e5) ∧
      ∀ escalation ∈ front, escalation ≠ .findingConfirmed → .e2 ≤ escalate current (front ++ back) := by
  have hback := rank_escalate (escalate current front) back
  have hle := (escalate current front).rank_le_five
  have hle' := (escalate current (front ++ back)).rank_le_five
  rw [escalate_append] at hle' ⊢
  refine ⟨?_, ?_, ?_⟩
  · intro limit limit' before after hlimit hbefore hafter
    apply (Admission.fits_of_decide hbefore).mono (Admission.fits_of_decide hafter) _ hlimit
    rw [Tier.le_def]
    omega
  · intro hmany
    apply Tier.rank_injective
    change _ = 5
    omega
  · intro escalation hmem hne
    have htwo := @two_le_escalate current front escalation hmem hne
    rw [Tier.le_def]
    change 2 ≤ _
    omega

/-!
## The ladder

Evidence to tier. The rules are stated strongest first, and every one that matches sets a floor;
the tier is the strongest floor, so neither the order of the rules nor more evidence can lower it.
-/

inductive BlastBand where
  | isolated | contained | wide
  deriving DecidableEq, Repr

def BlastBand.of (dependents : Nat) : BlastBand :=
  if dependents ≤ 1 then .isolated else if dependents ≤ 10 then .contained else .wide

inductive ChurnBand where
  | calm | active | hot
  deriving DecidableEq, Repr

def ChurnBand.of (commits90d : Nat) : ChurnBand :=
  if commits90d = 0 then .calm else if commits90d ≤ 5 then .active else .hot

inductive AnchorBand where
  | none | few | many
  deriving DecidableEq, Repr

def AnchorBand.of (anchors : Nat) : AnchorBand :=
  if anchors = 0 then .none else if anchors ≤ 4 then .few else .many

/-- The evidence tier estimation reads. -/
structure Signals where
  blast : BlastBand
  churn : ChurnBand
  anchors : AnchorBand
  reversibility : Reversibility
  activeFindings : Nat
  repeatFailures : Nat
  deriving DecidableEq, Repr

def Signals.minimal : Signals := ⟨.isolated, .calm, .none, .r0, 0, 0⟩

structure AreaFlags where
  sensitiveArea : Bool
  forceFull : Bool
  deriving DecidableEq, Repr

/-- Estimate the tier for a task from its signals. -/
def estimate (signals : Signals) (areas : AreaFlags) : Tier :=
  let tier := Tier.e0
  let tier := if areas.forceFull ∨ 2 ≤ signals.repeatFailures then max tier .e5 else tier
  let tier := if areas.sensitiveArea ∨ 0 < signals.activeFindings then max tier .e4 else tier
  let tier := if signals.blast = .wide ∨ signals.churn = .hot then max tier .e3 else tier
  let tier := if signals.blast = .contained ∨ signals.anchors = .many ∨ signals.churn = .active ∨
    signals.reversibility = .r3 then max tier .e2 else tier
  if signals.reversibility ≠ .r0 ∨ signals.anchors = .few then max tier .e1 else tier

/-- A rule of the ladder: whether it matches, and the floor it sets. -/
def ladder (signals : Signals) (areas : AreaFlags) : List (Bool × Tier) :=
  [(areas.forceFull ∨ 2 ≤ signals.repeatFailures, .e5), (areas.sensitiveArea ∨ 0 < signals.activeFindings, .e4),
    (signals.blast = .wide ∨ signals.churn = .hot, .e3),
    (signals.blast = .contained ∨ signals.anchors = .many ∨ signals.churn = .active ∨ signals.reversibility = .r3, .e2),
    (signals.reversibility ≠ .r0 ∨ signals.anchors = .few, .e1)]

def raise (tier : Tier) (rule : Bool × Tier) : Tier := if rule.1 then max tier rule.2 else tier

theorem rank_raise (tier : Tier) (rule : Bool × Tier) :
    (raise tier rule).rank = max tier.rank (if rule.1 then rule.2.rank else 0) := by
  unfold raise
  split
  · rw [Tier.rank_max]
  · rw [Nat.max_zero]

theorem estimate_eq (signals : Signals) (areas : AreaFlags) :
    estimate signals areas = (ladder signals areas).foldl raise .e0 := by
  simp only [estimate, ladder, raise, List.foldl_cons, List.foldl_nil, decide_eq_true_iff]

/-- The tier is as strong as the strongest floor. -/
theorem le_foldl_raise_iff (rules : List (Bool × Tier)) (start : Tier) (n : Nat) :
    n ≤ (rules.foldl raise start).rank ↔ n ≤ start.rank ∨ ∃ rule ∈ rules, rule.1 = true ∧ n ≤ rule.2.rank := by
  induction rules generalizing start with
  | nil => simp
  | cons rule rules ih =>
    rw [List.foldl_cons, ih, rank_raise, le_max_iff, List.exists_mem_cons_iff, or_assoc]
    cases hrule : rule.1
    · simp only [Bool.false_eq_true, if_false, false_and, false_or]
      constructor
      · rintro (h | h | h)
        · exact .inl h
        · exact .inl (h.trans (Nat.zero_le _))
        · exact .inr h
      · exact fun h => h.imp_right .inr
    · simp

/-- Whether a floor is set does not depend on the place of its rule. -/
theorem rank_foldl_raise_le {rules others : List (Bool × Tier)} (h : rules ⊆ others) (start : Tier) :
    (rules.foldl raise start).rank ≤ (others.foldl raise start).rank := by
  rw [le_foldl_raise_iff]
  obtain hstart | ⟨rule, hmem, hrule⟩ := (le_foldl_raise_iff rules start _).mp (Nat.le_refl _)
  · exact .inl hstart
  · exact .inr ⟨rule, h hmem, hrule⟩

/-- The bands in their order. -/
def BlastBand.rank : BlastBand → Nat
  | isolated => 0
  | contained => 1
  | wide => 2

def ChurnBand.rank : ChurnBand → Nat
  | calm => 0
  | active => 1
  | hot => 2

def AnchorBand.rank : AnchorBand → Nat
  | none => 0
  | few => 1
  | many => 2

theorem BlastBand.rank_iff (band : BlastBand) :
    (band = .wide ↔ 2 ≤ band.rank) ∧ (band = .contained ↔ band.rank = 1) := by
  cases band <;> simp [rank]

theorem ChurnBand.rank_iff (band : ChurnBand) : (band = .hot ↔ 2 ≤ band.rank) ∧ (band = .active ↔ band.rank = 1) := by
  cases band <;> simp [rank]

theorem AnchorBand.rank_iff (band : AnchorBand) : (band = .many ↔ 2 ≤ band.rank) ∧ (band = .few ↔ band.rank = 1) := by
  cases band <;> simp [rank]

theorem reversibility_rank_iff (r : Reversibility) : (r = .r3 ↔ 3 ≤ r.rank) ∧ (r ≠ .r0 ↔ 1 ≤ r.rank) := by
  cases r <;> simp [Reversibility.rank]

theorem BlastBand.rank_of {n m : Nat} (h : n ≤ m) : (BlastBand.of n).rank ≤ (BlastBand.of m).rank := by
  unfold BlastBand.of
  split_ifs <;> first | omega | simp [rank]

theorem ChurnBand.rank_of {n m : Nat} (h : n ≤ m) : (ChurnBand.of n).rank ≤ (ChurnBand.of m).rank := by
  unfold ChurnBand.of
  split_ifs <;> first | omega | simp [rank]

theorem AnchorBand.rank_of {n m : Nat} (h : n ≤ m) : (AnchorBand.of n).rank ≤ (AnchorBand.of m).rank := by
  unfold AnchorBand.of
  split_ifs <;> first | omega | simp [rank]

/-- More evidence: no band lower, no count smaller, no flag withdrawn. -/
structure Outweighs (more less : Signals) : Prop where
  blast : less.blast.rank ≤ more.blast.rank
  churn : less.churn.rank ≤ more.churn.rank
  anchors : less.anchors.rank ≤ more.anchors.rank
  reversibility : less.reversibility.rank ≤ more.reversibility.rank
  findings : less.activeFindings ≤ more.activeFindings
  failures : less.repeatFailures ≤ more.repeatFailures

/-- What makes a tier at least as strong as a rank. -/
theorem le_estimate_iff (signals : Signals) (areas : AreaFlags) (n : Nat) :
    n ≤ (estimate signals areas).rank ↔ n = 0 ∨
      (n ≤ 5 ∧ (areas.forceFull = true ∨ 2 ≤ signals.repeatFailures)) ∨
      (n ≤ 4 ∧ (areas.sensitiveArea = true ∨ 0 < signals.activeFindings)) ∨
      (n ≤ 3 ∧ (2 ≤ signals.blast.rank ∨ 2 ≤ signals.churn.rank)) ∨
      (n ≤ 2 ∧ (1 ≤ signals.blast.rank ∨ 2 ≤ signals.anchors.rank ∨ 1 ≤ signals.churn.rank ∨
        3 ≤ signals.reversibility.rank)) ∨
      (n ≤ 1 ∧ (1 ≤ signals.reversibility.rank ∨ 1 ≤ signals.anchors.rank)) := by
  rw [estimate_eq, le_foldl_raise_iff]
  simp only [ladder, List.exists_mem_cons_iff, List.not_mem_nil, false_and, exists_false, or_false, decide_eq_true_iff,
    (signals.blast.rank_iff).1, (signals.blast.rank_iff).2, (signals.churn.rank_iff).1, (signals.churn.rank_iff).2,
    (signals.anchors.rank_iff).1, (signals.anchors.rank_iff).2, (reversibility_rank_iff signals.reversibility).1,
    (reversibility_rank_iff signals.reversibility).2, Tier.rank]
  by_cases hforce : areas.forceFull = true <;> by_cases hsensitive : areas.sensitiveArea = true <;>
    simp only [hforce, hsensitive, true_or, Bool.false_eq_true, false_or, true_and, and_true] <;> omega

theorem estimate_mono {more less : Signals} {areas areas' : AreaFlags} (h : Outweighs more less)
    (hsensitive : areas.sensitiveArea = true → areas'.sensitiveArea = true)
    (hforce : areas.forceFull = true → areas'.forceFull = true) : estimate less areas ≤ estimate more areas' := by
  obtain ⟨hblast, hchurn, hanchors, hreversibility, hfindings, hfailures⟩ := h
  rw [Tier.le_def, le_estimate_iff]
  rcases (le_estimate_iff less areas _).mp (Nat.le_refl _) with h | ⟨hn, h⟩ | ⟨hn, h⟩ | ⟨hn, h⟩ | ⟨hn, h⟩ | ⟨hn, h⟩
  · exact .inl h
  · exact .inr (.inl ⟨hn, h.imp hforce fun h => h.trans hfailures⟩)
  · exact .inr (.inr (.inl ⟨hn, h.imp hsensitive fun h => h.trans_le hfindings⟩))
  · omega
  · omega
  · omega

/-- The tier does not depend on the order in which the rules are tried, and a task that is measured at least as high
in everything earns at least the tier, and within one limit at least the tier and the peers that are fielded. -/
theorem estimate_order_free_mono (areas areas' : AreaFlags) (reversibility reversibility' : Reversibility)
    (dependents commits anchors findings failures : Nat) (dependents' commits' anchors' findings' failures' : Nat)
    (hdependents : dependents ≤ dependents') (hcommits : commits ≤ commits') (hanchors : anchors ≤ anchors')
    (hreversibility : reversibility.rank ≤ reversibility'.rank) (hfindings : findings ≤ findings')
    (hfailures : failures ≤ failures') (hsensitive : areas.sensitiveArea = true → areas'.sensitiveArea = true)
    (hforce : areas.forceFull = true → areas'.forceFull = true) :
    let less : Signals := ⟨.of dependents, .of commits, .of anchors, reversibility, findings, failures⟩
    let more : Signals := ⟨.of dependents', .of commits', .of anchors', reversibility', findings', failures'⟩
    (∀ rules : List (Bool × Tier), rules.Perm (ladder less areas) → rules.foldl raise .e0 = estimate less areas) ∧
      estimate less areas ≤ estimate more areas' ∧
      ∀ limit before after, Admission.decide (estimate less areas) limit = some before →
        Admission.decide (estimate more areas') limit = some after → before.tier ≤ after.tier ∧ before.k ≤ after.k := by
  intro less more
  have hmono : estimate less areas ≤ estimate more areas' :=
    estimate_mono ⟨BlastBand.rank_of hdependents, ChurnBand.rank_of hcommits, AnchorBand.rank_of hanchors,
      hreversibility, hfindings, hfailures⟩ hsensitive hforce
  refine ⟨?_, hmono, ?_⟩
  · intro rules hperm
    apply Tier.rank_injective
    rw [estimate_eq]
    apply Nat.le_antisymm
    · exact rank_foldl_raise_le hperm.subset .e0
    · exact rank_foldl_raise_le hperm.symm.subset .e0
  · intro limit before after hbefore hafter
    exact (Admission.fits_of_decide hbefore).mono (Admission.fits_of_decide hafter) hmono (Nat.le_refl _)

/-- A read of one file beside one with a finding in a file that has been reworked. -/
theorem estimate_order_free_mono_finding :
    estimate ⟨.of 0, .of 0, .of 1, .r0, 0, 0⟩ ⟨false, false⟩ ≤
      estimate ⟨.of 0, .of 9, .of 1, .r1, 1, 0⟩ ⟨false, false⟩ :=
  (estimate_order_free_mono ⟨false, false⟩ ⟨false, false⟩ .r0 .r1 0 0 1 0 0 0 9 1 1 0 (by decide) (by decide)
    (by decide) (by decide) (by decide) (by decide) id id).2.1

end SupraHarness.Cohort
