import Mathlib.Algebra.GroupWithZero.Nat
import Mathlib.Data.Fintype.Perm
import Mathlib.Data.Int.Order.Basic
import Mathlib.Data.List.FinRange
import SupraHarness.Lib.OrdMap
import SupraHarness.Lib.Selection

/-!
# Reciprocal rank fusion

Ranked lanes are combined over ranks: the score of a slot is the sum of what its positions
contribute, and the slots are ordered by score and then by slot. Each result lists the lanes that
returned it, by their place in what was passed.
-/
namespace SupraHarness.Vector

open Selection

def rrfK : Nat := 60

def rrfScale : Nat := 10000000

/-- One entry's position in one lane, counted from one. -/
structure LaneRank where
  lane : Nat
  rank : Nat
  deriving DecidableEq, Repr

structure Fused where
  slot : Int
  score : Nat
  lanes : List LaneRank
  deriving DecidableEq, Repr

/-- By score descending, then by slot ascending. -/
def Fused.le (a b : Fused) : Bool := b.score < a.score || (a.score == b.score && a.slot ≤ b.slot)

def contribution (rank : Nat) : Nat := rrfScale / (rrfK + rank)

/-- The results under construction, and the position of each slot in them. -/
structure Fusion where
  fused : List Fused
  seen : OrdMap Int Nat

namespace Fusion

def empty : Fusion := ⟨[], OrdMap.empty⟩

/-- One position of one lane. -/
def add (state : Fusion) (slot : Int) (at_ : LaneRank) : Fusion :=
  match state.seen.get slot with
  | some position =>
    { state with
      fused := state.fused.modify position fun entry =>
        { entry with score := entry.score + contribution at_.rank, lanes := entry.lanes ++ [at_] } }
  | none =>
    ⟨state.fused ++ [⟨slot, contribution at_.rank, [at_]⟩], state.seen.insert slot state.fused.length⟩

/-- The positions of one lane, the best first. -/
def addLane (state : Fusion) (lane : Nat) (ranked : List Int) : Fusion :=
  ranked.zipIdx.foldl (fun state entry => state.add entry.1 ⟨lane, entry.2 + 1⟩) state

end Fusion

/-- Combine ranked lanes. -/
def fuse (lanes : List (List Int)) : List Fused :=
  let state := lanes.zipIdx.foldl (fun state lane => state.addLane lane.2 lane.1) Fusion.empty
  state.fused.mergeSort Fused.le

/-! ## Occurrences -/

/-- The positions of the slots in one lane. -/
def laneOccurrences (lane : Nat) (ranked : List Int) : List (Int × LaneRank) :=
  ranked.zipIdx.map fun entry => (entry.1, ⟨lane, entry.2 + 1⟩)

/-- All positions, lane by lane. -/
def occurrences (lanes : List (List Int)) : List (Int × LaneRank) :=
  lanes.zipIdx.flatMap fun lane => laneOccurrences lane.2 lane.1

def ranksIn (slot : Int) (found : List (Int × LaneRank)) : List LaneRank :=
  (found.filter fun entry => entry.1 = slot).map Prod.snd

/-- The positions of a slot. -/
def ranksOf (lanes : List (List Int)) (slot : Int) : List LaneRank := ranksIn slot (occurrences lanes)

/-- The sum of what some positions contribute. -/
def scoreOf (ranks : List LaneRank) : Nat := (ranks.map fun at_ => contribution at_.rank).sum

theorem ranksIn_snoc (slot slot' : Int) (at_ : LaneRank) (found : List (Int × LaneRank)) :
    ranksIn slot (found ++ [(slot', at_)]) = ranksIn slot found ++ if slot' = slot then [at_] else [] := by
  rw [ranksIn, List.filter_append, List.map_append, ranksIn]
  by_cases h : slot' = slot
  · simp [h]
  · simp [h]

theorem scoreOf_snoc (ranks : List LaneRank) (at_ : LaneRank) :
    scoreOf (ranks ++ [at_]) = scoreOf ranks + contribution at_.rank := by
  simp [scoreOf]

theorem map_fst_laneOccurrences {lane : Nat} {ranked : List Int} : (laneOccurrences lane ranked).map Prod.fst = ranked := by
  rw [laneOccurrences, List.map_map]
  exact List.zipIdx_map_fst 0 ranked

theorem mem_occurrences {lanes : List (List Int)} {slot : Int} :
    slot ∈ (occurrences lanes).map Prod.fst ↔ ∃ lane ∈ lanes, slot ∈ lane := by
  simp only [occurrences, List.map_flatMap, map_fst_laneOccurrences, List.mem_flatMap]
  constructor
  · rintro ⟨⟨lane, i⟩, hlane, hslot⟩
    exact ⟨lane, List.mem_of_getElem? (List.mem_zipIdx_iff_getElem?.mp hlane), hslot⟩
  · rintro ⟨lane, hlane, hslot⟩
    obtain ⟨i, hi⟩ := List.mem_iff_getElem?.mp hlane
    exact ⟨(lane, i), List.mem_zipIdx_iff_getElem?.mpr hi, hslot⟩

/-! ## The accumulation -/

/-- The state holds what was found: one entry for each slot, at the position that is noted for it. -/
structure Fusion.Holds (state : Fusion) (found : List (Int × LaneRank)) : Prop where
  noted : ∀ slot position, state.seen.get slot = some position ↔
    ∃ entry, state.fused[position]? = some entry ∧ entry.slot = slot
  entries : ∀ entry ∈ state.fused, entry.lanes = ranksIn entry.slot found ∧ entry.score = scoreOf entry.lanes
  slots : ∀ slot, slot ∈ state.fused.map Fused.slot ↔ slot ∈ found.map Prod.fst

namespace Fusion

variable {state : Fusion} {found : List (Int × LaneRank)}

theorem holds_empty : empty.Holds [] := by
  refine ⟨?_, ?_, ?_⟩
  · intro slot position
    refine iff_of_false nofun ?_
    rintro ⟨entry, h, -⟩
    cases h
  · intro entry h
    cases h
  · intro slot
    exact Iff.rfl

theorem add_of_some {slot : Int} {position : Nat} (h : state.seen.get slot = some position) (at_ : LaneRank) :
    state.add slot at_ = { state with
      fused := state.fused.modify position fun entry =>
        { entry with score := entry.score + contribution at_.rank, lanes := entry.lanes ++ [at_] } } := by
  rw [add, h]

theorem add_of_none {slot : Int} (h : state.seen.get slot = none) (at_ : LaneRank) :
    state.add slot at_ =
      ⟨state.fused ++ [⟨slot, contribution at_.rank, [at_]⟩], state.seen.insert slot state.fused.length⟩ := by
  rw [add, h]

theorem Holds.add_seen (h : state.Holds found) {slot : Int} {position : Nat}
    (hseen : state.seen.get slot = some position) (at_ : LaneRank) :
    (state.add slot at_).Holds (found ++ [(slot, at_)]) := by
  obtain ⟨old, hold, hslot⟩ := (h.noted slot position).mp hseen
  rw [add_of_some hseen]
  generalize hnew : (fun entry : Fused => { entry with
    score := entry.score + contribution at_.rank, lanes := entry.lanes ++ [at_] }) = new
  have hsame : ∀ entry, (new entry).slot = entry.slot := by
    intro entry
    rw [← hnew]
  have hslots : (state.fused.modify position new).map Fused.slot = state.fused.map Fused.slot := by
    apply List.ext_getElem?
    intro i
    rw [List.getElem?_map, List.getElem?_modify, List.getElem?_map]
    cases state.fused[i]? with
    | none => rfl
    | some entry =>
      by_cases hi : position = i
      · simp [hi, hsame]
      · simp [hi]
  have hat : ∀ (entries : List Fused) (slot : Int) (i : Nat),
      (∃ entry, entries[i]? = some entry ∧ entry.slot = slot) ↔ (entries.map Fused.slot)[i]? = some slot := by
    intro entries slot i
    rw [List.getElem?_map, Option.map_eq_some_iff]
  refine ⟨?_, ?_, ?_⟩
  · intro other i
    rw [h.noted, hat, hat, hslots]
  · intro entry hentry
    obtain ⟨i, hi⟩ := List.mem_iff_getElem?.mp hentry
    rw [List.getElem?_modify] at hi
    by_cases hposition : position = i
    · subst hposition
      rw [hold] at hi
      simp only [if_true] at hi
      cases hi
      obtain ⟨hlanes, hscore⟩ := h.entries old (List.mem_of_getElem? hold)
      rw [← hnew]
      simp only [ranksIn_snoc, hslot, if_true, scoreOf_snoc]
      rw [hscore, hlanes, hslot]
      exact ⟨rfl, rfl⟩
    · have hi' : state.fused[i]? = some entry := by simpa [hposition] using hi
      obtain ⟨hlanes, hscore⟩ := h.entries entry (List.mem_of_getElem? hi')
      have hother : ¬ slot = entry.slot := by
        rintro rfl
        have := (h.noted entry.slot i).mpr ⟨entry, hi', rfl⟩
        rw [hseen] at this
        exact hposition (Option.some.inj this)
      rw [ranksIn_snoc, if_neg hother, List.append_nil]
      exact ⟨hlanes, hscore⟩
  · intro other
    have hmem : slot ∈ found.map Prod.fst :=
      (h.slots slot).mp (List.mem_map.mpr ⟨old, List.mem_of_getElem? hold, hslot⟩)
    rw [hslots, h.slots, List.map_append, List.mem_append, List.map_singleton, List.mem_singleton]
    constructor
    · exact Or.inl
    · rintro (hother | rfl)
      · exact hother
      · exact hmem

theorem Holds.add_new (h : state.Holds found) {slot : Int} (hseen : state.seen.get slot = none) (at_ : LaneRank) :
    (state.add slot at_).Holds (found ++ [(slot, at_)]) := by
  have hfresh : slot ∉ state.fused.map Fused.slot := by
    intro hmem
    obtain ⟨entry, hentry, rfl⟩ := List.mem_map.mp hmem
    obtain ⟨i, hi⟩ := List.mem_iff_getElem?.mp hentry
    rw [(h.noted entry.slot i).mpr ⟨entry, hi, rfl⟩] at hseen
    cases hseen
  rw [add_of_none hseen]
  refine ⟨?_, ?_, ?_⟩
  · intro other i
    rw [OrdMap.get_insert]
    by_cases hother : other = slot
    · subst hother
      rw [if_pos rfl, Option.some_inj]
      constructor
      · rintro rfl
        exact ⟨_, List.getElem?_concat_length, rfl⟩
      · rintro ⟨entry, hentry, hslot⟩
        rw [List.getElem?_append] at hentry
        split at hentry
        · exact absurd (List.mem_map.mpr ⟨entry, List.mem_of_getElem? hentry, hslot⟩) hfresh
        · have := (List.getElem?_eq_some_iff.mp hentry).1
          simp at this
          omega
    · rw [if_neg hother, h.noted]
      constructor
      · rintro ⟨entry, hentry, hslot⟩
        refine ⟨entry, ?_, hslot⟩
        rw [List.getElem?_append_left (List.getElem?_eq_some_iff.mp hentry).1]
        exact hentry
      · rintro ⟨entry, hentry, hslot⟩
        rw [List.getElem?_append] at hentry
        split at hentry
        · exact ⟨entry, hentry, hslot⟩
        · have hlast := List.mem_singleton.mp (List.mem_of_getElem? hentry)
          rw [hlast] at hslot
          exact absurd hslot.symm hother
  · intro entry hentry
    rcases List.mem_append.mp hentry with hold | hnew
    · obtain ⟨hlanes, hscore⟩ := h.entries entry hold
      have hother : ¬ slot = entry.slot := by
        rintro rfl
        exact hfresh (List.mem_map_of_mem hold)
      rw [ranksIn_snoc, if_neg hother, List.append_nil]
      exact ⟨hlanes, hscore⟩
    · rw [List.mem_singleton.mp hnew]
      have hnone : ranksIn slot found = [] := by
        rw [ranksIn, List.map_eq_nil_iff, List.filter_eq_nil_iff]
        intro occurrence hmem hslot
        apply hfresh
        rw [h.slots, ← of_decide_eq_true hslot]
        exact List.mem_map_of_mem hmem
      rw [ranksIn_snoc, hnone, if_pos rfl]
      simp [scoreOf]
  · intro other
    rw [List.map_append, List.mem_append, h.slots, List.map_append, List.mem_append]
    exact Iff.rfl

theorem Holds.add (h : state.Holds found) (slot : Int) (at_ : LaneRank) :
    (state.add slot at_).Holds (found ++ [(slot, at_)]) := by
  cases hseen : state.seen.get slot with
  | none => exact h.add_new hseen at_
  | some position => exact h.add_seen hseen at_

theorem Holds.foldl (h : state.Holds found) (more : List (Int × LaneRank)) :
    (more.foldl (fun state entry => state.add entry.1 entry.2) state).Holds (found ++ more) := by
  induction more generalizing state found with
  | nil => rwa [List.append_nil]
  | cons entry more ih =>
    rw [List.append_cons]
    exact ih (h.add entry.1 entry.2)

/-- The loops over the lanes and their positions are one loop over all positions. -/
theorem foldl_lanes (lanes : List (List Int × Nat)) (state : Fusion) :
    lanes.foldl (fun state lane => state.addLane lane.2 lane.1) state =
      (lanes.flatMap fun lane => laneOccurrences lane.2 lane.1).foldl (fun state entry => state.add entry.1 entry.2)
        state := by
  induction lanes generalizing state with
  | nil => rfl
  | cons lane lanes ih =>
    rw [List.foldl_cons, ih, List.flatMap_cons, List.foldl_append, laneOccurrences, List.foldl_map]
    rfl

/-- After the loops the state holds every position. -/
theorem holds_lanes (lanes : List (List Int)) :
    (lanes.zipIdx.foldl (fun state lane => state.addLane lane.2 lane.1) empty).Holds (occurrences lanes) := by
  rw [foldl_lanes]
  exact holds_empty.foldl _

/-- No slot has two entries. -/
theorem Holds.nodup (h : state.Holds found) : (state.fused.map Fused.slot).Nodup := by
  rw [List.nodup_iff_getElem?_ne_getElem?]
  intro i j hij hj heq
  rw [List.length_map] at hj
  have hi : i < state.fused.length := by omega
  rw [List.getElem?_map, List.getElem?_map, List.getElem?_eq_getElem hi, List.getElem?_eq_getElem hj,
    Option.map_some, Option.map_some, Option.some_inj] at heq
  have hnoted := (h.noted _ i).mpr ⟨_, List.getElem?_eq_getElem hi, rfl⟩
  have hnoted' := (h.noted _ j).mpr ⟨_, List.getElem?_eq_getElem hj, rfl⟩
  rw [heq, hnoted', Option.some_inj] at hnoted
  omega

end Fusion

/-! ## Scores -/

/-- What the positions of a slot in one lane contribute. -/
def laneScore (slot : Int) (ranked : List Int) : Nat :=
  ((ranked.zipIdx.filter fun entry => entry.1 = slot).map fun entry => contribution (entry.2 + 1)).sum

theorem scoreOf_append (ranks more : List LaneRank) : scoreOf (ranks ++ more) = scoreOf ranks + scoreOf more := by
  simp [scoreOf]

theorem scoreOf_lane (slot : Int) (lane : Nat) (ranked : List Int) :
    scoreOf (ranksIn slot (laneOccurrences lane ranked)) = laneScore slot ranked := by
  rw [laneOccurrences, ranksIn, List.filter_map, List.map_map, scoreOf, List.map_map]
  rfl

/-- The score of all positions is the sum of the scores in the lanes. -/
theorem scoreOf_ranksOf (lanes : List (List Int)) (slot : Int) :
    scoreOf (ranksOf lanes slot) = (lanes.map (laneScore slot)).sum := by
  have hall : ∀ numbered : List (List Int × Nat),
      scoreOf (ranksIn slot (numbered.flatMap fun lane => laneOccurrences lane.2 lane.1)) =
        ((numbered.map Prod.fst).map (laneScore slot)).sum := by
    intro numbered
    induction numbered with
    | nil => rfl
    | cons lane numbered ih =>
      rw [List.flatMap_cons, ranksIn, List.filter_append, List.map_append, scoreOf_append, List.map_cons,
        List.map_cons, List.sum_cons, ← ih]
      exact congrArg (· + _) (scoreOf_lane slot lane.2 lane.1)
  have h := hall lanes.zipIdx
  rwa [List.zipIdx_map_fst] at h

/-- A score has room in 64 bits for more positions than any memory holds. -/
theorem scoreOf_le (ranks : List LaneRank) : scoreOf ranks ≤ 166666 * ranks.length := by
  induction ranks with
  | nil => exact Nat.le_refl 0
  | cons at_ ranks ih =>
    have hone : contribution at_.rank ≤ 166666 := Nat.div_le_div_left (Nat.le_add_right rrfK at_.rank) (by decide)
    rw [scoreOf, List.map_cons, List.sum_cons, List.length_cons]
    rw [scoreOf] at ih
    omega

/-! ## The result -/

/-- The order of results, on slots and scores alone. -/
def rankLe (a b : Int × Nat) : Bool := b.2 < a.2 || (a.2 == b.2 && a.1 ≤ b.1)

theorem linear_rankLe : Linear rankLe := by
  constructor
  · intro a b c hab hbc
    simp only [rankLe, Bool.or_eq_true, Bool.and_eq_true, decide_eq_true_eq, beq_iff_eq] at hab hbc ⊢
    omega
  · intro a b
    simp only [rankLe, Bool.or_eq_true, Bool.and_eq_true, decide_eq_true_eq, beq_iff_eq]
    omega
  · rintro ⟨d, s⟩ ⟨d', s'⟩ hab hba
    simp only [rankLe, Bool.or_eq_true, Bool.and_eq_true, decide_eq_true_eq, beq_iff_eq] at hab hba
    obtain rfl : s = s' := by omega
    obtain rfl : d = d' := by omega
    rfl

def Fused.ranked (entry : Fused) : Int × Nat := (entry.slot, entry.score)

theorem fused_le_iff (a b : Fused) : a.le b = rankLe a.ranked b.ranked := rfl

theorem pairwise_fuse (lanes : List (List Int)) : (fuse lanes).Pairwise fun a b => a.le b = true :=
  List.pairwise_mergeSort (fun a b c => linear_rankLe.trans a.ranked b.ranked c.ranked)
    (fun a b => linear_rankLe.total a.ranked b.ranked) _

theorem fuse_perm (lanes : List (List Int)) :
    (fuse lanes).Perm (lanes.zipIdx.foldl (fun state lane => state.addLane lane.2 lane.1) Fusion.empty).fused :=
  List.mergeSort_perm _ _

theorem nodup_fuse (lanes : List (List Int)) : ((fuse lanes).map Fused.slot).Nodup :=
  ((fuse_perm lanes).map Fused.slot).nodup_iff.mpr (Fusion.holds_lanes lanes).nodup

theorem mem_slots_fuse {lanes : List (List Int)} {slot : Int} :
    slot ∈ (fuse lanes).map Fused.slot ↔ ∃ lane ∈ lanes, slot ∈ lane := by
  rw [((fuse_perm lanes).map Fused.slot).mem_iff, (Fusion.holds_lanes lanes).slots, mem_occurrences]

theorem entry_fuse {lanes : List (List Int)} {entry : Fused} (h : entry ∈ fuse lanes) :
    entry.lanes = ranksOf lanes entry.slot ∧ entry.score = (lanes.map (laneScore entry.slot)).sum := by
  obtain ⟨hlanes, hscore⟩ := (Fusion.holds_lanes lanes).entries entry ((fuse_perm lanes).mem_iff.mp h)
  refine ⟨hlanes, ?_⟩
  rw [hscore, hlanes]
  exact scoreOf_ranksOf lanes entry.slot

/-- A better score comes first, and of equal scores the smaller slot. -/
theorem strict_fuse (lanes : List (List Int)) :
    (fuse lanes).Pairwise fun a b => b.score < a.score ∨ a.score = b.score ∧ a.slot < b.slot := by
  have hnodup := nodup_fuse lanes
  rw [List.Nodup, List.pairwise_map] at hnodup
  apply (pairwise_fuse lanes).imp₂ _ hnodup
  intro a b hle hne
  simp only [Fused.le, Bool.or_eq_true, Bool.and_eq_true, decide_eq_true_eq, beq_iff_eq] at hle
  omega

/-- The slots and scores in a result: every slot of a lane with its score. -/
theorem mem_ranked_fuse {lanes : List (List Int)} {slot : Int} {score : Nat} :
    (slot, score) ∈ (fuse lanes).map Fused.ranked ↔
      (∃ lane ∈ lanes, slot ∈ lane) ∧ score = (lanes.map (laneScore slot)).sum := by
  rw [← mem_slots_fuse, List.mem_map, List.mem_map]
  constructor
  · rintro ⟨entry, hentry, heq⟩
    cases heq
    exact ⟨⟨entry, hentry, rfl⟩, (entry_fuse hentry).2⟩
  · rintro ⟨⟨entry, hentry, rfl⟩, rfl⟩
    exact ⟨entry, hentry, Prod.ext rfl (entry_fuse hentry).2⟩

theorem nodup_ranked_fuse (lanes : List (List Int)) : ((fuse lanes).map Fused.ranked).Nodup := by
  apply List.Nodup.of_map Prod.fst
  rw [List.map_map]
  exact nodup_fuse lanes

/-- The order of the lanes does not matter for the slots, their scores and their order. -/
theorem ranked_fuse_perm {lanes lanes' : List (List Int)} (h : lanes'.Perm lanes) :
    (fuse lanes').map Fused.ranked = (fuse lanes).map Fused.ranked := by
  apply sorted_ext linear_rankLe
  · rw [List.perm_ext_iff_of_nodup (nodup_ranked_fuse lanes') (nodup_ranked_fuse lanes)]
    rintro ⟨slot, score⟩
    rw [mem_ranked_fuse, mem_ranked_fuse, (h.map (laneScore slot)).sum_nat]
    simp only [h.mem_iff]
  · exact List.pairwise_map.mpr (pairwise_fuse lanes')
  · exact List.pairwise_map.mpr (pairwise_fuse lanes)

/-- The lanes in another order. -/
def permuted (lanes : List (List Int)) (σ : Equiv.Perm (Fin lanes.length)) : List (List Int) :=
  List.ofFn fun i => lanes.get (σ i)

/-- Where the lane was before, under its place in the other order. -/
def renamed {n : Nat} (σ : Equiv.Perm (Fin n)) (at_ : LaneRank) : LaneRank :=
  ⟨if h : at_.lane < n then σ ⟨at_.lane, h⟩ else at_.lane, at_.rank⟩

theorem permuted_perm (lanes : List (List Int)) (σ : Equiv.Perm (Fin lanes.length)) :
    (permuted lanes σ).Perm lanes := by
  have h := Equiv.Perm.ofFn_comp_perm σ lanes.get
  rwa [List.ofFn_get] at h

/-- The positions of a slot, from the lanes by their numbers. -/
theorem ranksOf_ofFn {n : Nat} (lane : Fin n → List Int) (slot : Int) :
    ranksOf (List.ofFn lane) slot =
      (List.finRange n).flatMap fun i : Fin n => ranksIn slot (laneOccurrences i.val (lane i)) := by
  have hnumbered : (List.ofFn lane).zipIdx = (List.finRange n).map fun i => (lane i, i.val) := by
    apply List.ext_getElem
    · simp
    · intro i _ _
      simp
  rw [ranksOf, occurrences, hnumbered, List.flatMap_map, ranksIn, List.filter_flatMap, List.map_flatMap]
  rfl

/-- The positions of a slot move with their lanes. -/
theorem ranksOf_permuted (lanes : List (List Int)) (σ : Equiv.Perm (Fin lanes.length)) (slot : Int) :
    ((ranksOf (permuted lanes σ) slot).map (renamed σ)).Perm (ranksOf lanes slot) := by
  have hlanes := ranksOf_ofFn lanes.get slot
  rw [List.ofFn_get] at hlanes
  have hmoved : ∀ i : Fin lanes.length,
      (ranksIn slot (laneOccurrences i.val (lanes.get (σ i)))).map (renamed σ) =
        ranksIn slot (laneOccurrences (σ i).val (lanes.get (σ i))) := by
    intro i
    simp only [ranksIn, laneOccurrences, List.filter_map, List.map_map]
    apply List.map_congr_left
    intro entry _
    simp [renamed]
  rw [permuted, ranksOf_ofFn, List.map_flatMap, hlanes]
  simp only [hmoved]
  rw [← List.flatMap_map σ fun i => ranksIn slot (laneOccurrences i.val (lanes.get i))]
  apply List.Perm.flatMap_right
  rw [List.perm_ext_iff_of_nodup ((List.nodup_finRange _).map σ.injective) (List.nodup_finRange _)]
  intro i
  exact iff_of_true (List.mem_map.mpr ⟨σ.symm i, List.mem_finRange _, σ.apply_symm_apply i⟩) (List.mem_finRange i)

/-- Every slot of a lane comes out once, with the sum of what its positions contribute, in the order of the
scores; another order of the lanes changes nothing but the numbers of the lanes in the positions. -/
theorem fuse_ranks (lanes : List (List Int)) (σ : Equiv.Perm (Fin lanes.length)) :
    ((fuse lanes).map Fused.slot).Nodup ∧
      (∀ slot, slot ∈ (fuse lanes).map Fused.slot ↔ ∃ lane ∈ lanes, slot ∈ lane) ∧
      (∀ entry ∈ fuse lanes, entry.lanes = ranksOf lanes entry.slot ∧
        entry.score = (lanes.map (laneScore entry.slot)).sum ∧ entry.score ≤ 166666 * entry.lanes.length) ∧
      ((fuse lanes).Pairwise fun a b => b.score < a.score ∨ a.score = b.score ∧ a.slot < b.slot) ∧
      (fuse (permuted lanes σ)).map Fused.ranked = (fuse lanes).map Fused.ranked ∧
      ∀ slot, ((ranksOf (permuted lanes σ) slot).map (renamed σ)).Perm (ranksOf lanes slot) := by
  refine ⟨nodup_fuse lanes, fun slot => mem_slots_fuse, ?_, strict_fuse lanes,
    ranked_fuse_perm (permuted_perm lanes σ), ranksOf_permuted lanes σ⟩
  intro entry hentry
  obtain ⟨hlanes, hscore⟩ := entry_fuse hentry
  refine ⟨hlanes, hscore, ?_⟩
  rw [hscore, hlanes, ← scoreOf_ranksOf]
  exact scoreOf_le _

/-- Two lanes swapped: the second result names the other lane. -/
theorem fuse_names_lanes :
    [[1, 2], [1]].Perm [[(1 : Int)], [1, 2]] ∧ fuse [[1, 2], [1]] ≠ fuse [[1], [1, 2]] := by
  have hsorted : fuse [[1, 2], [1]] = [⟨1, 327868, [⟨0, 1⟩, ⟨1, 1⟩]⟩, ⟨2, 161290, [⟨0, 2⟩]⟩] :=
    List.mergeSort_of_pairwise (by decide)
  have hsorted' : fuse [[1], [1, 2]] = [⟨1, 327868, [⟨0, 1⟩, ⟨1, 1⟩]⟩, ⟨2, 161290, [⟨1, 2⟩]⟩] :=
    List.mergeSort_of_pairwise (by decide)
  refine ⟨List.Perm.swap _ _ _, ?_⟩
  rw [hsorted, hsorted']
  decide

end SupraHarness.Vector
