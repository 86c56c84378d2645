import Mathlib.Data.List.DropRight
import SupraHarness.Prompt.Restore

/-!
# Cache breakpoints

Four offsets over the segment sequence: the ends of the tool manifests, of the system contract, of the
memory index and of the previous turn. The plan refuses a manifest after a contract or an index entry and
a contract after an index entry. It compares nothing with the turns, and a region without segments ends
at zero.
-/
namespace SupraHarness.Prompt

open SupraHarness.Types

inductive Breakpoint where
  | bp1Tools
  | bp2System
  | bp3MemoryIndex
  | bp4PreviousTurn
  deriving DecidableEq, Repr

/-- How long a cache entry survives without a hit. -/
inductive CacheTtl where
  | fiveMinutes
  | oneHour
  deriving DecidableEq, Repr

/-- The lifetime a breakpoint is written with. -/
def Breakpoint.ttl : Breakpoint → CacheTtl
  | .bp1Tools => .oneHour
  | .bp2System => .oneHour
  | .bp3MemoryIndex => .oneHour
  | .bp4PreviousTurn => .fiveMinutes

/-- Four offsets into the segment sequence, in prefix order. -/
structure Plan where
  bp1Tools : Nat
  bp2System : Nat
  bp3Memory : Nat
  bp4Previous : Nat
  deriving DecidableEq, Repr

namespace Plan

def all : List Breakpoint := [.bp1Tools, .bp2System, .bp3MemoryIndex, .bp4PreviousTurn]

def offsets (plan : Plan) : List Nat := [plan.bp1Tools, plan.bp2System, plan.bp3Memory, plan.bp4Previous]

end Plan

section

variable {blake3 : List UInt8 → ContentHash}

/-- One entry of the walk, at its index. -/
def planEntry (plan : Plan) (index : Nat) (entry : Sealed blake3 Segment) : Except PromptError Plan :=
  match entry.value.kind with
  | .toolManifest =>
    if plan.bp2System > 0 then .error (.regionOrder "tools" "system")
    else if plan.bp3Memory > 0 then .error (.regionOrder "tools" "memory")
    else .ok { plan with bp1Tools := index + 1 }
  | .systemContract =>
    if plan.bp3Memory > 0 then .error (.regionOrder "system" "memory")
    else .ok { plan with bp2System := index + 1 }
  | .memoryIndex _ => .ok { plan with bp3Memory := index + 1 }
  | .turn _ _ => .ok plan

def planEntries (plan : Plan) (index : Nat) : List (Sealed blake3 Segment) → Except PromptError Plan
  | [] => .ok plan
  | entry :: entries => do
    let plan ← planEntry plan index entry
    planEntries plan (index + 1) entries

/-- Lay the four breakpoints over a segment sequence, with the end of the previous turn. -/
def planBreakpointsAt (segments : List (Sealed blake3 Segment)) (previousTurnEnd : Nat) :
    Except PromptError Plan := do
  if previousTurnEnd > segments.length then
    .error (.invalidSnapshot s!"BP4 offset {previousTurnEnd} exceeds the ledger length {segments.length}")
  else
    let plan ← planEntries ⟨0, 0, 0, previousTurnEnd⟩ 0 segments
    if previousTurnEnd < plan.bp3Memory then
      .error (.invalidSnapshot s!"BP4 offset {previousTurnEnd} precedes BP3 offset {plan.bp3Memory}")
    else .ok plan

def planBreakpoints (segments : List (Sealed blake3 Segment)) : Except PromptError Plan :=
  planBreakpointsAt segments segments.length

/-- The adjacent pair of breakpoints that is out of order. -/
def findReversal (plan : Plan) : Option (Breakpoint × Breakpoint) :=
  (((plan.offsets.zip plan.offsets.tail).zip (Plan.all.zip Plan.all.tail)).find? fun pair =>
    pair.1.1 > pair.1.2).map Prod.snd

/-- Where a segment stands in the prefix: tools, system, memory index, turns. -/
def region (entry : Sealed blake3 Segment) : Nat :=
  match entry.value.kind with
  | .toolManifest => 0
  | .systemContract => 1
  | .memoryIndex _ => 2
  | .turn _ _ => 3

/-- One past the last segment of a region. -/
def regionEnd (r : Nat) (segments : List (Sealed blake3 Segment)) : Nat :=
  (segments.rdropWhile fun entry => region entry ≠ r).length

def InOrder (segments : List (Sealed blake3 Segment)) : Prop :=
  segments.Pairwise fun earlier later => region earlier ≤ region later

def Has (r : Nat) (segments : List (Sealed blake3 Segment)) : Prop := ∃ entry ∈ segments, region entry = r

/-- The offsets run forwards, each at the end of its region. -/
structure Lays (segments : List (Sealed blake3 Segment)) (previousTurnEnd : Nat) (plan : Plan) : Prop where
  forwards : plan.offsets.Pairwise (· ≤ ·)
  tools : Has 0 segments → plan.bp1Tools = regionEnd 0 segments
  system : Has 1 segments → plan.bp2System = regionEnd 1 segments
  memory : Has 2 segments → plan.bp3Memory = regionEnd 2 segments
  previous : plan.bp4Previous = previousTurnEnd ∧ previousTurnEnd ≤ segments.length

/-- A plan is made only for regions in order, and then lays the breakpoints as it should. -/
def PlansInOrder (segments : List (Sealed blake3 Segment)) (previousTurnEnd : Nat) : Prop :=
  (∀ plan, planBreakpointsAt segments previousTurnEnd = .ok plan →
    InOrder segments ∧ Lays segments previousTurnEnd plan) ∧
  (¬ InOrder segments → ∃ error, planBreakpointsAt segments previousTurnEnd = .error error)

/-- Nothing but a turn is followed by a segment of an earlier region. -/
def Checked (segments : List (Sealed blake3 Segment)) : Prop :=
  segments.Pairwise fun earlier later => region earlier ≤ region later ∨ region earlier = 3

theorem regionEnd_concat (r : Nat) (segments : List (Sealed blake3 Segment)) (entry : Sealed blake3 Segment) :
    regionEnd r (segments ++ [entry]) =
      if region entry = r then segments.length + 1 else regionEnd r segments := by
  unfold regionEnd
  by_cases own : region entry = r
  · rw [if_pos own, List.rdropWhile_concat_neg _ _ _ (by simp [own]), List.length_append, List.length_singleton]
  · rw [if_neg own, List.rdropWhile_concat_pos _ _ _ (by simp [own])]

theorem regionEnd_pos {r : Nat} {segments : List (Sealed blake3 Segment)} :
    0 < regionEnd r segments ↔ Has r segments := by
  induction segments using List.reverseRecOn with
  | nil => simp [regionEnd, Has]
  | append_singleton segments entry ih =>
    rw [regionEnd_concat]
    by_cases own : region entry = r
    · rw [if_pos own]
      exact iff_of_true (Nat.succ_pos _) ⟨entry, by simp, own⟩
    · rw [if_neg own, ih]
      simp [Has, own]

theorem regionEnd_le (r : Nat) (segments : List (Sealed blake3 Segment)) :
    regionEnd r segments ≤ segments.length :=
  (List.rdropWhile_prefix _ _).length_le

theorem region_le (entry : Sealed blake3 Segment) : region entry ≤ 3 := by
  unfold region
  split <;> decide

/-- What is checked of one more segment. -/
theorem checked_concat {segments : List (Sealed blake3 Segment)} {entry : Sealed blake3 Segment} :
    Checked (segments ++ [entry]) ↔ Checked segments ∧ ∀ r, region entry < r → r < 3 → ¬ Has r segments := by
  unfold Checked
  rw [List.pairwise_append]
  simp only [List.pairwise_singleton, List.mem_singleton, forall_eq, true_and]
  refine and_congr_right fun _ => ⟨?_, ?_⟩
  · rintro checked r later turn ⟨other, mem, rfl⟩
    have := checked other mem
    omega
  · intro checked other mem
    by_contra wrong
    have bound := region_le other
    exact checked (region other) (by omega) (by omega) ⟨other, mem, rfl⟩

/-- The ends of the regions so far. -/
def ends (segments : List (Sealed blake3 Segment)) (previousTurnEnd : Nat) : Plan :=
  ⟨regionEnd 0 segments, regionEnd 1 segments, regionEnd 2 segments, previousTurnEnd⟩

/-- One entry: refused where it stands before a region that has been seen. -/
theorem planEntry_ok {front : List (Sealed blake3 Segment)} {previousTurnEnd : Nat} {entry : Sealed blake3 Segment}
    {plan : Plan} : planEntry (ends front previousTurnEnd) front.length entry = .ok plan ↔
      (∀ r, region entry < r → r < 3 → ¬ Has r front) ∧ plan = ends (front ++ [entry]) previousTurnEnd := by
  have grown (r : Nat) := regionEnd_concat r front entry
  unfold planEntry ends
  cases kind : entry.value.kind with
  | toolManifest =>
    have own : region entry = 0 := by rw [region, kind]
    have behind : (∀ r, region entry < r → r < 3 → ¬ Has r front) ↔ ¬ Has 1 front ∧ ¬ Has 2 front := by
      rw [own]
      refine ⟨fun none => ⟨none 1 (by omega) (by omega), none 2 (by omega) (by omega)⟩, fun none r low high => ?_⟩
      obtain rfl | rfl : r = 1 ∨ r = 2 := by omega
      · exact none.1
      · exact none.2
    rw [behind, ← regionEnd_pos, ← regionEnd_pos]
    dsimp only
    split
    · rename_i system
      exact iff_of_false nofun fun none => none.1.1 system
    · rename_i system
      split
      · rename_i memory
        exact iff_of_false nofun fun none => none.1.2 memory
      · rename_i memory
        rw [grown, grown, grown, own]
        simp [system, memory, eq_comm]
  | systemContract =>
    have own : region entry = 1 := by rw [region, kind]
    have behind : (∀ r, region entry < r → r < 3 → ¬ Has r front) ↔ ¬ Has 2 front := by
      rw [own]
      refine ⟨fun none => none 2 (by omega) (by omega), fun none r low high => ?_⟩
      obtain rfl : r = 2 := by omega
      exact none
    rw [behind, ← regionEnd_pos]
    dsimp only
    split
    · rename_i memory
      exact iff_of_false nofun fun none => none.1 memory
    · rename_i memory
      rw [grown, grown, grown, own]
      simp [memory, eq_comm]
  | memoryIndex index =>
    have own : region entry = 2 := by rw [region, kind]
    have behind : ∀ r, region entry < r → r < 3 → ¬ Has r front := by
      intro r low high
      omega
    rw [and_iff_right behind, grown, grown, grown, own]
    simp [eq_comm]
  | turn turn role =>
    have own : region entry = 3 := by rw [region, kind]
    have behind : ∀ r, region entry < r → r < 3 → ¬ Has r front := by
      intro r low high
      omega
    rw [and_iff_right behind, grown, grown, grown, own]
    simp [eq_comm]

/-- The walk goes through exactly when nothing stands before what it must follow. -/
theorem planEntries_ok {rest front : List (Sealed blake3 Segment)} {previousTurnEnd : Nat} {plan : Plan}
    (checked : Checked front) : planEntries (ends front previousTurnEnd) front.length rest = .ok plan ↔
      Checked (front ++ rest) ∧ plan = ends (front ++ rest) previousTurnEnd := by
  induction rest generalizing front with
  | nil =>
    rw [List.append_nil, planEntries]
    exact ⟨fun same => ⟨checked, (Except.ok.inj same).symm⟩, fun both => by rw [both.2]⟩
  | cons entry rest ih =>
    have shift : front ++ entry :: rest = front ++ [entry] ++ rest := by simp
    rw [planEntries, shift]
    cases step : planEntry (ends front previousTurnEnd) front.length entry with
    | error error =>
      refine iff_of_false nofun fun both => ?_
      have fine := (checked_concat.1 (List.pairwise_append.1 both.1).1).2
      have ok := planEntry_ok.2 ⟨fine, @rfl _ (ends (front ++ [entry]) previousTurnEnd)⟩
      rw [step] at ok
      cases ok
    | ok next =>
      obtain ⟨fine, rfl⟩ := planEntry_ok.1 step
      have longer := ih (checked_concat.2 ⟨checked, fine⟩)
      rw [List.length_append, List.length_singleton] at longer
      exact longer

/-- When a plan is made, and which. -/
theorem planBreakpointsAt_ok {segments : List (Sealed blake3 Segment)} {previousTurnEnd : Nat} {plan : Plan} :
    planBreakpointsAt segments previousTurnEnd = .ok plan ↔
      (previousTurnEnd ≤ segments.length ∧ Checked segments ∧ regionEnd 2 segments ≤ previousTurnEnd) ∧
        plan = ends segments previousTurnEnd := by
  have walk (plan : Plan) : planEntries ⟨0, 0, 0, previousTurnEnd⟩ 0 segments = .ok plan ↔
      Checked segments ∧ plan = ends segments previousTurnEnd :=
    @planEntries_ok blake3 segments [] previousTurnEnd plan List.Pairwise.nil
  unfold planBreakpointsAt
  split
  · rename_i beyond
    exact iff_of_false nofun fun both => absurd both.1.1 (Nat.not_le_of_gt beyond)
  · rename_i inside
    cases walked : planEntries ⟨0, 0, 0, previousTurnEnd⟩ 0 segments with
    | error error =>
      refine iff_of_false nofun fun both => ?_
      have ok := (walk _).2 ⟨both.1.2.1, rfl⟩
      rw [walked] at ok
      cases ok
    | ok walkedPlan =>
      obtain ⟨checked, rfl⟩ := (walk _).1 walked
      change (if _ then _ else _) = _ ↔ _
      have memory : (ends segments previousTurnEnd).bp3Memory = regionEnd 2 segments := rfl
      rw [memory]
      split
      · rename_i before
        exact iff_of_false nofun fun both => absurd both.1.2.2 (Nat.not_le_of_gt before)
      · rename_i after
        rw [Except.ok.injEq, eq_comm]
        exact ⟨fun same => ⟨⟨Nat.le_of_not_gt inside, checked, Nat.le_of_not_gt after⟩, same⟩, And.right⟩

theorem InOrder.checked {segments : List (Sealed blake3 Segment)} (h : InOrder segments) : Checked segments :=
  h.imp Or.inl

/-- In an ordered sequence a region ends before a later one that is there. -/
theorem InOrder.regionEnd_le {segments : List (Sealed blake3 Segment)} (h : InOrder segments) {r later : Nat}
    (le : r ≤ later) (has : Has r segments → Has later segments) :
    regionEnd r segments ≤ regionEnd later segments := by
  induction segments using List.reverseRecOn with
  | nil => exact le_refl _
  | append_singleton segments entry ih =>
    obtain ⟨inner, -, last⟩ := List.pairwise_append.1 h
    rw [regionEnd_concat, regionEnd_concat]
    by_cases own' : region entry = later
    · rw [if_pos own']
      split
      · exact le_refl _
      · exact (Prompt.regionEnd_le r segments).trans (Nat.le_succ _)
    · rw [if_neg own']
      by_cases own : region entry = r
      · obtain ⟨other, mem, same⟩ := has ⟨entry, by simp, own⟩
        rcases List.mem_append.1 mem with mem | mem
        · have := last other mem entry (List.mem_singleton_self entry)
          omega
        · rw [List.mem_singleton] at mem
          exact absurd (mem ▸ same) own'
      · rw [if_neg own]
        refine ih inner fun held => ?_
        obtain ⟨other, mem, same⟩ := held
        obtain ⟨found, mem, same⟩ := has ⟨other, List.mem_append_left _ mem, same⟩
        rcases List.mem_append.1 mem with mem | mem
        · exact ⟨found, mem, same⟩
        · rw [List.mem_singleton] at mem
          exact absurd (mem ▸ same) own'

/-- Breakpoints are laid as they should exactly where one of the checks refuses, or the regions stand in
their order with none missing between the tools and the memory index. -/
theorem plansInOrder_iff (segments : List (Sealed blake3 Segment)) (previousTurnEnd : Nat) :
    PlansInOrder segments previousTurnEnd ↔
      (segments.length < previousTurnEnd ∨ ¬ Checked segments ∨ previousTurnEnd < regionEnd 2 segments) ∨
        InOrder segments ∧ (Has 0 segments → Has 1 segments) ∧ (Has 1 segments → Has 2 segments) := by
  constructor
  · rintro ⟨plans, -⟩
    by_contra neither
    push Not at neither
    obtain ⟨⟨inside, checked, after⟩, missing⟩ := neither
    obtain ⟨order, lays⟩ := plans _ (planBreakpointsAt_ok.2 ⟨⟨inside, checked, after⟩, rfl⟩)
    have forwards := lays.forwards
    simp only [Plan.offsets, ends, List.pairwise_cons, List.mem_cons, List.not_mem_nil, or_false, forall_eq_or_imp,
      forall_eq] at forwards
    have system : Has 0 segments → Has 1 segments := by
      rw [← regionEnd_pos, ← regionEnd_pos]
      omega
    obtain ⟨some, none⟩ := missing order system
    rw [← regionEnd_pos] at some none
    omega
  · intro fine
    constructor
    · intro plan made
      obtain ⟨⟨inside, checked, after⟩, rfl⟩ := planBreakpointsAt_ok.1 made
      rcases fine with (beyond | unchecked | before) | ⟨order, system, memory⟩
      · omega
      · exact absurd checked unchecked
      · omega
      · have first := order.regionEnd_le (by decide) system
        have second := order.regionEnd_le (by decide) memory
        refine ⟨order, ?_, fun _ => rfl, fun _ => rfl, fun _ => rfl, rfl, inside⟩
        simp only [Plan.offsets, ends, List.pairwise_cons, List.mem_cons, List.not_mem_nil, or_false,
          forall_eq_or_imp, forall_eq, IsEmpty.forall_iff, implies_true, List.Pairwise.nil, and_true]
        omega
    · intro disorder
      cases made : planBreakpointsAt segments previousTurnEnd with
      | error error => exact ⟨error, rfl⟩
      | ok plan =>
        obtain ⟨⟨inside, checked, after⟩, -⟩ := planBreakpointsAt_ok.1 made
        rcases fine with (beyond | unchecked | before) | ⟨order, -⟩
        · omega
        · exact absurd checked unchecked
        · omega
        · exact absurd order disorder

/-- A plan has no reversal exactly when its offsets run forwards. -/
theorem findReversal_eq_none {plan : Plan} : findReversal plan = none ↔ plan.offsets.Pairwise (· ≤ ·) := by
  obtain ⟨a, b, c, d⟩ := plan
  simp only [findReversal, Plan.offsets, Plan.all, List.tail_cons, List.zip_cons_cons, List.zip_nil_right,
     Option.map_eq_none_iff, List.find?_eq_none, List.mem_cons, List.not_mem_nil, or_false,
    forall_eq_or_imp, forall_eq, decide_eq_true_eq, List.pairwise_cons, IsEmpty.forall_iff, implies_true,
    List.Pairwise.nil, and_true]
  omega

end

def manifestSegment : Segment :=
  ⟨Id.fromU128 1, .toolManifest, ⟨[], by decide⟩, by decide, by decide⟩

def turnSegment : Segment :=
  ⟨Id.fromU128 2, .turn (Id.fromU128 3) .user, ⟨[.text ⟨"a", by decide⟩], by decide⟩, by decide, by decide⟩

def turnFirst : List (Sealed zeroDigest Segment) :=
  [Sealed.seal zeroDigest SeqNo.zero turnSegment, Sealed.seal zeroDigest ⟨1⟩ manifestSegment]

/-- A manifest after a turn is planned for, with the offsets running backwards. -/
theorem turnFirst_planned :
    ¬ InOrder turnFirst ∧ planBreakpointsAt turnFirst 2 = .ok ⟨2, 0, 0, 2⟩ ∧ ¬ PlansInOrder turnFirst 2 := by
  have disorder : ¬ InOrder turnFirst := by
    intro order
    have := List.rel_of_pairwise_cons order (List.mem_singleton_self _)
    exact absurd this (by decide)
  have planned : planBreakpointsAt turnFirst 2 = .ok ⟨2, 0, 0, 2⟩ := rfl
  exact ⟨disorder, planned, fun plans => disorder (plans.1 _ planned).1⟩

end SupraHarness.Prompt
