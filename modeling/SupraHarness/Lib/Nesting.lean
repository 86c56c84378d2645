import Mathlib.Algebra.BigOperators.Group.List.Basic
import Mathlib.Algebra.GroupWithZero.Nat
import Mathlib.Algebra.Order.BigOperators.Group.List
import Mathlib.Algebra.Order.Group.Nat
import Mathlib.Data.List.MinMax
import Mathlib.Data.List.Perm.Subperm
import Mathlib.Logic.Function.Basic

/-!
# Nesting depths

Every item has a list of items it may lie under. Its depth is one more than the least depth among them,
and nothing where the list is empty. A search raises depths from nothing, one item after the other,
until no item asks for more. It ends exactly where depths exist at all, which is where a chain of
such items leads from each item to one that lies under nothing.
-/
namespace SupraHarness.Nesting

variable {ι : Type} (above : ι → List ι)

/-- One more than the least depth among what the item may lie under. -/
def asked (depths : ι → Nat) (item : ι) : Nat := (((above item).map depths).min?).elim 0 (· + 1)

/-- Depths that are as the items ask for. -/
def Depths (depths : ι → Nat) : Prop := ∀ item, depths item = asked above depths item

/-- A chain leads from the item to one that lies under nothing. -/
inductive Rooted : ι → Prop where
  | root {item : ι} (nothing : above item = []) : Rooted item
  | under {item other : ι} (mem : other ∈ above item) (rooted : Rooted other) : Rooted item

/-- Such a chain has at most so many links. -/
inductive Within : Nat → ι → Prop where
  | root {item : ι} {links : Nat} (nothing : above item = []) : Within links item
  | under {item other : ι} {links : Nat} (mem : other ∈ above item) (within : Within links other) :
      Within (links + 1) item

variable {above}

theorem Rooted.within {item : ι} (rooted : Rooted above item) : ∃ links, Within above links item := by
  induction rooted with
  | root nothing => exact ⟨0, .root nothing⟩
  | under mem _ ih =>
    obtain ⟨links, within⟩ := ih
    exact ⟨links + 1, .under mem within⟩

theorem asked_of_nil {depths : ι → Nat} {item : ι} (nothing : above item = []) :
    asked above depths item = 0 := by
  rw [asked, nothing]
  rfl

theorem asked_le {depths : ι → Nat} {item other : ι} (mem : other ∈ above item) :
    asked above depths item ≤ depths other + 1 := by
  have here : depths other ∈ (above item).map depths := List.mem_map_of_mem mem
  rw [asked]
  cases least : ((above item).map depths).min? with
  | none =>
    rw [List.min?_eq_none_iff] at least
    simp [least] at here
  | some depth => exact Nat.succ_le_succ ((List.min?_eq_some_iff.1 least).2 _ here)

theorem exists_of_asked (depths : ι → Nat) {item : ι} (some_ : above item ≠ []) :
    ∃ other ∈ above item, asked above depths item = depths other + 1 := by
  rw [asked]
  cases least : ((above item).map depths).min? with
  | none =>
    rw [List.min?_eq_none_iff, List.map_eq_nil_iff] at least
    exact absurd least some_
  | some depth =>
    obtain ⟨other, mem, rfl⟩ := List.mem_map.1 (List.min?_eq_some_iff.1 least).1
    exact ⟨other, mem, rfl⟩

theorem asked_mono {depths depths' : ι → Nat} (le : ∀ item, depths item ≤ depths' item) (item : ι) :
    asked above depths item ≤ asked above depths' item := by
  by_cases nothing : above item = []
  · rw [asked_of_nil nothing]
    exact Nat.zero_le _
  · obtain ⟨other, mem, equal⟩ := exists_of_asked depths' nothing
    rw [equal]
    exact (asked_le mem).trans (Nat.succ_le_succ (le other))

/-- No item is deeper than it asks for. -/
def Low (above : ι → List ι) (depths : ι → Nat) : Prop := ∀ item, depths item ≤ asked above depths item

theorem low_zero : Low above fun _ => 0 := fun _ => Nat.zero_le _

theorem Low.le_of_within {depths : ι → Nat} (low : Low above depths) {links : Nat} {item : ι}
    (within : Within above links item) : depths item ≤ links := by
  induction within with
  | @root item _ nothing =>
    have bound := low item
    rw [asked_of_nil nothing] at bound
    exact bound.trans (Nat.zero_le _)
  | @under item other links mem _ ih =>
    have bound := (low item).trans (asked_le mem)
    omega

theorem Depths.low {depths : ι → Nat} (exact_ : Depths above depths) : Low above depths :=
  fun item => (exact_ item).le

theorem Depths.within {depths : ι → Nat} (exact_ : Depths above depths) (item : ι) :
    Within above (depths item) item := by
  induction equal : depths item generalizing item with
  | zero =>
    refine .root (by_contra fun some_ => ?_)
    obtain ⟨other, -, asks⟩ := exists_of_asked depths some_
    have here := exact_ item
    omega
  | succ depth ih =>
    by_cases nothing : above item = []
    · exact .root nothing
    · obtain ⟨other, mem, asks⟩ := exists_of_asked depths nothing
      have here := exact_ item
      exact .under mem (ih other (by omega))

theorem Within.rooted {links : Nat} {item : ι} (within : Within above links item) : Rooted above item := by
  induction within with
  | root nothing => exact .root nothing
  | under mem _ ih => exact .under mem ih

/-- Depths are the lengths of the shortest chains, so there is at most one choice of them. -/
theorem Depths.unique {depths depths' : ι → Nat} (exact_ : Depths above depths)
    (exact' : Depths above depths') : depths = depths' := by
  funext item
  exact le_antisymm (exact_.low.le_of_within (exact'.within item)) (exact'.low.le_of_within (exact_.within item))

/-- Every lesser depth is some item's. -/
theorem Depths.exists_of_le {depths : ι → Nat} (exact_ : Depths above depths) {item : ι} {depth : Nat}
    (le : depth ≤ depths item) : ∃ other, depths other = depth := by
  induction le using Nat.decreasingInduction with
  | self => exact ⟨item, rfl⟩
  | of_succ depth _ ih =>
    obtain ⟨other, equal⟩ := ih
    have here := exact_ other
    by_cases nothing : above other = []
    · rw [asked_of_nil nothing] at here
      omega
    · obtain ⟨another, -, asks⟩ := exists_of_asked depths nothing
      exact ⟨another, by omega⟩

theorem Depths.lt_length {depths : ι → Nat} (exact_ : Depths above depths) {items : List ι}
    (all : ∀ item, item ∈ items) (item : ι) : depths item < items.length := by
  have sub : List.range (depths item + 1) ⊆ items.map depths := by
    intro depth mem
    obtain ⟨other, rfl⟩ := exact_.exists_of_le (Nat.lt_succ_iff.1 (List.mem_range.1 mem))
    exact List.mem_map_of_mem (all other)
  have length := (List.subperm_of_subset List.nodup_range sub).length_le
  rwa [List.length_range, List.length_map] at length

section Search
variable [DecidableEq ι] (above)

/-- Raise an item to what it asks for; note whether that is more than it had. -/
def raise (state : (ι → Nat) × Bool) (item : ι) : (ι → Nat) × Bool :=
  if state.1 item < asked above state.1 item then
    (Function.update state.1 item (asked above state.1 item), true)
  else state

/-- Repeat a pass as long as it changes anything, at most so often. -/
def untilSettled {σ : Type} (pass : σ → σ × Bool) : Nat → σ → Option σ
  | 0, _ => none
  | fuel + 1, state => if (pass state).2 then untilSettled pass fuel (pass state).1 else some (pass state).1

variable {above}

theorem le_raise (state : (ι → Nat) × Bool) (item other : ι) :
    state.1 other ≤ (raise above state item).1 other := by
  rw [raise]
  split_ifs with less
  · by_cases same : other = item
    · subst same
      simpa using less.le
    · simp [Function.update_of_ne same]
  · exact le_rfl

theorem Low.raise {state : (ι → Nat) × Bool} (low : Low above state.1) (item : ι) :
    Low above (raise above state item).1 := by
  intro other
  have grown : ∀ other, state.1 other ≤ (Nesting.raise above state item).1 other := le_raise state item
  have mono : asked above state.1 other ≤ asked above (Nesting.raise above state item).1 other :=
    asked_mono grown other
  by_cases same : (Nesting.raise above state item).1 other = state.1 other
  · rw [same]
    exact (low other).trans mono
  · rw [Nesting.raise] at same mono ⊢
    split_ifs at same mono ⊢ with less
    · by_cases here : other = item
      · subst here
        simpa using mono
      · exact absurd (Function.update_of_ne here _ _) same
    · exact absurd rfl same

variable (above) in
/-- A pass over some items from depths that are low. -/
structure Passed (items : List ι) (depths : ι → Nat) (after : (ι → Nat) × Bool) : Prop where
  low : Low above after.1
  le : ∀ item, depths item ≤ after.1 item
  settled : after.2 = false → after.1 = depths ∧ ∀ item ∈ items, asked above depths item ≤ depths item
  raised : after.2 = true → ∃ item, depths item < after.1 item

theorem passed {depths : ι → Nat} (low : Low above depths) (items : List ι) :
    Passed above items depths (items.foldl (raise above) (depths, false)) := by
  induction items using List.reverseRecOn with
  | nil => exact ⟨low, fun _ => le_rfl, fun _ => ⟨rfl, by simp⟩, fun changed => by cases changed⟩
  | append_singleton items item ih =>
    rw [List.foldl_append, List.foldl_cons, List.foldl_nil]
    generalize items.foldl (raise above) (depths, false) = state at ih
    refine ⟨ih.low.raise item, fun other => (ih.le other).trans (le_raise state item other), ?_, ?_⟩
    · intro unchanged
      rw [raise] at unchanged ⊢
      split_ifs at unchanged ⊢ with less
      obtain ⟨same, rest⟩ := ih.settled unchanged
      refine ⟨same, fun other mem => ?_⟩
      rcases List.mem_append.1 mem with before | here
      · exact rest other before
      · rw [List.mem_singleton.1 here, ← same]
        exact not_lt.1 less
    · intro changed
      rw [raise] at changed ⊢
      split_ifs at changed ⊢ with less
      · refine ⟨item, ?_⟩
        change depths item < Function.update state.1 item _ item
        rw [Function.update_self]
        exact (ih.le item).trans_lt less
      · exact ih.raised changed

/-- The pass over all items. -/
def sweep (above : ι → List ι) (items : List ι) (depths : ι → Nat) : (ι → Nat) × Bool :=
  items.foldl (raise above) (depths, false)

theorem settled_depths {items : List ι} (all : ∀ item, item ∈ items) {fuel : Nat} {depths found : ι → Nat}
    (low : Low above depths) (settled : untilSettled (sweep above items) fuel depths = some found) :
    Depths above found := by
  induction fuel generalizing depths with
  | zero => cases settled
  | succ fuel ih =>
    have pass := passed low items
    rw [untilSettled] at settled
    split_ifs at settled with changed
    · exact ih pass.low settled
    · obtain ⟨same, asks⟩ := pass.settled (Bool.eq_false_iff.2 changed)
      rw [← Option.some.inj settled]
      intro item
      refine le_antisymm (pass.low item) ?_
      rw [sweep, same]
      exact asks item (all item)

/-- How far the items are below some bound. -/
def room (items : List ι) (bound depths : ι → Nat) : Nat := (items.map fun item => bound item - depths item).sum

theorem room_lt {items : List ι} {bound depths depths' : ι → Nat} (le : ∀ item, depths item ≤ depths' item)
    (bounded : ∀ item, depths' item ≤ bound item) {item : ι} (mem : item ∈ items)
    (less : depths item < depths' item) : room items bound depths' < room items bound depths := by
  refine List.sum_lt_sum _ _ (fun other _ => Nat.sub_le_sub_left (le other) _) ⟨item, mem, ?_⟩
  have here := bounded item
  omega

theorem exists_settled {items : List ι} (all : ∀ item, item ∈ items) {bound : ι → Nat}
    (within : ∀ item, Within above (bound item) item) {depths : ι → Nat} (low : Low above depths) :
    ∃ fuel found, untilSettled (sweep above items) fuel depths = some found := by
  induction left : room items bound depths using Nat.strongRecOn generalizing depths with
  | ind left_ ih =>
    have pass := passed low items
    cases changed : (sweep above items depths).2 with
    | false => exact ⟨1, _, by rw [untilSettled, changed]; rfl⟩
    | true =>
      obtain ⟨item, less⟩ := pass.raised changed
      have smaller := room_lt pass.le (fun other => pass.low.le_of_within (within other)) (all item) less
      obtain ⟨fuel, found, settled⟩ := ih _ (left ▸ smaller) pass.low rfl
      refine ⟨fuel + 1, found, ?_⟩
      rw [untilSettled, changed, if_pos rfl]
      exact settled

/-- The search ends, with the depths, exactly where every item is rooted. -/
theorem settles_iff {items : List ι} (all : ∀ item, item ∈ items) :
    (∃ fuel found, untilSettled (sweep above items) fuel (fun _ => 0) = some found ∧ Depths above found) ↔
      ∀ item, Rooted above item := by
  constructor
  · rintro ⟨fuel, found, -, exact_⟩ item
    exact (exact_.within item).rooted
  · intro rooted
    choose bound within using fun item => (rooted item).within
    obtain ⟨fuel, found, settled⟩ := exists_settled all within low_zero
    exact ⟨fuel, found, settled, settled_depths all low_zero settled⟩

end Search
end SupraHarness.Nesting
