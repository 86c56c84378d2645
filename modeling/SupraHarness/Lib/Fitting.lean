import Mathlib.Algebra.BigOperators.Group.List.Basic
import Mathlib.Algebra.GroupWithZero.Nat
import Mathlib.Data.List.Dedup
import Mathlib.Data.List.DropRight

/-!
# The longest beginning that fits

Items with weights are taken from the front of a list while a budget lasts; the first one that is
too heavy ends it. What is taken is the longest beginning within the budget.
-/
namespace SupraHarness.Fitting

variable {α : Type*} {w : α → Nat}

/-- What a beginning weighs. -/
def total (w : α → Nat) (l : List α) : Nat := (l.map w).sum

@[simp] theorem total_nil : total w [] = 0 := rfl

@[simp] theorem total_cons (a : α) (l : List α) : total w (a :: l) = w a + total w l := by
  simp [total]

@[simp] theorem total_append (l m : List α) : total w (l ++ m) = total w l + total w m := by
  simp [total]

/-- A longer beginning weighs at least as much. -/
theorem total_take_mono (l : List α) {m n : Nat} (h : m ≤ n) : total w (l.take m) ≤ total w (l.take n) := by
  induction l generalizing m n with
  | nil => simp
  | cons a l ih =>
    cases m with
    | zero => simp
    | succ m =>
      cases n with
      | zero => exact absurd h (by simp)
      | succ n =>
        rw [List.take_succ_cons, List.take_succ_cons, total_cons, total_cons]
        exact Nat.add_le_add_left (ih (Nat.le_of_succ_le_succ h)) _

/-- Fewer items weigh no more. -/
theorem total_le_of_sublist {l m : List α} (h : l.Sublist m) : total w l ≤ total w m := by
  induction h with
  | slnil => exact Nat.le_refl _
  | cons a _ ih =>
    rw [total_cons]
    exact ih.trans (Nat.le_add_left _ _)
  | cons_cons a _ ih =>
    rw [total_cons, total_cons]
    exact Nat.add_le_add_left ih _

def fitting (w : α → Nat) : Nat → List α → List α
  | _, [] => []
  | budget, a :: l => if w a ≤ budget then a :: fitting w (budget - w a) l else []

theorem fitting_cons (budget : Nat) (a : α) (l : List α) :
    fitting w budget (a :: l) = if w a ≤ budget then a :: fitting w (budget - w a) l else [] := rfl

theorem fitting_prefix (budget : Nat) (l : List α) : fitting w budget l <+: l := by
  induction l generalizing budget with
  | nil => exact List.prefix_rfl
  | cons a l ih =>
    rw [fitting_cons]
    split
    · exact List.cons_prefix_cons.mpr ⟨rfl, ih _⟩
    · exact List.nil_prefix

theorem total_fitting_le (budget : Nat) (l : List α) : total w (fitting w budget l) ≤ budget := by
  induction l generalizing budget with
  | nil => exact Nat.zero_le _
  | cons a l ih =>
    rw [fitting_cons]
    split
    · have hrest := ih (budget - w a)
      rw [total_cons]
      omega
    · exact Nat.zero_le _

/-- A larger budget takes at least as much. -/
theorem fitting_mono {budget budget' : Nat} (h : budget ≤ budget') (l : List α) :
    fitting w budget l <+: fitting w budget' l := by
  induction l generalizing budget budget' with
  | nil => exact List.prefix_rfl
  | cons a l ih =>
    rw [fitting_cons, fitting_cons]
    by_cases ha : w a ≤ budget
    · rw [if_pos ha, if_pos (ha.trans h), List.cons_prefix_cons]
      exact ⟨rfl, ih (Nat.sub_le_sub_right h _)⟩
    · rw [if_neg ha]
      exact List.nil_prefix

/-- Every longer beginning is too heavy. -/
theorem lt_total_of_longer {budget : Nat} {l : List α} {n : Nat} (hn : (fitting w budget l).length < n)
    (hl : n ≤ l.length) : budget < total w (l.take n) := by
  induction l generalizing budget n with
  | nil =>
    rw [List.length_nil] at hl
    omega
  | cons a l ih =>
    cases n with
    | zero => exact absurd hn (by simp)
    | succ n =>
      rw [List.take_succ_cons, total_cons]
      rw [fitting_cons] at hn
      split at hn
      · have hrest := ih (Nat.lt_of_succ_lt_succ hn) (Nat.le_of_succ_le_succ hl)
        omega
      · omega

/-- Everything fits when the sum does. -/
theorem fitting_of_total_le {budget : Nat} {l : List α} (h : total w l ≤ budget) : fitting w budget l = l := by
  induction l generalizing budget with
  | nil => rfl
  | cons a l ih =>
    rw [total_cons] at h
    rw [fitting_cons, if_pos (Nat.le_trans (Nat.le_add_right _ _) h), ih (by omega)]

end SupraHarness.Fitting

/-!
## Recency lists

Entries in the order of their last use, the least recent first. A use moves an entry to the end,
and room is made by shedding entries from the front, no more than the budget demands. The keys of
such a list stand in the order of their last occurrences in the history of uses, which is the
history without its repetitions.
-/
namespace SupraHarness.Recency

open Fitting

variable {κ α β : Type*}

/-! ### Shedding -/

/-- What is left when entries go from the front until the rest is within the budget. -/
def shed (w : β → Nat) (budget : Nat) : List β → List β
  | [] => []
  | b :: l => if total w (b :: l) ≤ budget then b :: l else shed w budget l

variable {w : β → Nat} {budget : Nat}

theorem shed_cons (b : β) (l : List β) :
    shed w budget (b :: l) = if total w (b :: l) ≤ budget then b :: l else shed w budget l := rfl

theorem shed_suffix (l : List β) : shed w budget l <:+ l := by
  induction l with
  | nil => exact List.suffix_rfl
  | cons b l ih =>
    rw [shed_cons]
    split
    · exact List.suffix_rfl
    · exact ih.trans (List.suffix_cons b l)

theorem total_shed_le (l : List β) : total w (shed w budget l) ≤ budget := by
  induction l with
  | nil => exact Nat.zero_le _
  | cons b l ih =>
    rw [shed_cons]
    split
    · assumption
    · exact ih

/-- To keep one more entry than is kept would break the budget. -/
theorem lt_total_of_kept_more {l s : List β} (hs : s <:+ l) (hlong : (shed w budget l).length < s.length) :
    budget < total w s := by
  induction l with
  | nil =>
    rw [List.suffix_nil.mp hs] at hlong
    exact absurd hlong (Nat.lt_irrefl _)
  | cons b l ih =>
    rw [shed_cons] at hlong
    split at hlong
    · exact absurd hs.length_le (Nat.not_le.mpr hlong)
    · rename_i hover
      rcases List.suffix_cons_iff.mp hs with rfl | hs
      · exact Nat.lt_of_not_le hover
      · exact ih hs hlong

/-! ### Moving to the end -/

variable [DecidableEq κ]

/-- The entries of the other keys. -/
def without (k : κ) (l : List (κ × α)) : List (κ × α) := l.filter fun e => e.1 ≠ k

theorem mem_without {k : κ} {l : List (κ × α)} {e : κ × α} : e ∈ without k l ↔ e ∈ l ∧ e.1 ≠ k := by
  simp [without]

/-- A use moves its key to the end of the order of last uses. -/
theorem dedup_concat (uses : List κ) (k : κ) : (uses ++ [k]).dedup = uses.dedup.filter (· ≠ k) ++ [k] := by
  induction uses with
  | nil => simp
  | cons u uses ih =>
    rw [List.cons_append]
    by_cases hu : u ∈ uses
    · rw [List.dedup_cons_of_mem (List.mem_append_left _ hu), List.dedup_cons_of_mem hu, ih]
    · by_cases huk : u = k
      · rw [List.dedup_cons_of_mem (by simp [huk]), List.dedup_cons_of_notMem hu, ih]
        simp [huk]
      · rw [List.dedup_cons_of_notMem (by simp [hu, huk]), List.dedup_cons_of_notMem hu, ih]
        simp [huk]

/-- The keys of a list stand in the order of their last uses. -/
def Follows (uses : List κ) (l : List (κ × α)) : Prop :=
  (l.map Prod.fst).Sublist uses.dedup

theorem Follows.sublist {uses : List κ} {l m : List (κ × α)} (h : Follows uses l) (hm : m.Sublist l) :
    Follows uses m :=
  (hm.map Prod.fst).trans h

theorem Follows.without {uses : List κ} {l : List (κ × α)} (h : Follows uses l) (k : κ) :
    Follows uses (without k l) :=
  h.sublist List.filter_sublist

/-- An entry that is used goes to the end. -/
theorem Follows.use {uses : List κ} {l : List (κ × α)} {k : κ} (h : Follows uses l) (hk : ∀ e ∈ l, e.1 ≠ k)
    (value : α) : Follows (uses ++ [k]) (l ++ [(k, value)]) := by
  rw [Follows, dedup_concat, List.map_append]
  apply List.Sublist.append _ (List.Sublist.refl _)
  have hself : (l.map Prod.fst).filter (· ≠ k) = l.map Prod.fst := by
    rw [List.filter_eq_self]
    simpa using hk
  rw [← hself]
  exact h.filter _

end SupraHarness.Recency
