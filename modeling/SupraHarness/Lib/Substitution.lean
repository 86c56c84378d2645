import Mathlib.Data.List.Enum
import Mathlib.Data.List.Pairwise
import Mathlib.Order.Nat

/-!
# Substitution in a sequence

Ranges of a sequence replaced by one text, all at once. Splicing the ranges one after the other comes to
the same where each lies before those that have been spliced: what is in front of a splice is where it was.
-/
namespace SupraHarness.Substitution

variable {α : Type} (new : List α)

/-- One range replaced. -/
def splice (source : List α) (range : Nat × Nat) : List α := source.take range.1 ++ new ++ source.drop range.2

/-- What becomes of one place: the new text where a range starts, and the place itself outside of them. -/
def cell (ranges : List (Nat × Nat)) (entry : α × Nat) : List α :=
  (if ∃ range ∈ ranges, range.1 = entry.2 then new else []) ++
    if ∃ range ∈ ranges, range.1 ≤ entry.2 ∧ entry.2 < range.2 then [] else [entry.1]

/-- Every range replaced at once. -/
def substitute (ranges : List (Nat × Nat)) (source : List α) : List α :=
  source.zipIdx.flatMap (cell new ranges)

variable {new}

theorem cell_congr {ranges ranges' : List (Nat × Nat)} (same : ∀ range, range ∈ ranges ↔ range ∈ ranges') :
    cell new ranges = cell new ranges' := by
  funext entry
  simp only [cell, same]

/-- Where no range reaches, everything stays. -/
theorem flatMap_outside {f : α × Nat → List α} {source : List α} {start : Nat}
    (stays : ∀ entry ∈ source.zipIdx start, f entry = [entry.1]) : (source.zipIdx start).flatMap f = source := by
  induction source generalizing start with
  | nil => rfl
  | cons x source ih =>
    rw [List.zipIdx_cons, List.flatMap_cons, stays (x, start) (by simp [List.zipIdx_cons]),
      ih fun entry mem => stays entry (by rw [List.zipIdx_cons]; exact List.mem_cons_of_mem _ mem)]
    rfl

theorem le_of_mem_zipIdx {entry : α × Nat} {source : List α} {start : Nat}
    (mem : entry ∈ source.zipIdx start) : start ≤ entry.2 ∧ entry.2 < start + source.length := by
  have bounds := List.mem_zipIdx mem
  exact ⟨bounds.1, bounds.2.1⟩

theorem substitute_nil (source : List α) : substitute new [] source = source :=
  flatMap_outside fun entry _ => by simp [cell]

/-- A range does not reach what is in front of it. -/
theorem cell_cons_of_lt {range : Nat × Nat} {ranges : List (Nat × Nat)} {entry : α × Nat}
    (before : entry.2 < range.1) : cell new (range :: ranges) entry = cell new ranges entry := by
  have start : ¬ range.1 = entry.2 := by omega
  have inside : ¬ (range.1 ≤ entry.2 ∧ entry.2 < range.2) := by omega
  simp only [cell, List.exists_mem_cons_iff, start, inside, false_or]

/-- Ranges in front of another do not reach what is behind its start. -/
theorem cell_cons_of_le {range : Nat × Nat} {ranges : List (Nat × Nat)} {entry : α × Nat}
    (apart : ∀ other ∈ ranges, other.1 < other.2 ∧ other.2 ≤ range.1) (after : range.1 ≤ entry.2) :
    cell new (range :: ranges) entry =
      (if range.1 = entry.2 then new else []) ++ if entry.2 < range.2 then [] else [entry.1] := by
  have start : ¬ ∃ other ∈ ranges, other.1 = entry.2 := by
    rintro ⟨other, mem, equal⟩
    have bounds := apart other mem
    omega
  have inside : ¬ ∃ other ∈ ranges, other.1 ≤ entry.2 ∧ entry.2 < other.2 := by
    rintro ⟨other, mem, bounds'⟩
    have bounds := apart other mem
    omega
  simp only [cell, List.exists_mem_cons_iff, start, inside, or_false, after, true_and]

/-- The last of the ranges replaced, and the others in what is in front of it. -/
theorem substitute_cons {range : Nat × Nat} {ranges : List (Nat × Nat)} {source : List α}
    (nonempty : range.1 < range.2) (within : range.2 ≤ source.length)
    (apart : ∀ other ∈ ranges, other.1 < other.2 ∧ other.2 ≤ range.1) :
    substitute new (range :: ranges) source =
      substitute new ranges (source.take range.1) ++ new ++ source.drop range.2 := by
  obtain ⟨low, high⟩ := range
  dsimp only at nonempty within apart ⊢
  -- the source in four parts: in front, the first place of the range, the rest of it, and behind
  obtain ⟨x, inside, middle⟩ : ∃ x inside, source.drop low = x :: inside ++ source.drop high := by
    refine ⟨source.get ⟨low, by omega⟩, (source.drop (low + 1)).take (high - (low + 1)), ?_⟩
    have rest : source.drop high = (source.drop (low + 1)).drop (high - (low + 1)) := by
      rw [List.drop_drop]
      congr 1
      omega
    rw [rest, List.cons_append, List.take_append_drop, List.drop_eq_getElem_cons (by omega)]
    rfl
  have sizes : inside.length + 1 + (source.length - high) = source.length - low := by
    have equal := congrArg List.length middle
    rw [List.length_drop, List.length_append, List.length_cons, List.length_drop] at equal
    omega
  have front : (source.take low).length = low := by rw [List.length_take]; omega
  conv_lhs => rw [substitute, ← List.take_append_drop low source, middle]
  rw [List.zipIdx_append, List.flatMap_append, List.cons_append, List.zipIdx_cons, List.flatMap_cons,
    List.zipIdx_append, List.flatMap_append, front, substitute, Nat.zero_add, List.append_assoc]
  congr 1
  · refine List.flatMap_congr fun entry mem => cell_cons_of_lt ?_
    have bounds := le_of_mem_zipIdx mem
    dsimp only
    omega
  · rw [cell_cons_of_le apart le_rfl, if_pos rfl, if_pos nonempty, List.append_nil]
    have gone : (inside.zipIdx (low + 1)).flatMap (cell new ((low, high) :: ranges)) = [] := by
      refine List.flatMap_eq_nil_iff.2 fun entry mem => ?_
      have bounds := le_of_mem_zipIdx mem
      rw [cell_cons_of_le apart (by dsimp only; omega), if_neg (by dsimp only; omega), if_pos (by dsimp only; omega)]
      rfl
    have behind : ((source.drop high).zipIdx (low + 1 + inside.length)).flatMap (cell new ((low, high) :: ranges)) =
        source.drop high := by
      refine flatMap_outside fun entry mem => ?_
      have bounds := le_of_mem_zipIdx mem
      rw [cell_cons_of_le apart (by dsimp only; omega), if_neg (by dsimp only; omega), if_neg (by dsimp only; omega)]
      rfl
    rw [gone, behind, List.nil_append]

/-- What is behind the ranges stays there. -/
theorem foldl_splice_append {ranges : List (Nat × Nat)} {front : List α} (back : List α)
    (ordered : ranges.Pairwise fun range next => next.2 ≤ range.1)
    (within : ∀ range ∈ ranges, range.1 ≤ range.2 ∧ range.2 ≤ front.length) :
    ranges.foldl (splice new) (front ++ back) = ranges.foldl (splice new) front ++ back := by
  induction ranges generalizing front back with
  | nil => rfl
  | cons range ranges ih =>
    rw [List.pairwise_cons] at ordered
    obtain ⟨le, inside⟩ := within range (by simp)
    have rest : ∀ next ∈ ranges, next.1 ≤ next.2 ∧ next.2 ≤ (front.take range.1).length := by
      intro next mem
      have before := ordered.1 next mem
      have bounds := within next (List.mem_cons_of_mem _ mem)
      rw [List.length_take]
      omega
    rw [List.foldl_cons, List.foldl_cons, splice, splice, List.take_append_of_le_length (le.trans inside),
      List.drop_append_of_le_length inside, List.append_assoc, List.append_assoc,
      ih _ ordered.2 rest, ih _ ordered.2 rest]
    simp only [List.append_assoc]

/-- Splices from the back to the front replace every range at once. -/
theorem foldl_splice {ranges : List (Nat × Nat)} {source : List α}
    (nonempty : ∀ range ∈ ranges, range.1 < range.2) (within : ∀ range ∈ ranges, range.2 ≤ source.length)
    (ordered : ranges.Pairwise fun range next => next.2 ≤ range.1) :
    ranges.foldl (splice new) source = substitute new ranges source := by
  induction ranges generalizing source with
  | nil => exact (substitute_nil source).symm
  | cons range ranges ih =>
    rw [List.pairwise_cons] at ordered
    have first := nonempty range (by simp)
    have inside := within range (by simp)
    have rest : ∀ next ∈ ranges, next.1 < next.2 ∧ next.2 ≤ range.1 := fun next mem =>
      ⟨nonempty next (List.mem_cons_of_mem _ mem), ordered.1 next mem⟩
    have front : (source.take range.1).length = range.1 := by rw [List.length_take]; omega
    have before : ∀ next ∈ ranges, next.1 ≤ next.2 ∧ next.2 ≤ (source.take range.1).length := fun next mem =>
      ⟨(rest next mem).1.le, by rw [front]; exact (rest next mem).2⟩
    rw [List.foldl_cons, splice, List.append_assoc, foldl_splice_append _ ordered.2 before,
      ih (fun next mem => (rest next mem).1) (fun next mem => (before next mem).2) ordered.2,
      substitute_cons first inside rest, List.append_assoc]

end SupraHarness.Substitution
