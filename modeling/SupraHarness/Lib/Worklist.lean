import Mathlib.Data.List.Nodup
import Mathlib.Data.List.Perm.Subperm
import Mathlib.Logic.Relation

/-!
# Worklists

Everything that can be reached from a start, by a stack of the elements whose neighbours are still to
be looked at. As many rounds as there are elements that are anyone's neighbour are enough, with one for
the start.
-/
namespace SupraHarness.Worklist

open Relation

variable {α : Type} [DecidableEq α]

/-- A neighbour is put on the stack the first time it is seen. -/
def see (state : List α × List α) (x : α) : List α × List α :=
  if x ∈ state.2 then state else (x :: state.1, x :: state.2)

def explore (next : α → List α) : Nat → List α → List α → List α
  | 0, _, visited => visited
  | _ + 1, [], visited => visited
  | fuel + 1, x :: stack, visited =>
    let seen := (next x).foldl see (stack, visited)
    explore next fuel seen.1 seen.2

/-- The walk without a bound, which runs until its stack is empty: it comes to an end with these
elements visited. -/
inductive Explores (next : α → List α) : List α → List α → List α → Prop
  | done (visited : List α) : Explores next [] visited visited
  | round {x : α} {stack visited result : List α}
      (rest : Explores next ((next x).foldl see (stack, visited)).1 ((next x).foldl see (stack, visited)).2 result) :
      Explores next (x :: stack) visited result

/-- Everything on the stack has been visited, and the neighbours of what has left it too. -/
structure Inv (next : α → List α) (start : α) (stack visited : List α) : Prop where
  on : ∀ x ∈ stack, x ∈ visited
  reached : ∀ x ∈ visited, ReflTransGen (fun x y => y ∈ next x) start x
  done : ∀ x ∈ visited, x ∈ stack ∨ ∀ y ∈ next x, y ∈ visited
  nodup : visited.Nodup
  first : start ∈ visited

theorem foldl_see (xs : List α) (stack visited : List α) :
    ∃ new : List α, xs.foldl see (stack, visited) = (new ++ stack, new ++ visited) ∧ new.Nodup ∧
      (∀ x ∈ new, x ∉ visited ∧ x ∈ xs) ∧ ∀ x ∈ xs, x ∈ new ++ visited := by
  induction xs generalizing stack visited with
  | nil => exact ⟨[], rfl, List.nodup_nil, nofun, nofun⟩
  | cons x xs ih =>
    rw [List.foldl_cons, see]
    by_cases old : x ∈ visited
    · rw [if_pos old]
      obtain ⟨new, eq, nodup, fresh, all⟩ := ih stack visited
      refine ⟨new, eq, nodup, fun y mem => ⟨(fresh y mem).1, List.mem_cons_of_mem _ (fresh y mem).2⟩, ?_⟩
      intro y mem
      rcases List.mem_cons.1 mem with rfl | mem
      · exact List.mem_append_right _ old
      · exact all y mem
    · rw [if_neg old]
      obtain ⟨new, eq, nodup, fresh, all⟩ := ih (x :: stack) (x :: visited)
      have apart : x ∉ new := fun mem => (fresh x mem).1 List.mem_cons_self
      refine ⟨new ++ [x], by simp [eq], ?_, ?_, ?_⟩
      · exact List.nodup_append.2 ⟨nodup, by simp, fun a mem b isx => by
          rw [List.mem_singleton] at isx
          rintro rfl
          exact apart (isx ▸ mem)⟩
      · intro y mem
        rcases List.mem_append.1 mem with mem | isx
        · exact ⟨fun visited => (fresh y mem).1 (List.mem_cons_of_mem _ visited),
            List.mem_cons_of_mem _ (fresh y mem).2⟩
        · rw [List.mem_singleton] at isx
          subst isx
          exact ⟨old, List.mem_cons_self⟩
      · intro y mem
        rw [List.append_assoc, List.singleton_append]
        rcases List.mem_cons.1 mem with rfl | mem
        · simp
        · exact all y mem

/-- One round keeps the invariant, and what is still to come gets less. -/
theorem Inv.round {next : α → List α} {start x : α} {stack visited : List α}
    (inv : Inv next start (x :: stack) visited) {seen : List α × List α}
    (eq : (next x).foldl see (stack, visited) = seen) : Inv next start seen.1 seen.2 := by
  obtain ⟨new, found, nodup, fresh, all⟩ := foldl_see (next x) stack visited
  rw [found] at eq
  subst eq
  have from_ := inv.reached x (inv.on x List.mem_cons_self)
  refine ⟨?_, ?_, ?_, ?_, List.mem_append_right _ inv.first⟩
  · intro y mem
    rcases List.mem_append.1 mem with mem | mem
    · exact List.mem_append_left _ mem
    · exact List.mem_append_right _ (inv.on y (List.mem_cons_of_mem _ mem))
  · intro y mem
    rcases List.mem_append.1 mem with mem | mem
    · exact from_.tail (fresh y mem).2
    · exact inv.reached y mem
  · intro y mem
    rcases List.mem_append.1 mem with mem | mem
    · exact Or.inl (List.mem_append_left _ mem)
    · rcases inv.done y mem with here | done
      · rcases List.mem_cons.1 here with rfl | here
        · exact Or.inr all
        · exact Or.inl (List.mem_append_right _ here)
      · exact Or.inr fun z mem => List.mem_append_right _ (done z mem)
  · exact List.nodup_append.2 ⟨nodup, inv.nodup, fun a mem b old => by
      rintro rfl
      exact (fresh a mem).1 old⟩

/-- The elements that are not yet visited. -/
def unseen (candidates visited : List α) : Nat := (candidates.filter fun x => x ∉ visited).length

theorem unseen_append (candidates new visited : List α) (nodup : new.Nodup)
    (fresh : ∀ x ∈ new, x ∉ visited ∧ x ∈ candidates) :
    unseen candidates (new ++ visited) + new.length ≤ unseen candidates visited := by
  have here : new.Subperm ((candidates.filter fun x => x ∉ visited).filter fun x => x ∈ new) := by
    refine List.subperm_of_subset nodup fun x mem => ?_
    simp [fresh x mem, mem]
  have split := List.length_eq_length_filter_add (l := candidates.filter fun x => x ∉ visited)
    fun x => decide (x ∈ new)
  have gone : unseen candidates (new ++ visited) =
      ((candidates.filter fun x => x ∉ visited).filter fun x => !decide (x ∈ new)).length := by
    rw [unseen, List.filter_filter]
    congr 1
    refine List.filter_congr fun x _ => ?_
    simp
  have := here.length_le
  rw [gone, unseen, split]
  omega

theorem explore_inv {next : α → List α} {start : α} {candidates : List α}
    (bounded : ∀ x, ∀ y ∈ next x, y ∈ candidates) {fuel : Nat} {stack visited : List α}
    (inv : Inv next start stack visited) (enough : unseen candidates visited + stack.length ≤ fuel) :
    Inv next start [] (explore next fuel stack visited) := by
  induction fuel generalizing stack visited with
  | zero =>
    obtain rfl := List.length_eq_zero_iff.1 (by omega : stack.length = 0)
    exact inv
  | succ fuel ih =>
    cases stack with
    | nil => exact inv
    | cons x stack =>
      obtain ⟨new, found, nodup, fresh, -⟩ := foldl_see (next x) stack visited
      have less := unseen_append candidates new visited nodup fun y mem =>
        ⟨(fresh y mem).1, bounded x y (fresh y mem).2⟩
      have round := inv.round found
      rw [explore, found]
      refine ih round ?_
      simp only [List.length_append, List.length_cons] at enough ⊢
      omega

/-- With rounds enough the walk comes to its end. -/
theorem explores_explore {next : α → List α} {candidates : List α}
    (bounded : ∀ x, ∀ y ∈ next x, y ∈ candidates) {fuel : Nat} {stack visited : List α}
    (enough : unseen candidates visited + stack.length ≤ fuel) :
    Explores next stack visited (explore next fuel stack visited) := by
  induction fuel generalizing stack visited with
  | zero =>
    obtain rfl := List.length_eq_zero_iff.1 (by omega : stack.length = 0)
    exact .done visited
  | succ fuel ih =>
    cases stack with
    | nil => exact .done visited
    | cons x stack =>
      obtain ⟨new, found, nodup, fresh, -⟩ := foldl_see (next x) stack visited
      have less := unseen_append candidates new visited nodup fun y mem =>
        ⟨(fresh y mem).1, bounded x y (fresh y mem).2⟩
      apply Explores.round
      rw [explore, found]
      apply ih
      simp only [List.length_append, List.length_cons] at enough ⊢
      omega

omit [DecidableEq α] in
theorem inv_start (next : α → List α) (start : α) : Inv next start [start] [start] := by
  refine ⟨by simp, ?_, by simp, by simp, by simp⟩
  intro x mem
  rw [List.mem_singleton] at mem
  exact mem ▸ .refl

theorem explore_start {next : α → List α} {candidates : List α}
    (bounded : ∀ x, ∀ y ∈ next x, y ∈ candidates) {fuel : Nat} (enough : candidates.length < fuel) (start : α) :
    Inv next start [] (explore next fuel [start] [start]) := by
  refine explore_inv bounded (inv_start next start) ?_
  have : unseen candidates [start] ≤ candidates.length := List.length_filter_le _ _
  simp only [List.length_singleton]
  omega

theorem explores_start {next : α → List α} {candidates : List α}
    (bounded : ∀ x, ∀ y ∈ next x, y ∈ candidates) {fuel : Nat} (enough : candidates.length < fuel) (start : α) :
    Explores next [start] [start] (explore next fuel [start] [start]) := by
  apply explores_explore bounded
  have : unseen candidates [start] ≤ candidates.length := List.length_filter_le _ _
  simp only [List.length_singleton]
  omega

/-- The result is what can be reached. -/
theorem mem_explore {next : α → List α} {start : α} {candidates : List α}
    (bounded : ∀ x, ∀ y ∈ next x, y ∈ candidates) {fuel : Nat} (enough : candidates.length < fuel) (y : α) :
    y ∈ explore next fuel [start] [start] ↔ ReflTransGen (fun x y => y ∈ next x) start y := by
  have inv := explore_start bounded enough start
  refine ⟨inv.reached y, fun reach => ?_⟩
  induction reach with
  | refl => exact inv.first
  | tail _ step ih => exact ((inv.done _ ih).resolve_left nofun) _ step

theorem nodup_explore {next : α → List α} {start : α} {candidates : List α}
    (bounded : ∀ x, ∀ y ∈ next x, y ∈ candidates) {fuel : Nat} (enough : candidates.length < fuel) :
    (explore next fuel [start] [start]).Nodup := (explore_start bounded enough start).nodup

end SupraHarness.Worklist
