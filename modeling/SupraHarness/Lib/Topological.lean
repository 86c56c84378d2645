import Mathlib.Data.List.Chain
import Mathlib.Data.List.Nodup
import Mathlib.Logic.Relation
import SupraHarness.Lib.Results

/-!
# Topological orders

A list is grounded if everything that an element points to stands behind it. What can be reached from an element
then stands behind it too, so that no element of a grounded list without repetitions can be reached from itself.
A path that comes back to one of its elements is a cycle.
-/
namespace SupraHarness.Topological

open Relation

variable {α : Type} {points : α → α → Prop}

/-- Everything that an element points to stands behind it. -/
def Grounded (points : α → α → Prop) : List α → Prop
  | [] => True
  | a :: rest => (∀ b, points a b → b ∈ rest) ∧ Grounded points rest

/-- Some element can be reached from itself. -/
def Cyclic (points : α → α → Prop) : Prop := ∃ a, TransGen points a a

theorem Grounded.closed {l : List α} (h : Grounded points l) {a b : α} (mem : a ∈ l) (edge : points a b) : b ∈ l := by
  induction l with
  | nil => cases mem
  | cons first rest ih =>
    rcases List.mem_cons.1 mem with rfl | mem
    · exact List.mem_cons_of_mem _ (h.1 b edge)
    · exact List.mem_cons_of_mem _ (ih h.2 mem)

theorem Grounded.closed_trans {l : List α} (h : Grounded points l) {a b : α} (mem : a ∈ l)
    (path : TransGen points a b) : b ∈ l := by
  induction path with
  | single edge => exact h.closed mem edge
  | tail _ edge ih => exact h.closed ih edge

/-- What can be reached from an element stands behind it. -/
theorem Grounded.behind {front back : List α} {a b : α} (h : Grounded points (front ++ a :: back))
    (path : TransGen points a b) : b ∈ back := by
  induction front with
  | nil =>
    rcases TransGen.head'_iff.1 path with ⟨c, edge, rest⟩
    rcases reflTransGen_iff_eq_or_transGen.1 rest with rfl | rest
    · exact h.1 _ edge
    · exact h.2.closed_trans (h.1 c edge) rest
  | cons first front ih => exact ih h.2

theorem Grounded.acyclic {l : List α} (h : Grounded points l) (apart : l.Nodup) {a : α} (mem : a ∈ l) :
    ¬ TransGen points a a := by
  intro path
  obtain ⟨front, back, rfl⟩ := List.append_of_mem mem
  have again : a ∈ back := h.behind path
  exact (List.nodup_cons.1 (List.nodup_append.1 apart).2.1).1 again

/-- A path that comes back to one of its elements. -/
theorem cyclic_of_path {path : List α} {a : α} (mem : a ∈ path) (chain : (path ++ [a]).IsChain points) :
    Cyclic points := by
  have pairs : (path ++ [a]).Pairwise (TransGen points) := (chain.imp fun _ _ => TransGen.single).pairwise
  exact ⟨a, (List.pairwise_append.1 pairs).2.2 a mem a (List.mem_singleton_self a)⟩

/-! ## Depth-first walks -/

/-- What a depth-first walk has done with, newest first, while these elements are on its stack. -/
structure Walked (points : α → α → Prop) (stack done : List α) : Prop where
  grounded : Grounded points done
  nodup : done.Nodup
  apart : ∀ a ∈ stack, a ∉ done

theorem walked_nil (stack : List α) : Walked points stack [] := ⟨trivial, List.nodup_nil, nofun⟩

/-- An element may be looked at while it is not done with. -/
theorem Walked.push {stack done : List α} {a : α} (h : Walked points stack done) (fresh : a ∉ done) :
    Walked points (stack ++ [a]) done :=
  ⟨h.grounded, h.nodup, List.forall_mem_append.2 ⟨h.apart, List.forall_mem_singleton.2 fresh⟩⟩

/-- The walk is done with an element when it is done with all that it points to. -/
theorem Walked.pop {stack done : List α} {a : α} (h : Walked points (stack ++ [a]) done) (free : a ∉ stack)
    (below : ∀ b, points a b → b ∈ done) : Walked points stack (a :: done) := by
  obtain ⟨others, last⟩ := List.forall_mem_append.1 h.apart
  have last : a ∉ done := last a (List.mem_singleton_self a)
  refine ⟨⟨below, h.grounded⟩, List.nodup_cons.2 ⟨last, h.nodup⟩, fun b mem => ?_⟩
  rw [List.mem_cons, not_or]
  exact ⟨fun same => free (same ▸ mem), others b mem⟩

/-- A walk over several elements, each of which extends what is done with by itself. -/
theorem Walked.foldlM {ε : Type} {stack : List α} {visit : List α → α → Except ε (List α)} {elements : List α}
    (one : ∀ a ∈ elements, ∀ done done', Walked points stack done → visit done a = .ok done' →
      Walked points stack done' ∧ done ⊆ done' ∧ a ∈ done') {done done' : List α} (h : Walked points stack done)
    (all : elements.foldlM visit done = .ok done') :
    Walked points stack done' ∧ done ⊆ done' ∧ ∀ a ∈ elements, a ∈ done' := by
  induction elements generalizing done with
  | nil =>
    cases all
    exact ⟨h, fun _ mem => mem, nofun⟩
  | cons first elements ih =>
    rw [List.foldlM_cons] at all
    obtain ⟨next, step, all⟩ := Results.bind_eq_ok.1 all
    obtain ⟨h', more, mem⟩ := one first List.mem_cons_self done next h step
    obtain ⟨h'', rest, others⟩ := ih (fun a mem => one a (List.mem_cons_of_mem _ mem)) h' all
    exact ⟨h'', fun _ mem => rest (more mem), List.forall_mem_cons.2 ⟨rest mem, others⟩⟩

end SupraHarness.Topological
