import Mathlib.Data.List.Basic

/-!
# Trees

Trees whose nodes have any number of children. A walk with an explicit stack visits them in the order
of the text, each with what its parent passed down, and threads a state through its visits; it is the
recursion over the tree.
-/
namespace SupraHarness

inductive Rose (α : Type) where
  | node (label : α) (children : List (Rose α))

namespace Rose

variable {α : Type}

def label : Rose α → α
  | node label _ => label

def children : Rose α → List (Rose α)
  | node _ children => children

mutual
def size : Rose α → Nat
  | node _ children => sizes children + 1

def sizes : List (Rose α) → Nat
  | [] => 0
  | tree :: trees => size tree + sizes trees
end

theorem sizes_append (front back : List (Rose α)) : sizes (front ++ back) = sizes front + sizes back := by
  induction front with
  | nil => simp [sizes]
  | cons tree trees ih => simp only [List.cons_append, sizes, ih, Nat.add_assoc]

theorem sizes_children (tree : Rose α) : sizes tree.children < size tree := by
  cases tree with
  | node label children => simp [size, Rose.children]

section Walk
variable {σ ε : Type} (visit : σ → ε → Rose α → σ × ε)

/-- Push the children, the last of them first. -/
def push (passed : ε) (trees : List (Rose α)) (stack : List (Rose α × ε)) : List (Rose α × ε) :=
  trees.reverse.foldl (fun stack tree => (tree, passed) :: stack) stack

theorem push_eq (passed : ε) (trees : List (Rose α)) (stack : List (Rose α × ε)) :
    push passed trees stack = trees.map (·, passed) ++ stack := by
  rw [push, List.foldl_reverse]
  induction trees with
  | nil => rfl
  | cons tree trees ih => rw [List.foldr_cons, ih, List.map_cons, List.cons_append]

theorem sizes_push (passed : ε) (trees : List (Rose α)) (stack : List (Rose α × ε)) :
    sizes ((push passed trees stack).map Prod.fst) = sizes trees + sizes (stack.map Prod.fst) := by
  have same : (trees.map (·, passed)).map Prod.fst = trees := by
    rw [List.map_map]
    exact List.map_id trees
  rw [push_eq, List.map_append, same, sizes_append]

/-- The walk: until the stack is empty, visit its top and push the children of that. -/
def walk (state : σ) : List (Rose α × ε) → σ
  | [] => state
  | (tree, passed) :: stack =>
    walk (visit state passed tree).1 (push (visit state passed tree).2 tree.children stack)
termination_by stack => sizes (stack.map Prod.fst)
decreasing_by
  have smaller := sizes_children tree
  simp only [sizes_push, List.map_cons, sizes]
  omega

mutual
/-- The same visits, as the recursion over the tree. -/
def descend (state : σ) (passed : ε) : Rose α → σ
  | node label children =>
    descendAll (visit state passed (node label children)).1
      (visit state passed (node label children)).2 children

def descendAll (state : σ) (passed : ε) : List (Rose α) → σ
  | [] => state
  | tree :: trees => descendAll (descend state passed tree) passed trees
end

theorem descend_eq (state : σ) (passed : ε) (tree : Rose α) :
    descend visit state passed tree =
      descendAll visit (visit state passed tree).1 (visit state passed tree).2 tree.children := by
  cases tree with
  | node label children => rw [descend, Rose.children]

theorem foldl_descend (trees : List (Rose α)) (state : σ) (passed : ε) :
    (trees.map (·, passed)).foldl (fun state entry => descend visit state entry.2 entry.1) state =
      descendAll visit state passed trees := by
  induction trees generalizing state with
  | nil => rw [descendAll]; rfl
  | cons tree trees ih =>
    rw [List.map_cons, List.foldl_cons, ih, descendAll]

/-- The walk descends into what is on its stack, one after the other. -/
theorem walk_eq (stack : List (Rose α × ε)) (state : σ) :
    walk visit state stack =
      stack.foldl (fun state entry => descend visit state entry.2 entry.1) state := by
  induction size : sizes (stack.map Prod.fst) using Nat.strongRecOn generalizing stack state with
  | ind n ih =>
    cases stack with
    | nil => rw [walk]; rfl
    | cons entry stack =>
      obtain ⟨tree, passed⟩ := entry
      have smaller := sizes_children tree
      simp only [List.map_cons, sizes] at size
      rw [walk, ih _ (by rw [sizes_push]; omega) _ _ rfl, push_eq, List.foldl_append, foldl_descend,
        List.foldl_cons, descend_eq]

end Walk

/-- Visits that do the same to the images of states descend alike. -/
theorem descend_map {σ τ ε : Type} {visit : σ → ε → Rose α → σ × ε} {visit' : τ → ε → Rose α → τ × ε}
    (f : σ → τ) (same : ∀ state passed tree,
      visit' (f state) passed tree = (f (visit state passed tree).1, (visit state passed tree).2))
    (tree : Rose α) (state : σ) (passed : ε) :
    descend visit' (f state) passed tree = f (descend visit state passed tree) := by
  match tree with
  | node label children =>
    rw [descend, descend, same]
    exact descendAll_map children _ _
where
  descendAll_map (trees : List (Rose α)) (state : σ) (passed : ε) :
      descendAll visit' (f state) passed trees = f (descendAll visit state passed trees) := by
    match trees with
    | [] => rw [descendAll, descendAll]
    | tree :: trees =>
      rw [descendAll, descendAll, descend_map f same tree]
      exact descendAll_map trees _ _

/-! ## Occurrences -/

mutual
/-- The nodes of a tree in the order of the text, each with its ancestors, the nearest first. -/
def occurrences (ancestors : List (Rose α)) : Rose α → List (List (Rose α) × Rose α)
  | node label children =>
    (ancestors, node label children) :: occurrencesAll (node label children :: ancestors) children

def occurrencesAll (ancestors : List (Rose α)) : List (Rose α) → List (List (Rose α) × Rose α)
  | [] => []
  | tree :: trees => occurrences ancestors tree ++ occurrencesAll ancestors trees
end

end Rose
end SupraHarness
