import Mathlib.Data.List.Basic
import Mathlib.Order.Nat
import SupraHarness.Lib.Rose

/-!
# Spans of trees

Trees whose nodes have spans: the children of a node lie one after the other within it. In such a tree
at most one child contains a range that is not empty, and whatever has that range as its span is
found by going down into it.
-/
namespace SupraHarness

namespace Rose

variable {α : Type}

mutual
/-- The nodes of a tree, a node before what is below it. -/
def nodes : Rose α → List (Rose α)
  | node label children => node label children :: nodesAll children

def nodesAll : List (Rose α) → List (Rose α)
  | [] => []
  | tree :: trees => nodes tree ++ nodesAll trees
end

theorem nodes_eq (tree : Rose α) : tree.nodes = tree :: nodesAll tree.children := by
  cases tree with
  | node label children => rw [nodes, Rose.children]

theorem nodesAll_eq (trees : List (Rose α)) : nodesAll trees = trees.flatMap nodes := by
  induction trees with
  | nil => rfl
  | cons tree trees ih => rw [nodesAll, ih, List.flatMap_cons]

theorem size_lt_of_mem_children {tree child : Rose α} (mem : child ∈ tree.children) : child.size < tree.size := by
  have below : ∀ trees : List (Rose α), child ∈ trees → child.size ≤ sizes trees := by
    intro trees
    induction trees with
    | nil => intro mem; cases mem
    | cons first trees ih =>
      intro mem
      rw [sizes]
      rcases List.mem_cons.1 mem with rfl | mem
      · omega
      · have := ih mem
        omega
  exact (below _ mem).trans_lt (sizes_children tree)

mutual
/-- The same tree with other labels. -/
def map {β : Type} (f : α → β) : Rose α → Rose β
  | node label children => node (f label) (mapAll f children)

def mapAll {β : Type} (f : α → β) : List (Rose α) → List (Rose β)
  | [] => []
  | tree :: trees => map f tree :: mapAll f trees
end

end Rose

namespace Spans

variable {α : Type} (start stop : α → Nat)

mutual
/-- Every node lies the right way round, and its children one after the other within it. -/
def WellNested : Rose α → Prop
  | .node label children => start label ≤ stop label ∧ Between (start label) (stop label) children

def Between (low high : Nat) : List (Rose α) → Prop
  | [] => True
  | tree :: trees =>
    low ≤ start tree.label ∧ stop tree.label ≤ high ∧ WellNested tree ∧ Between (stop tree.label) high trees
end

/-- A node that has the range as its span. -/
def Has (low high : Nat) (tree : Rose α) : Prop := start tree.label = low ∧ stop tree.label = high

/-- A node that the range lies in. -/
def Contains (low high : Nat) (tree : Rose α) : Prop := start tree.label ≤ low ∧ high ≤ stop tree.label

instance (low high : Nat) : DecidablePred (Has start stop low high) :=
  fun _ => inferInstanceAs (Decidable (_ ∧ _))

instance (low high : Nat) : DecidablePred (Contains start stop low high) :=
  fun _ => inferInstanceAs (Decidable (_ ∧ _))

variable {start stop}

theorem WellNested.between {tree : Rose α} (nested : WellNested start stop tree) :
    Between start stop (start tree.label) (stop tree.label) tree.children := by
  cases tree with
  | node label children =>
    rw [WellNested] at nested
    exact nested.2

theorem WellNested.le {tree : Rose α} (nested : WellNested start stop tree) :
    start tree.label ≤ stop tree.label := by
  cases tree with
  | node label children =>
    rw [WellNested] at nested
    exact nested.1

theorem Between.of_mem {low high : Nat} {trees : List (Rose α)} (between : Between start stop low high trees)
    {tree : Rose α} (mem : tree ∈ trees) :
    low ≤ start tree.label ∧ stop tree.label ≤ high ∧ WellNested start stop tree := by
  induction trees generalizing low with
  | nil => cases mem
  | cons first trees ih =>
    rw [Between] at between
    obtain ⟨above, below, nested, rest⟩ := between
    rcases List.mem_cons.1 mem with rfl | mem
    · exact ⟨above, below, nested⟩
    · obtain ⟨after, within, inner⟩ := ih rest mem
      exact ⟨above.trans (nested.le.trans after), within, inner⟩

/-- Whatever is in a tree lies within its root. -/
theorem WellNested.of_mem_nodes {tree : Rose α} (nested : WellNested start stop tree) {inner : Rose α}
    (mem : inner ∈ tree.nodes) :
    Contains start stop (start inner.label) (stop inner.label) tree ∧ WellNested start stop inner := by
  induction size : tree.size using Nat.strongRecOn generalizing tree with
  | ind n ih =>
    rw [Rose.nodes_eq, Rose.nodesAll_eq] at mem
    rcases List.mem_cons.1 mem with rfl | mem
    · exact ⟨⟨le_rfl, le_rfl⟩, nested⟩
    · obtain ⟨child, here, mem⟩ := List.mem_flatMap.1 mem
      obtain ⟨above, below, childNested⟩ := nested.between.of_mem here
      obtain ⟨⟨left, right⟩, innerNested⟩ := ih _ (size ▸ Rose.size_lt_of_mem_children here) childNested mem rfl
      exact ⟨⟨above.trans left, right.trans below⟩, innerNested⟩

/-- What lies before a sibling ends where that starts, at the latest. -/
theorem Between.pairwise {low high : Nat} {trees : List (Rose α)} (between : Between start stop low high trees) :
    trees.Pairwise fun before after => stop before.label ≤ start after.label := by
  induction trees generalizing low with
  | nil => exact List.Pairwise.nil
  | cons first trees ih =>
    rw [Between] at between
    obtain ⟨-, -, -, rest⟩ := between
    exact List.pairwise_cons.2 ⟨fun tree mem => (rest.of_mem mem).1, ih rest⟩

/-- At most one sibling contains a range that is not empty. -/
theorem Between.containing {low high first last : Nat} {trees : List (Rose α)}
    (between : Between start stop low high trees) (nonempty : first < last) :
    (trees.filter fun tree => Contains start stop first last tree) = [] ∨
      ∃ tree ∈ trees, (trees.filter fun tree => Contains start stop first last tree) = [tree] := by
  have apart := between.pairwise.filter fun tree => decide (Contains start stop first last tree)
  cases here : trees.filter fun tree => Contains start stop first last tree with
  | nil => exact .inl rfl
  | cons tree others =>
    have holds : ∀ other ∈ tree :: others, other ∈ trees ∧ Contains start stop first last other := by
      intro other mem
      rw [← here, List.mem_filter, decide_eq_true_eq] at mem
      exact mem
    cases others with
    | nil => exact .inr ⟨tree, (holds tree (by simp)).1, rfl⟩
    | cons other others =>
      rw [here, List.pairwise_cons] at apart
      have before := apart.1 other (by simp)
      have left := (holds tree (by simp)).2.2
      have right := (holds other (by simp)).2.1
      omega

theorem findSome?_filter {β : Type} {f : α → Option β} {p : α → Bool} {xs : List α}
    (none_ : ∀ x ∈ xs, p x = false → f x = none) : (xs.filter p).findSome? f = xs.findSome? f := by
  induction xs with
  | nil => rfl
  | cons x xs ih =>
    have rest := ih fun y mem => none_ y (List.mem_cons_of_mem _ mem)
    cases holds : p x with
    | false => rw [List.filter_cons_of_neg (by simp [holds]), rest, List.findSome?_cons, none_ x (by simp) holds]
    | true => rw [List.filter_cons_of_pos holds, List.findSome?_cons, List.findSome?_cons, rest]

theorem find?_nodes_of_not_contains {tree : Rose α} (nested : WellNested start stop tree) {first last : Nat}
    (outside : ¬ Contains start stop first last tree) :
    (tree.nodes.find? fun inner => Has start stop first last inner) = none := by
  rw [List.find?_eq_none]
  intro inner mem has
  obtain ⟨rfl, rfl⟩ := of_decide_eq_true has
  exact outside (nested.of_mem_nodes mem).1

/-- The first node with a span is the root, or is in the child that contains the span. -/
theorem find?_nodes {tree : Rose α} (nested : WellNested start stop tree) (first last : Nat) :
    (tree.nodes.find? fun inner => Has start stop first last inner) =
      if Has start stop first last tree then some tree
      else (tree.children.filter fun child => Contains start stop first last child).findSome? fun child =>
        child.nodes.find? fun inner => Has start stop first last inner := by
  rw [Rose.nodes_eq, List.find?_cons]
  by_cases has : Has start stop first last tree
  · simp [has]
  · rw [if_neg has, decide_eq_false has, Rose.nodesAll_eq, List.find?_flatMap]
    refine (findSome?_filter fun child mem outside => ?_).symm
    exact find?_nodes_of_not_contains (nested.between.of_mem mem).2.2 (of_decide_eq_false outside)

theorem filter_nodes_of_not_contains {tree : Rose α} (nested : WellNested start stop tree) {first last : Nat}
    (outside : ¬ Contains start stop first last tree) :
    (tree.nodes.filter fun inner => Has start stop first last inner) = [] := by
  rw [List.filter_eq_nil_iff]
  intro inner mem has
  obtain ⟨rfl, rfl⟩ := of_decide_eq_true has
  exact outside (nested.of_mem_nodes mem).1

/-- The nodes with a span are the root, if it has it, and those of the child that contains the span. -/
theorem filter_nodes {tree : Rose α} (nested : WellNested start stop tree) (first last : Nat) :
    (tree.nodes.filter fun inner => Has start stop first last inner) =
      (if Has start stop first last tree then [tree] else []) ++
        (tree.children.filter fun child => Contains start stop first last child).flatMap fun child =>
          child.nodes.filter fun inner => Has start stop first last inner := by
  have below : ∀ trees : List (Rose α), (∀ child ∈ trees, WellNested start stop child) →
      ((Rose.nodesAll trees).filter fun inner => Has start stop first last inner) =
        (trees.filter fun child => Contains start stop first last child).flatMap fun child =>
          child.nodes.filter fun inner => Has start stop first last inner := by
    intro trees all
    induction trees with
    | nil => rfl
    | cons child trees ih =>
      rw [Rose.nodesAll, List.filter_append, ih fun other mem => all other (List.mem_cons_of_mem _ mem)]
      by_cases inside : Contains start stop first last child
      · rw [List.filter_cons_of_pos (by simpa using inside), List.flatMap_cons]
      · rw [List.filter_cons_of_neg (by simpa using inside),
          filter_nodes_of_not_contains (all child (by simp)) inside, List.nil_append]
  have children := below tree.children fun child mem => (nested.between.of_mem mem).2.2
  rw [Rose.nodes_eq, List.filter_cons, children]
  by_cases has : Has start stop first last tree <;> simp [has]

theorem Has.contains {tree : Rose α} {first last : Nat} (has : Has start stop first last tree) :
    Contains start stop first last tree := ⟨has.1.le, has.2.ge⟩

/-- A span is that of one node only exactly where no child of the first such node has it too. -/
theorem filter_nodes_eq_singleton {tree : Rose α} (nested : WellNested start stop tree) {first last : Nat}
    (nonempty : first < last) (node : Rose α) :
    (tree.nodes.filter fun inner => Has start stop first last inner) = [node] ↔
      (tree.nodes.find? fun inner => Has start stop first last inner) = some node ∧
        ∀ child ∈ node.children, ¬ Has start stop first last child := by
  induction size : tree.size using Nat.strongRecOn generalizing tree with
  | ind n ih =>
    rw [filter_nodes nested, find?_nodes nested]
    by_cases has : Has start stop first last tree
    · have none_below : ((tree.children.filter fun child => Contains start stop first last child).flatMap
          fun child => child.nodes.filter fun inner => Has start stop first last inner) = [] ↔
            ∀ child ∈ tree.children, ¬ Has start stop first last child := by
        rw [List.flatMap_eq_nil_iff]
        constructor
        · intro empty child mem inside
          have nil := empty child (List.mem_filter.2 ⟨mem, by simpa using inside.contains⟩)
          rw [List.filter_eq_nil_iff] at nil
          exact nil child (by rw [Rose.nodes_eq]; simp) (by simpa using inside)
        · intro none_ child mem
          obtain ⟨mem, inside⟩ := List.mem_filter.1 mem
          obtain ⟨left, right⟩ := of_decide_eq_true inside
          obtain ⟨above, below, -⟩ := nested.between.of_mem mem
          refine absurd ⟨?_, ?_⟩ (none_ child mem)
          · exact le_antisymm left (has.1 ▸ above)
          · exact le_antisymm (has.2 ▸ below) right
      rw [if_pos has, if_pos has, List.singleton_append, List.cons.injEq, none_below, Option.some.injEq]
      constructor
      · rintro ⟨rfl, none_⟩
        exact ⟨rfl, none_⟩
      · rintro ⟨rfl, none_⟩
        exact ⟨rfl, none_⟩
    · rw [if_neg has, if_neg has, List.nil_append]
      rcases nested.between.containing nonempty with outside | ⟨child, mem, one⟩
      · rw [outside]
        simp
      · rw [one, List.flatMap_singleton, List.findSome?_singleton]
        exact ih _ (size ▸ Rose.size_lt_of_mem_children mem) (nested.between.of_mem mem).2.2 rfl

end Spans
end SupraHarness
