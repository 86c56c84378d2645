import SupraHarness.Lib.Rose

/-!
# Scopes of a tree

A node of a tree may open a scope of its own, declare a name and open its scope, be a declaration
without a name, or be plain. The scope of a declared name is the nearest that an ancestor opens. A walk
that puts what is below a nameless declaration into the scope of the name declared last is right where
that is the nearest scope, or where nothing is in the reach of the nameless declaration.
-/
namespace SupraHarness

inductive Binding (β : Type) where
  | scope (name : β)
  | declare (name : β)
  | nameless
  | plain
  deriving DecidableEq, Repr

namespace Binding

variable {β : Type}

def declared : Binding β → Option β
  | declare name => some name
  | _ => none

/-- The scope a node opens for what is below it. -/
def opened : Binding β → Option β
  | scope name => some name
  | declare name => some name
  | _ => none

end Binding

namespace Scopes

open Rose

variable {α β : Type}

/-- A declared name, its node and the scope it is put in. -/
structure Placed (α β : Type) where
  node : Rose α
  name : β
  scope : Option β

variable (bind : Rose α → Binding β)

/-- The scope that the nearest of the ancestors opens. -/
def nearest (ancestors : List (Rose α)) : Option β := ancestors.findSome? fun node => (bind node).opened

/-- A node with its ancestors, put in the nearest scope if it declares a name. -/
def place (entry : List (Rose α) × Rose α) : Option (Placed α β) :=
  (bind entry.2).declared.map fun name => ⟨entry.2, name, nearest bind entry.1⟩

def lastName (found : List (Placed α β)) : Option β := found.getLast?.map Placed.name

/-- The visit of the walk: below a nameless declaration is the scope of the name found last. -/
def guess (found : List (Placed α β)) (scope : Option β) (node : Rose α) :
    List (Placed α β) × Option β :=
  match bind node with
  | .scope name => (found, some name)
  | .declare name => (found ++ [⟨node, name, scope⟩], some name)
  | .nameless => (found, (lastName found).or scope)
  | .plain => (found, scope)

mutual
/-- A declared name can be reached without passing a node that is not plain. -/
def exposes : Rose α → Bool
  | node label children =>
    match bind (node label children) with
    | .scope _ => false
    | .declare _ => true
    | .nameless => false
    | .plain => exposesAny children

def exposesAny : List (Rose α) → Bool
  | [] => false
  | tree :: trees => exposes tree || exposesAny trees
end

/-- The name declared last among the occurrences, or else before them. -/
def lastDeclared (last : Option β) (entries : List (List (Rose α) × Rose α)) : Option β :=
  (entries.filterMap fun entry => (bind entry.2).declared).getLast?.or last

/-- Wherever a nameless declaration exposes a name, the name declared last before it, if there is one,
is the nearest scope. -/
def Confined (last : Option β) (entries : List (List (Rose α) × Rose α)) : Prop :=
  ∀ front entry back, entries = front ++ entry :: back → bind entry.2 = .nameless →
    exposesAny bind entry.2.children = true →
    ∀ name, lastDeclared bind last front = some name → nearest bind entry.1 = some name

theorem lastDeclared_append (last : Option β) (front back : List (List (Rose α) × Rose α)) :
    lastDeclared bind last (front ++ back) = lastDeclared bind (lastDeclared bind last front) back := by
  simp [lastDeclared, Option.or_assoc]

theorem lastDeclared_cons (last : Option β) (entry : List (Rose α) × Rose α)
    (entries : List (List (Rose α) × Rose α)) :
    lastDeclared bind last (entry :: entries) =
      lastDeclared bind ((bind entry.2).declared.or last) entries := by
  rw [← List.singleton_append, lastDeclared_append]
  congr 1
  cases declared : (bind entry.2).declared <;> simp [lastDeclared, declared]

theorem confined_nil (last : Option β) : Confined bind last [] := by
  intro front entry back split
  simp at split

theorem confined_cons (last : Option β) (entry : List (Rose α) × Rose α)
    (entries : List (List (Rose α) × Rose α)) :
    Confined bind last (entry :: entries) ↔
      (bind entry.2 = .nameless → exposesAny bind entry.2.children = true →
        ∀ name, last = some name → nearest bind entry.1 = some name) ∧
      Confined bind ((bind entry.2).declared.or last) entries := by
  constructor
  · intro confined
    refine ⟨fun here => confined [] entry entries rfl here, ?_⟩
    intro front other back split here exposed name found
    refine confined (entry :: front) other back (by rw [split, List.cons_append]) here exposed name ?_
    rwa [lastDeclared_cons]
  · rintro ⟨first, rest⟩ front other back split here exposed name found
    cases front with
    | nil =>
      obtain ⟨rfl, -⟩ := List.cons.inj split
      exact first here exposed name found
    | cons head front =>
      obtain ⟨rfl, behind⟩ := List.cons.inj split
      rw [lastDeclared_cons] at found
      exact rest front other back behind here exposed name found

theorem confined_append (last : Option β) (front back : List (List (Rose α) × Rose α)) :
    Confined bind last (front ++ back) ↔
      Confined bind last front ∧ Confined bind (lastDeclared bind last front) back := by
  induction front generalizing last with
  | nil => simp [confined_nil, lastDeclared]
  | cons entry front ih =>
    rw [List.cons_append, confined_cons, confined_cons, ih, lastDeclared_cons, and_assoc]

def Placed.spot (placed : Placed α β) : Rose α × β := (placed.node, placed.name)

/-- The nodes that declare a name among the occurrences, in order, each with its name. -/
def spots (entries : List (List (Rose α) × Rose α)) : List (Rose α × β) :=
  entries.filterMap fun entry => (bind entry.2).declared.map (entry.2, ·)

theorem spots_cons (entry : List (Rose α) × Rose α) (entries : List (List (Rose α) × Rose α)) :
    spots bind (entry :: entries) = ((bind entry.2).declared.map (entry.2, ·)).toList ++ spots bind entries := by
  rw [spots, List.filterMap_cons]
  cases (bind entry.2).declared <;> rfl

theorem map_snd_spots (entries : List (List (Rose α) × Rose α)) :
    (spots bind entries).map Prod.snd = entries.filterMap fun entry => (bind entry.2).declared := by
  rw [spots, List.map_filterMap]
  congr 1
  funext entry
  cases (bind entry.2).declared <;> rfl

theorem map_place (entries : List (List (Rose α) × Rose α)) :
    (entries.filterMap (place bind)).map Placed.spot = spots bind entries := by
  rw [List.map_filterMap, spots]
  congr 1
  funext entry
  rw [place]
  cases (bind entry.2).declared <;> rfl

theorem lastName_append {found new : List (Placed α β)} {entries : List (List (Rose α) × Rose α)}
    (same : new.map Placed.spot = spots bind entries) :
    lastName (found ++ new) = lastDeclared bind (lastName found) entries := by
  have declared : new.map Placed.name = entries.filterMap fun entry => (bind entry.2).declared := by
    rw [← map_snd_spots, ← same, List.map_map]
    rfl
  rw [lastName, lastName, lastDeclared, ← declared, List.getLast?_append, List.getLast?_map]
  cases new.getLast? <;> simp

mutual
/-- What a walk finds, whatever the scopes: the declared names with their nodes, in order. -/
theorem descend_spots (tree : Rose α) (found : List (Placed α β)) (scope : Option β)
    (ancestors : List (Rose α)) :
    ∃ new, descend (guess bind) found scope tree = found ++ new ∧
      new.map Placed.spot = spots bind (occurrences ancestors tree) := by
  match tree with
  | node label children =>
    rw [descend, occurrences, spots_cons]
    cases here : bind (node label children) with
    | scope name =>
      simp only [guess, here]
      exact descendAll_spots children found _ _
    | declare name =>
      simp only [guess, here]
      obtain ⟨new, eq, same⟩ := descendAll_spots children
        (found ++ [⟨node label children, name, scope⟩]) (some name) (node label children :: ancestors)
      refine ⟨⟨node label children, name, scope⟩ :: new, by rw [eq, List.append_assoc]; rfl, ?_⟩
      rw [List.map_cons, same]
      rfl
    | nameless =>
      simp only [guess, here]
      exact descendAll_spots children found _ _
    | plain =>
      simp only [guess, here]
      exact descendAll_spots children found _ _

theorem descendAll_spots (trees : List (Rose α)) (found : List (Placed α β)) (scope : Option β)
    (ancestors : List (Rose α)) :
    ∃ new, descendAll (guess bind) found scope trees = found ++ new ∧
      new.map Placed.spot = spots bind (occurrencesAll ancestors trees) := by
  match trees with
  | [] => exact ⟨[], by rw [descendAll, List.append_nil], rfl⟩
  | tree :: trees =>
    obtain ⟨first, eq, same⟩ := descend_spots tree found scope ancestors
    obtain ⟨rest, eq', same'⟩ := descendAll_spots trees (found ++ first) scope ancestors
    refine ⟨first ++ rest, by rw [descendAll, eq, eq', List.append_assoc], ?_⟩
    rw [List.map_append, same, same', occurrencesAll, spots, spots, spots, List.filterMap_append]
end

theorem nearest_cons (node : Rose α) (ancestors : List (Rose α)) :
    nearest bind (node :: ancestors) = (bind node).opened.or (nearest bind ancestors) := by
  rw [nearest, List.findSome?_cons]
  cases (bind node).opened <;> rfl

theorem filterMap_place_cons (entry : List (Rose α) × Rose α) (entries : List (List (Rose α) × Rose α)) :
    (entry :: entries).filterMap (place bind) = (place bind entry).toList ++ entries.filterMap (place bind) := by
  rw [List.filterMap_cons]
  cases place bind entry <;> rfl

mutual
/-- The walk puts every name of a tree in its nearest scope where it starts in the right one, if it
reaches a name at all, and no nameless declaration misleads it. -/
theorem descend_eq_iff (tree : Rose α) (found : List (Placed α β)) (scope : Option β)
    (ancestors : List (Rose α)) (start : found = [] → scope = nearest bind ancestors) :
    descend (guess bind) found scope tree =
        found ++ (occurrences ancestors tree).filterMap (place bind) ↔
      (exposes bind tree = true → scope = nearest bind ancestors) ∧
        Confined bind (lastName found) (occurrences ancestors tree) := by
  match tree with
  | node label children =>
    rw [descend, occurrences, filterMap_place_cons, confined_cons, exposes]
    have nearer := nearest_cons bind (node label children) ancestors
    cases here : bind (node label children) with
    | scope name =>
      rw [here] at nearer
      have below := descendAll_eq_iff children found (some name) (node label children :: ancestors)
        fun _ => nearer.symm
      simp only [guess, here, place, Binding.declared, Option.map_none, Option.toList_none, List.nil_append]
      rw [below, nearer]
      simp [Binding.opened]
    | declare name =>
      rw [here] at nearer
      have below := descendAll_eq_iff children (found ++ [⟨node label children, name, scope⟩]) (some name)
        (node label children :: ancestors) fun absurd_ => by simp at absurd_
      obtain ⟨new, eq, same⟩ := descendAll_spots bind children
        (found ++ [⟨node label children, name, scope⟩]) (some name) (node label children :: ancestors)
      have last : lastName (found ++ [⟨node label children, name, scope⟩]) = some name := by
        simp [lastName]
      rw [nearer, last, eq, List.append_cancel_left_eq] at below
      have behind := below.trans (and_iff_right fun _ => rfl)
      simp only [guess, here, place, Binding.declared, Option.map_some, Option.toList_some]
      rw [eq, List.append_assoc, List.append_cancel_left_eq, List.singleton_append, List.singleton_append,
        List.cons.injEq, behind]
      simp
    | nameless =>
      rw [here] at nearer
      have below := descendAll_eq_iff children found ((lastName found).or scope) (node label children :: ancestors)
        fun none => by
          rw [nearer, none]
          exact start none
      simp only [guess, here, place, Binding.declared, Option.map_none, Option.toList_none, List.nil_append]
      rw [below, nearer]
      cases last : lastName found with
      | none =>
        have empty := List.getLast?_eq_none_iff.1 (Option.map_eq_none_iff.1 last)
        have right := start empty
        simp [Binding.opened, right]
      | some name =>
        simp [Binding.opened, Rose.children, @eq_comm _ (some name)]
    | plain =>
      rw [here] at nearer
      have below := descendAll_eq_iff children found scope (node label children :: ancestors)
        fun none => by
          rw [nearer]
          exact start none
      simp only [guess, here, place, Binding.declared, Option.map_none, Option.toList_none, List.nil_append]
      rw [below, nearer]
      simp [Binding.opened]

theorem descendAll_eq_iff (trees : List (Rose α)) (found : List (Placed α β)) (scope : Option β)
    (ancestors : List (Rose α)) (start : found = [] → scope = nearest bind ancestors) :
    descendAll (guess bind) found scope trees =
        found ++ (occurrencesAll ancestors trees).filterMap (place bind) ↔
      (exposesAny bind trees = true → scope = nearest bind ancestors) ∧
        Confined bind (lastName found) (occurrencesAll ancestors trees) := by
  match trees with
  | [] => simp [descendAll, occurrencesAll, exposesAny, confined_nil]
  | tree :: trees =>
    obtain ⟨first, eq, same⟩ := descend_spots bind tree found scope ancestors
    obtain ⟨rest, eq', same'⟩ := descendAll_spots bind trees (found ++ first) scope ancestors
    have front := descend_eq_iff tree found scope ancestors start
    have back := descendAll_eq_iff trees (found ++ first) scope ancestors fun none =>
      start (List.append_eq_nil_iff.1 none).1
    rw [eq', lastName_append bind same] at back
    rw [eq] at front
    have length : first.length = ((occurrences ancestors tree).filterMap (place bind)).length := by
      rw [← List.length_map (f := Placed.spot), same, ← map_place, List.length_map]
    have parts : ∀ front' back' : List (Placed α β), first.length = front'.length →
        (first ++ rest = front' ++ back' ↔ first = front' ∧ rest = back') := by
      intro front' back' length
      constructor
      · exact fun whole => List.append_inj whole length
      · rintro ⟨rfl, rfl⟩
        rfl
    rw [List.append_cancel_left_eq] at front back
    rw [descendAll, eq, eq', occurrencesAll, List.filterMap_append, confined_append, exposesAny,
      List.append_assoc, List.append_cancel_left_eq, parts _ _ length, front, back, Bool.or_eq_true]
    constructor
    · rintro ⟨⟨reach, here⟩, reach', behind⟩
      exact ⟨fun either => either.elim reach reach', here, behind⟩
    · rintro ⟨reach, here, behind⟩
      exact ⟨⟨fun in_ => reach (.inl in_), here⟩, fun in_ => reach (.inr in_), behind⟩
end

theorem walk_spots (root : Rose α) :
    (walk (guess bind) [] [(root, none)]).map Placed.spot =
      ((occurrences [] root).filterMap (place bind)).map Placed.spot := by
  obtain ⟨new, eq, same⟩ := descend_spots bind root [] none []
  rw [walk_eq, List.foldl_cons, List.foldl_nil, eq, List.nil_append, same, map_place]

/-- The walk of a whole tree is right exactly where no nameless declaration misleads it. -/
theorem walk_eq_iff (root : Rose α) :
    walk (guess bind) [] [(root, none)] = (occurrences [] root).filterMap (place bind) ↔
      Confined bind none (occurrences [] root) := by
  rw [walk_eq, List.foldl_cons, List.foldl_nil]
  have whole := descend_eq_iff bind root [] none [] fun _ => rfl
  rw [List.nil_append] at whole
  exact whole.trans (and_iff_right fun _ => rfl)

end Scopes
end SupraHarness
