import SupraHarness.Lib.Topological
import SupraHarness.Loader.Held

/-!
# The requirements of a set

A set that a load or an event leaves standing is coherent, has every skill that one of its skills requires, and
has no cycle of requirements; an event keeps that, since it is refused with the set as it was where it would not
be so. The walk that looks for a cycle is done with the skills in the order that the listing of dependencies
takes them in, with every skill behind those it requires.
-/
namespace SupraHarness.Loader

open Digest (Path Text Event EventKind)
open Relation Topological

namespace Skills

/-- One skill requires another by its name. -/
def Requires (skills : Skills) (name required : Text) : Prop :=
  ∃ skill, skills.byName.get name = some skill ∧ required ∈ skill.requires

/-- Every requirement names a skill of the set. -/
def Resolved (skills : Skills) : Prop :=
  ∀ name required, skills.Requires name required → (skills.byName.get required).isSome

/-- Push a skill behind those it requires; there is no result where the walk is deeper than the fuel. -/
def pushOrder (skills : Skills) : Nat → Text → List Skill × List Text → Option (List Skill × List Text)
  | 0, _, _ => none
  | fuel + 1, name, (order, done) =>
    if name ∈ done then some (order, done)
    else
      match skills.byName.get name with
      | none => some (order, done)
      | some skill =>
        (skill.requires.foldlM (fun walk required => skills.pushOrder fuel required walk) (order, done)).map
          fun walk => (walk.1 ++ [skill], name :: walk.2)

/-- The skills in topological order: dependencies first, then the dependent. -/
def topological (skills : Skills) (fuel : Nat) : Option (List Skill) :=
  (skills.byName.keys.foldlM (fun walk name => skills.pushOrder fuel name walk) ([], [])).map Prod.fst

/-- Every skill, in name order. -/
def all (skills : Skills) : List Skill := skills.byName.entries.map Prod.snd

variable {skills : Skills} {visiting done done' : List Text} {name : Text} {error : SkillError}

theorem firstUnknown_eq_none : skills.firstUnknown = none ↔ skills.Resolved := by
  rw [firstUnknown, List.findSome?_eq_none_iff]
  simp only [Option.map_eq_none_iff, List.find?_eq_none, Option.isNone_iff_eq_none, ← Option.isSome_iff_ne_none,
    ← ne_eq]
  constructor
  · rintro all name required ⟨skill, row, mem⟩
    exact all (name, skill) (OrdMap.get_eq_some.1 row) required mem
  · intro resolved entry mem required required_mem
    exact resolved entry.1 required ⟨entry.2, OrdMap.get_eq_some.2 mem, required_mem⟩

theorem firstUnknown_eq_some (h : skills.firstUnknown = some error) :
    ∃ skill missing, error = .unknownDependency skill missing := by
  obtain ⟨entry, -, found⟩ := List.exists_of_findSome?_eq_some h
  obtain ⟨missing, -, rfl⟩ := Option.map_eq_some_iff.1 found
  exact ⟨_, _, rfl⟩

/-! ## The walk that looks for a cycle -/

/-- A walk that comes to its end is done with a name behind all that it requires. -/
theorem visit_ok (walked : Walked skills.Requires visiting done) (h : skills.visit visiting name done = .ok done') :
    Walked skills.Requires visiting done' ∧ done ⊆ done' ∧ name ∈ done' := by
  induction visiting, name, done using Skills.visit.induct skills generalizing done' with
  | case1 visiting name done mem =>
    rw [visit_done mem] at h
    cases h
    exact ⟨walked, fun _ mem => mem, mem⟩
  | case2 visiting name done fresh mem =>
    rw [visit_stacked fresh mem] at h
    cases h
  | case3 visiting name done fresh free absent =>
    rw [visit_absent fresh free absent] at h
    cases h
    refine ⟨(walked.push fresh).pop free ?_, List.subset_cons_self _ _, List.mem_cons_self⟩
    rintro required ⟨skill, row, -⟩
    rw [absent] at row
    cases row
  | case4 visiting name done fresh free skill row ih =>
    rw [visit_held fresh free row] at h
    obtain ⟨below, all, rfl⟩ := Results.map_eq_ok.1 h
    obtain ⟨walked', more, mem⟩ :=
      Walked.foldlM (fun required _ done done' walked step => ih done required walked step) (walked.push fresh) all
    refine ⟨walked'.pop free ?_, fun _ old => List.mem_cons_of_mem _ (more old), List.mem_cons_self⟩
    rintro required ⟨skill', row', required_mem⟩
    rw [row] at row'
    cases row'
    exact mem required required_mem

/-- A walk that is refused has come back to a name on its stack. -/
theorem visit_error (chain : (visiting ++ [name]).IsChain skills.Requires)
    (h : skills.visit visiting name done = .error error) : (∃ cycle, error = .cycle cycle) ∧ Cyclic skills.Requires := by
  induction visiting, name, done using Skills.visit.induct skills with
  | case1 visiting name done mem =>
    rw [visit_done mem] at h
    cases h
  | case2 visiting name done fresh mem =>
    rw [visit_stacked fresh mem] at h
    cases h
    exact ⟨⟨_, rfl⟩, cyclic_of_path mem chain⟩
  | case3 visiting name done fresh free absent =>
    rw [visit_absent fresh free absent] at h
    cases h
  | case4 visiting name done fresh free skill row ih =>
    rw [visit_held fresh free row] at h
    obtain ⟨required, mem, done', refused⟩ := Results.foldlM_eq_error (Results.map_eq_error.1 h)
    have edge : skills.Requires name required := ⟨skill, row, mem⟩
    refine ih done' required (chain.append (List.isChain_singleton required) ?_) refused
    intro last last_mem next next_mem
    rw [List.getLast?_concat] at last_mem
    cases last_mem
    cases next_mem
    exact edge

/-- What resolving a set comes to. -/
theorem resolveDependencies_cases (skills : Skills) :
    (¬ skills.Resolved ∧ ∃ skill missing, skills.resolveDependencies = .error (.unknownDependency skill missing)) ∨
      skills.Resolved ∧ Cyclic skills.Requires ∧ (∃ cycle, skills.resolveDependencies = .error (.cycle cycle)) ∨
        skills.Resolved ∧ skills.resolveDependencies = .ok () ∧
          ∃ done, skills.byName.keys.foldlM (fun done name => skills.visit [] name done) [] = .ok done ∧
            Walked skills.Requires [] done ∧ ∀ name ∈ skills.byName.keys, name ∈ done := by
  rw [resolveDependencies]
  cases unknown : skills.firstUnknown with
  | some error =>
    obtain ⟨skill, missing, rfl⟩ := firstUnknown_eq_some unknown
    refine .inl ⟨fun resolved => ?_, skill, missing, rfl⟩
    rw [firstUnknown_eq_none.2 resolved] at unknown
    cases unknown
  | none =>
    have resolved := firstUnknown_eq_none.1 unknown
    cases walk : skills.byName.keys.foldlM (fun done name => skills.visit [] name done) [] with
    | error error =>
      obtain ⟨name, -, done, refused⟩ := Results.foldlM_eq_error walk
      obtain ⟨⟨cycle, rfl⟩, cyclic⟩ := visit_error (List.isChain_singleton name) refused
      exact .inr (.inl ⟨resolved, cyclic, cycle, rfl⟩)
    | ok done =>
      obtain ⟨walked, -, all⟩ := Walked.foldlM (fun name _ done done' => visit_ok) (walked_nil []) walk
      exact .inr (.inr ⟨resolved, rfl, done, rfl, walked, all⟩)

/-! ## The order of the dependencies -/

/-- The skills that a walk is done with, oldest first. -/
def rows (skills : Skills) (done : List Text) : List Skill := done.reverse.filterMap skills.byName.get

theorem rows_cons {skill : Skill} (row : skills.byName.get name = some skill) (done : List Text) :
    skills.rows (name :: done) = skills.rows done ++ [skill] := by
  rw [rows, rows, List.reverse_cons, List.filterMap_append, List.filterMap_cons_some row, List.filterMap_nil]

/-- Where the walk that looks for a cycle comes to its end, the skills are pushed in the order it is done with them. -/
theorem pushOrder_of_visit (resolved : skills.Resolved) (row : (skills.byName.get name).isSome)
    (known : ∀ other ∈ done, (skills.byName.get other).isSome) (h : skills.visit visiting name done = .ok done')
    {fuel : Nat} (deep : skills.unvisited visiting < fuel) :
    skills.pushOrder fuel name (skills.rows done, done) = some (skills.rows done', done') ∧
      ∀ other ∈ done', (skills.byName.get other).isSome := by
  induction visiting, name, done using Skills.visit.induct skills generalizing done' fuel with
  | case1 visiting name done mem =>
    obtain ⟨fuel, rfl⟩ := Nat.exists_eq_add_of_lt deep
    rw [visit_done mem] at h
    cases h
    rw [pushOrder, if_pos mem]
    exact ⟨rfl, known⟩
  | case2 visiting name done fresh mem =>
    rw [visit_stacked fresh mem] at h
    cases h
  | case3 visiting name done fresh free absent =>
    rw [absent] at row
    cases row
  | case4 visiting name done fresh free skill held ih =>
    obtain ⟨fuel, rfl⟩ : ∃ below, fuel = below + 1 := ⟨fuel - 1, by omega⟩
    rw [visit_held fresh free held] at h
    obtain ⟨below, all, rfl⟩ := Results.map_eq_ok.1 h
    have nearer : skills.unvisited (visiting ++ [name]) < fuel := by
      have less := unvisited_push held free
      omega
    have step (required : Text) (mem : required ∈ skill.requires) (done done' : List Text)
        (known : ∀ other ∈ done, (skills.byName.get other).isSome)
        (visited : skills.visit (visiting ++ [name]) required done = .ok done') :
        skills.pushOrder fuel required (skills.rows done, done) = some (skills.rows done', done') ∧
          ∀ other ∈ done', (skills.byName.get other).isSome :=
      ih done required (resolved name required ⟨skill, held, mem⟩) known visited nearer
    obtain ⟨pushed, known'⟩ :
        skill.requires.foldlM (fun walk required => skills.pushOrder fuel required walk) (skills.rows done, done) =
            some (skills.rows below, below) ∧ ∀ other ∈ below, (skills.byName.get other).isSome :=
      Results.foldlM_follow (fun done => (skills.rows done, done))
        (fun done => ∀ other ∈ done, (skills.byName.get other).isSome) step known all
    rw [pushOrder, if_neg fresh, held]
    dsimp only
    rw [pushed, rows_cons held]
    exact ⟨rfl, List.forall_mem_cons.2 ⟨row, known'⟩⟩

theorem all_eq (skills : Skills) : skills.all = skills.byName.keys.filterMap skills.byName.get := by
  rw [all, OrdMap.keys, List.filterMap_map, ← List.filterMap_eq_map]
  refine List.filterMap_congr fun entry mem => ?_
  exact (OrdMap.get_eq_some.2 mem).symm

theorem names_of_rows (hc : skills.Coherent) (known : ∀ other ∈ done, (skills.byName.get other).isSome) :
    (skills.rows done).map Skill.name = done.reverse := by
  induction done with
  | nil => rfl
  | cons name done ih =>
    obtain ⟨here, others⟩ := List.forall_mem_cons.1 known
    obtain ⟨skill, row⟩ := Option.isSome_iff_exists.1 here
    rw [rows_cons row, List.map_append, ih others, List.reverse_cons, List.map_singleton, hc.named name skill row]

/-- Every skill once, and before it all that it requires by any number of steps. -/
def Listed (skills : Skills) (order : List Skill) : Prop :=
  order.Perm skills.all ∧ ∀ front skill back, order = front ++ skill :: back →
    ∀ required, TransGen skills.Requires skill.name required → ∃ other ∈ front, other.name = required

/-- A set that resolves is listed in topological order, however much fuel there is beyond one round a skill. -/
theorem topological_of_resolves (hc : skills.Coherent) (h : skills.resolveDependencies = .ok ()) :
    ∃ order, skills.Listed order ∧ ∀ fuel, skills.byName.keys.length < fuel → skills.topological fuel = some order := by
  rcases resolveDependencies_cases skills with ⟨-, _, _, refused⟩ | ⟨-, -, _, refused⟩ | ⟨resolved, -, done, walk, walked, full⟩
  · rw [refused] at h
    cases h
  · rw [refused] at h
    cases h
  · have push (fuel : Nat) (enough : skills.byName.keys.length < fuel) :
        skills.byName.keys.foldlM (fun walk name => skills.pushOrder fuel name walk) ([], []) =
            some (skills.rows done, done) ∧ ∀ other ∈ done, (skills.byName.get other).isSome :=
      Results.foldlM_follow (fun done => (skills.rows done, done))
        (fun done => ∀ other ∈ done, (skills.byName.get other).isSome)
        (fun name mem done done' known visited =>
          pushOrder_of_visit resolved (OrdMap.mem_keys.1 mem) known visited (by simpa [unvisited] using enough))
        (List.forall_mem_nil _) walk
    have known := (push _ (Nat.lt_succ_self _)).2
    refine ⟨skills.rows done, ⟨?_, ?_⟩, fun fuel enough => ?_⟩
    · rw [all_eq]
      refine List.Perm.filterMap _ ((List.perm_ext_iff_of_nodup (List.nodup_reverse.2 walked.nodup) ?_).2 fun name => ?_)
      · exact skills.byName.sorted_keys.imp fun h => ne_of_lt h
      · rw [List.mem_reverse]
        exact ⟨fun mem => OrdMap.mem_keys.2 (known name mem), full name⟩
    · intro front skill back equal required path
      have names := names_of_rows hc known
      rw [equal, List.map_append, List.map_cons] at names
      have newest : done = (back.map Skill.name).reverse ++ skill.name :: (front.map Skill.name).reverse := by
        rw [← List.reverse_reverse done, ← names]
        simp
      have behind := (newest ▸ walked.grounded).behind path
      rw [List.mem_reverse, List.mem_map] at behind
      exact behind
    · rw [topological, (push fuel enough).1]
      rfl

end Skills

end SupraHarness.Loader
