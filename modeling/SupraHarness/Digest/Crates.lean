import Mathlib.Data.List.Induction
import SupraHarness.Digest.Graph

/-!
# Rust sources in the dependency graph

What a Rust import denotes by the usual module rules, and where the graph looks for it: below the
directory of the importing file for `crate::` and `self::`, and nowhere for `super::`.
-/
namespace SupraHarness.Digest

open Relation Str Scan

/-- The module that a file is, by the usual rules for the files under a source root. -/
def moduleOf (root path : Path) : Option (List Name) :=
  if root <+: path then
    let rest := path.drop root.length
    let dirs := rest.dropLast
    rest.getLast?.bind fun file =>
      let (stem, ext) := splitDot file
      if ext ≠ some "rs".toList then none
      else if stem = "mod".toList then (if dirs = [] then none else some dirs)
      else if dirs = [] ∧ (stem = "lib".toList ∨ stem = "main".toList) then some []
      else some (dirs ++ [stem])
  else none

/-- Source files under a root: each is a module, no two the same one, and no colon in a name. -/
structure Layout (root : Path) (files : List Path) : Prop where
  isModule : ∀ file ∈ files, (moduleOf root file).isSome
  distinct : ∀ file ∈ files, ∀ other ∈ files, moduleOf root file = moduleOf root other → file = other
  plain : ∀ file ∈ files, ∀ name ∈ file, ':' ∉ name

/-- The part of an import after its rooted or relative front. -/
structure Tail where
  parts : List Name
  nonempty : parts ≠ []
  named : ∀ name ∈ parts, name ≠ []
  plain : ∀ name ∈ parts, ':' ∉ name
  free : ∀ name ∈ parts, name ∉ ["crate".toList, "self".toList, "super".toList]

/-- The rooted and relative imports: `super n` has `n + 1` segments `super`. -/
inductive Written where
  | crate (tail : Tail)
  | self (tail : Tail)
  | super (n : Nat) (tail : Tail)

namespace Written

/-- All segments as they are written. -/
def segments : Written → List Name
  | crate tail => "crate".toList :: tail.parts
  | self tail => "self".toList :: tail.parts
  | super n tail => List.replicate (n + 1) "super".toList ++ tail.parts

def text (w : Written) : Text := join w.segments

/-- The path below the crate that the import means in this module. -/
def means (module : List Name) : Written → Option (List Name)
  | crate tail => some tail.parts
  | self tail => some (module ++ tail.parts)
  | super n tail =>
    if n < module.length then some (module.take (module.length - (n + 1)) ++ tail.parts) else none

end Written

/-- The import of a file means a module that is this file, or an item in it: no other file's module is
a longer prefix of the path. -/
def Denotes (root : Path) (files : List Path) (importer : Path) (w : Written) (file : Path) : Prop :=
  importer ∈ files ∧ ∃ module path own, moduleOf root importer = some module ∧
    w.means module = some path ∧ file ∈ files ∧ moduleOf root file = some own ∧ own <+: path ∧
    ∀ other ∈ files, ∀ longer, moduleOf root other = some longer → longer <+: path →
      longer.length ≤ own.length

/-- The graph after the files have been registered and the imports recorded. -/
def graphOf (files : List Path) (imports : List (Path × Text)) : DependencyGraph :=
  imports.foldl (fun graph entry => graph.recordImports entry.1 [entry.2])
    (files.foldl DependencyGraph.registerModule .new)

/-- One of the imports denotes the file. -/
def DependsOn (root : Path) (files : List Path) (imports : List (Path × Text)) (importer file : Path) : Prop :=
  ∃ w : Written, (importer, w.text) ∈ imports ∧ Denotes root files importer w file

/-- Everything that transitively imports a file is in its blast radius. -/
def Covers (root : Path) (files : List Path) (imports : List (Path × Text)) : Prop :=
  ∀ importer file, TransGen (DependsOn root files imports) importer file →
    importer ∈ (graphOf files imports).dependents file

/-- The file that the graph knows under a module path: the last one registered. -/
def holder (files : List Path) (parts : List Name) : Option Path :=
  files.reverse.find? fun file => moduleParts file = some parts

/-- Where the graph looks for the import. -/
def looksFor (importer : Path) : Written → List Name
  | .crate tail => importer.dropLast ++ tail.parts
  | .self tail => importer.dropLast ++ tail.parts
  | .super n tail => List.replicate (n + 1) "super".toList ++ tail.parts

/-- The longest registered prefix of what the graph looks for is the file's module path. -/
def Leads (files : List Path) (importer : Path) (w : Written) (file : Path) : Prop :=
  ∃ parts, parts <+: looksFor importer w ∧ holder files parts = some file ∧
    ∀ longer, longer <+: looksFor importer w → (holder files longer).isSome →
      longer.length ≤ parts.length

/-- The file is known under its own module path. -/
def Registered (files : List Path) (file : Path) : Prop :=
  ∃ parts, moduleParts file = some parts ∧ holder files parts = some file

theorem join_cons (name : Name) {parts : List Name} (nonempty : parts ≠ []) :
    join (name :: parts) = name ++ colons ++ join parts := by
  cases parts with
  | nil => exact absurd rfl nonempty
  | cons next parts => simp [join, List.intercalate, List.intersperse]

@[simp] theorem join_singleton (name : Name) : join [name] = name := by simp [join]

theorem join_append {front back : List Name} (hfront : front ≠ []) (hback : back ≠ []) :
    join (front ++ back) = join front ++ colons ++ join back := by
  induction front with
  | nil => exact absurd rfl hfront
  | cons name front ih =>
    cases front with
    | nil => rw [List.singleton_append, join_cons name hback, join_singleton]
    | cons next front =>
      rw [List.cons_append, join_cons name (by simp), ih (by simp), join_cons name (by simp)]
      simp

/-- Names without colons are read back from a module path. -/
theorem join_inj {parts other : List Name} (hp : parts ≠ []) (ho : other ≠ [])
    (plain : ∀ name ∈ parts, ':' ∉ name) (plain' : ∀ name ∈ other, ':' ∉ name)
    (h : join parts = join other) : parts = other := by
  induction parts generalizing other with
  | nil => exact absurd rfl hp
  | cons name parts ih =>
    obtain ⟨first, other, rfl⟩ := List.exists_cons_of_ne_nil ho
    have colon := plain name List.mem_cons_self
    have colon' := plain' first List.mem_cons_self
    by_cases last : parts = []
    · subst last
      by_cases last' : other = []
      · subst last'
        simpa using h
      · rw [join_singleton, join_cons first last'] at h
        exact absurd (by rw [h]; simp [colons]) colon
    · by_cases last' : other = []
      · subst last'
        rw [join_singleton, join_cons name last] at h
        exact absurd (by rw [← h]; simp [colons]) colon'
      · rw [join_cons name last, join_cons first last'] at h
        simp only [colons, List.append_assoc] at h
        obtain ⟨rfl, rest⟩ := before_unique colon colon' h
        have rest : join parts = join other := (List.cons.inj rest).2
        rw [ih last last' (fun n mem => plain n (List.mem_cons_of_mem _ mem))
          (fun n mem => plain' n (List.mem_cons_of_mem _ mem)) rest]

theorem rsplitOnce_plain {text : Text} (plain : ':' ∉ text) : rsplitOnce text = none := by
  induction text with
  | nil => rfl
  | cons c text ih =>
    simp only [List.mem_cons, not_or] at plain
    rw [rsplitOnce, ih plain.2]
    cases found : stripPrefix colons (c :: text) with
    | none => rfl
    | some after =>
      rw [stripPrefix_eq_some] at found
      exact absurd (List.cons.inj found).1.symm plain.1

theorem rsplitOnce_colons {after : Text} (plain : ':' ∉ after) (before : Text) :
    rsplitOnce (before ++ colons ++ after) = some (before, after) := by
  induction before with
  | nil =>
    have single : rsplitOnce (':' :: after) = none := by
      rw [rsplitOnce, rsplitOnce_plain plain]
      cases found : stripPrefix colons (':' :: after) with
      | none => rfl
      | some rest =>
        rw [stripPrefix_eq_some] at found
        have tail : after = ':' :: rest := (List.cons.inj found).2
        exact absurd (by rw [tail]; exact List.mem_cons_self) plain
    have double : stripPrefix colons (':' :: ':' :: after) = some after := stripPrefix_eq_some.2 rfl
    have step := rsplitOnce.eq_def (':' :: ':' :: after)
    dsimp only at step
    rw [single, double] at step
    exact step
  | cons c before ih =>
    rw [List.cons_append, List.cons_append, rsplitOnce, ih]

/-- Taking one segment off a module path. -/
theorem rsplitOnce_join {parts : List Name} {name : Name} (nonempty : parts ≠ []) (plain : ':' ∉ name) :
    rsplitOnce (join (parts ++ [name])) = some (join parts, name) := by
  rw [join_append nonempty (by simp), join_singleton, rsplitOnce_colons plain]

theorem length_le_join (parts : List Name) : parts.length ≤ (join parts).length + 1 := by
  induction parts with
  | nil => simp
  | cons name parts ih =>
    by_cases last : parts = []
    · subst last
      simp
    · rw [join_cons name last]
      have two : colons.length = 2 := rfl
      simp only [List.length_cons, List.length_append, two]
      omega

/-- What is registered under the longest prefix. -/
def Longest (lookup : List Name → Option Path) (parts : List Name) (file : Path) : Prop :=
  ∃ front, front ≠ [] ∧ front <+: parts ∧ lookup front = some file ∧
    ∀ longer, longer ≠ [] → longer <+: parts → (lookup longer).isSome → longer.length ≤ front.length

theorem longest_concat {lookup : List Name → Option Path} {parts : List Name} {name : Name} {file : Path} :
    Longest lookup (parts ++ [name]) file ↔
      lookup (parts ++ [name]) = some file ∨
        lookup (parts ++ [name]) = none ∧ Longest lookup parts file := by
  have prefixes (front : List Name) : front <+: parts ++ [name] ↔ front = parts ++ [name] ∨ front <+: parts :=
    List.prefix_concat_iff
  constructor
  · rintro ⟨front, nonempty, pre, found, longest⟩
    cases whole : lookup (parts ++ [name]) with
    | some other =>
      have length := longest _ (by simp) (List.prefix_rfl) (by rw [whole]; rfl)
      rw [pre.eq_of_length_le length, whole] at found
      exact Or.inl found
    | none =>
      refine Or.inr ⟨rfl, front, nonempty, ((prefixes front).1 pre).resolve_left ?_, found, ?_⟩
      · rintro rfl
        rw [whole] at found
        cases found
      · exact fun longer nonempty pre => longest longer nonempty ((prefixes longer).2 (Or.inr pre))
  · rintro (whole | ⟨none, front, nonempty, pre, found, longest⟩)
    · exact ⟨_, by simp, List.prefix_rfl, whole, fun longer _ pre _ => pre.length_le⟩
    · refine ⟨front, nonempty, (prefixes front).2 (Or.inr pre), found, fun longer nonempty pre some => ?_⟩
      rcases (prefixes longer).1 pre with rfl | pre
      · rw [none] at some
        cases some
      · exact longest longer nonempty pre some

/-- Resolution finds the file of the longest registered prefix. -/
theorem resolveFrom_join {modules : OrdMap Text Path} {file : Path} (parts : List Name) {fuel : Nat}
    (nonempty : parts ≠ []) (plain : ∀ name ∈ parts, ':' ∉ name) (enough : parts.length ≤ fuel) :
    DependencyGraph.resolveFrom modules fuel (join parts) = some file ↔
      Longest (fun front => modules.get (join front)) parts file := by
  induction parts using List.reverseRecOn generalizing fuel with
  | nil => exact absurd rfl nonempty
  | append_singleton parts name ih =>
    cases fuel with
    | zero => simp at enough
    | succ fuel =>
      rw [longest_concat, DependencyGraph.resolveFrom, Option.or_eq_some_iff]
      refine or_congr_right (and_congr_right fun _ => ?_)
      have colon := plain name (by simp)
      by_cases first : parts = []
      · subst first
        rw [List.nil_append, join_singleton, rsplitOnce_plain colon]
        refine iff_of_false (by rintro ⟨⟩) ?_
        rintro ⟨front, nonempty, pre, -⟩
        exact nonempty (List.prefix_nil.1 pre)
      · rw [rsplitOnce_join first colon, Option.bind_some]
        refine ih first (fun n mem => plain n (List.mem_append_left _ mem)) ?_
        simp only [List.length_append, List.length_singleton] at enough
        omega

theorem splitDot_plain {name : Name} (plain : ':' ∉ name) : ':' ∉ (splitDot name).1 := by
  unfold splitDot
  dsimp only
  split
  · exact plain
  · exact fun mem => plain (List.mem_of_mem_take mem)

theorem moduleParts_plain {file : Path} {parts : List Name} (plain : ∀ name ∈ file, ':' ∉ name)
    (h : moduleParts file = some parts) : parts ≠ [] ∧ ∀ name ∈ parts, ':' ∉ name := by
  obtain ⟨stem, found, h⟩ := Option.bind_eq_some_iff.1 h
  obtain ⟨name, last, rfl⟩ := Option.map_eq_some_iff.1 found
  have inside := fun n mem => plain n (List.dropLast_subset _ mem)
  split at h
  · split at h
    · cases h
    · rename_i nonempty
      cases h
      exact ⟨nonempty, inside⟩
  · cases h
    refine ⟨by simp, fun n mem => ?_⟩
    rcases List.mem_append.1 mem with mem | mem
    · exact inside n mem
    · rw [List.mem_singleton] at mem
      exact mem ▸ splitDot_plain (plain name (List.mem_of_getLast? last))

theorem registerModule_modules (graph : DependencyGraph) (path : Path) (text : Text) :
    (graph.registerModule path).modules.get text =
      if modulePath path = some text then some path else graph.modules.get text := by
  unfold DependencyGraph.registerModule
  cases found : modulePath path with
  | none => rw [if_neg nofun]
  | some module =>
    rw [OrdMap.get_insert]
    by_cases same : text = module
    · rw [if_pos same, if_pos (by rw [same])]
    · rw [if_neg same, if_neg fun eq => same (Option.some.inj eq).symm]

theorem holder_concat (files : List Path) (file : Path) (parts : List Name) :
    holder (files ++ [file]) parts = if moduleParts file = some parts then some file else holder files parts := by
  unfold holder
  rw [List.reverse_append, List.reverse_singleton, List.singleton_append, List.find?_cons]
  split <;> simp_all

theorem holder_some {files : List Path} {parts : List Name} {file : Path} (h : holder files parts = some file) :
    file ∈ files ∧ moduleParts file = some parts :=
  ⟨List.mem_reverse.1 (List.mem_of_find?_eq_some h), by simpa using List.find?_some h⟩

/-- The modules of the graph are those the files hold. -/
theorem registered_get {files : List Path} (plain : ∀ file ∈ files, ∀ name ∈ file, ':' ∉ name)
    {parts : List Name} (nonempty : parts ≠ []) (colon : ∀ name ∈ parts, ':' ∉ name) :
    (files.foldl DependencyGraph.registerModule .new).modules.get (join parts) = holder files parts := by
  induction files using List.reverseRecOn with
  | nil => rfl
  | append_singleton files file ih =>
    rw [List.foldl_append, List.foldl_cons, List.foldl_nil, registerModule_modules, holder_concat,
      ih fun file mem => plain file (List.mem_append_left _ mem)]
    have same : modulePath file = some (join parts) ↔ moduleParts file = some parts := by
      rw [modulePath, Option.map_eq_some_iff]
      constructor
      · rintro ⟨own, found, eq⟩
        obtain ⟨ownNonempty, ownPlain⟩ := moduleParts_plain (plain file (by simp)) found
        rw [found, join_inj ownNonempty nonempty ownPlain colon eq]
      · exact fun found => ⟨parts, found, rfl⟩
    simp only [same]

theorem registered_text (files : List Path) {text : Text} {file : Path}
    (h : (files.foldl DependencyGraph.registerModule .new).modules.get text = some file) :
    file ∈ files ∧ modulePath file = some text := by
  induction files using List.reverseRecOn with
  | nil => cases h
  | append_singleton files last ih =>
    rw [List.foldl_append, List.foldl_cons, List.foldl_nil, registerModule_modules] at h
    split at h
    · rename_i own
      cases h
      exact ⟨by simp, own⟩
    · exact ⟨List.mem_append_left _ (ih h).1, (ih h).2⟩

@[simp] theorem recordImports_modules (graph : DependencyGraph) (importer : Path) (imports : List Text) :
    (graph.recordImports importer imports).modules = graph.modules := by
  unfold DependencyGraph.recordImports
  induction imports generalizing graph with
  | nil => rfl
  | cons target imports ih => exact ih _

@[simp] theorem graphOf_modules (files : List Path) (imports : List (Path × Text)) :
    (graphOf files imports).modules = (files.foldl DependencyGraph.registerModule .new).modules := by
  unfold graphOf
  generalize files.foldl DependencyGraph.registerModule .new = graph
  induction imports generalizing graph with
  | nil => rfl
  | cons entry imports ih => rw [List.foldl_cons, ih, recordImports_modules]

theorem resolve_congr {graph other : DependencyGraph} (h : graph.modules = other.modules) (module : Text) :
    graph.resolve module = other.resolve module := by
  rw [DependencyGraph.resolve, DependencyGraph.resolve, h]

theorem mem_edgeList {graph : DependencyGraph} {edge : Edge} :
    edge ∈ graph.edgeList ↔ graph.edges.get edge = some () := by
  rw [OrdMap.get_eq_some]
  constructor
  · intro mem
    obtain ⟨entry, inside, rfl⟩ := List.mem_map.1 mem
    exact inside
  · exact fun mem => List.mem_map.2 ⟨_, mem, rfl⟩

theorem mem_recordImport {graph : DependencyGraph} {importer : Path} {target : Text} {edge : Edge} :
    edge ∈ (DependencyGraph.recordImport importer graph target).edgeList ↔
      edge = ⟨importer, normaliseImport importer target,
        (graph.resolve (normaliseImport importer target)).isSome⟩ ∨ edge ∈ graph.edgeList := by
  rw [mem_edgeList, mem_edgeList, DependencyGraph.recordImport, OrdMap.get_insert]
  split
  · rename_i eq
    exact ⟨fun _ => Or.inl eq, fun _ => rfl⟩
  · rename_i ne
    exact ⟨Or.inr, fun h => h.resolve_left ne⟩

theorem edgeList_registered (files : List Path) :
    (files.foldl DependencyGraph.registerModule .new).edgeList = [] := by
  induction files using List.reverseRecOn with
  | nil => rfl
  | append_singleton files file ih =>
    rw [List.foldl_append, List.foldl_cons, List.foldl_nil, DependencyGraph.registerModule]
    split <;> exact ih

/-- The edges are those of the recorded imports. -/
theorem mem_graphOf {files : List Path} {imports : List (Path × Text)} {edge : Edge} :
    edge ∈ (graphOf files imports).edgeList ↔
      ∃ entry ∈ imports, edge = ⟨entry.1, normaliseImport entry.1 entry.2,
        ((graphOf files imports).resolve (normaliseImport entry.1 entry.2)).isSome⟩ := by
  simp only [resolve_congr (graphOf_modules files imports)]
  induction imports using List.reverseRecOn with
  | nil => simp [graphOf, edgeList_registered]
  | append_singleton imports entry ih =>
    have last : graphOf files (imports ++ [entry]) =
        DependencyGraph.recordImport entry.1 (graphOf files imports) entry.2 := by
      simp only [graphOf, List.foldl_append, List.foldl_cons, List.foldl_nil, DependencyGraph.recordImports]
    rw [last, mem_recordImport, ih, resolve_congr (graphOf_modules files imports)]
    constructor
    · rintro (rfl | ⟨old, mem, rfl⟩)
      · exact ⟨entry, by simp, rfl⟩
      · exact ⟨old, by simp [mem], rfl⟩
    · rintro ⟨old, mem, rfl⟩
      rcases List.mem_append.1 mem with mem | mem
      · exact Or.inr ⟨old, mem, rfl⟩
      · rw [List.mem_singleton] at mem
        exact Or.inl (by rw [mem])

theorem follows_graphOf {files : List Path} {imports : List (Path × Text)} {file importer : Path} :
    (graphOf files imports).Follows file importer ↔
      ∃ text, (importer, text) ∈ imports ∧
        (graphOf files imports).resolve (normaliseImport importer text) = some file := by
  constructor
  · rintro ⟨edge, mem, -, found, rfl⟩
    obtain ⟨entry, inside, rfl⟩ := mem_graphOf.1 mem
    exact ⟨entry.2, inside, found⟩
  · rintro ⟨text, mem, found⟩
    refine ⟨_, mem_graphOf.2 ⟨_, mem, rfl⟩, ?_, found, rfl⟩
    dsimp only
    rw [found]
    rfl

theorem filesContain_graphOf {files : List Path} (plain : ∀ file ∈ files, ∀ name ∈ file, ':' ∉ name)
    (imports : List (Path × Text)) (file : Path) :
    (graphOf files imports).filesContain file = true ↔ Registered files file := by
  unfold DependencyGraph.filesContain
  rw [graphOf_modules, List.any_eq_true]
  constructor
  · rintro ⟨⟨text, held⟩, mem, same⟩
    rw [decide_eq_true_iff] at same
    subst same
    have get := OrdMap.get_eq_some.2 mem
    obtain ⟨inside, own⟩ := registered_text files get
    obtain ⟨parts, found, rfl⟩ := Option.map_eq_some_iff.1 own
    obtain ⟨nonempty, colon⟩ := moduleParts_plain (plain _ inside) found
    rw [registered_get plain nonempty colon] at get
    exact ⟨parts, found, get⟩
  · rintro ⟨parts, found, held⟩
    obtain ⟨nonempty, colon⟩ := moduleParts_plain (plain file (holder_some held).1) found
    rw [← registered_get plain nonempty colon] at held
    exact ⟨_, OrdMap.get_eq_some.1 held, by simp⟩

theorem Tail.join_ne_nil (tail : Tail) : join tail.parts ≠ [] := by
  obtain ⟨name, parts, eq⟩ := List.exists_cons_of_ne_nil tail.nonempty
  have named := tail.named name (by rw [eq]; exact List.mem_cons_self)
  rw [eq]
  by_cases last : parts = []
  · subst last
    rwa [join_singleton]
  · rw [join_cons name last]
    simp [named]

/-- The rest of an import does not begin with another keyword. -/
theorem Tail.strip_keyword (tail : Tail) {keyword : Name}
    (mem : keyword ∈ ["crate".toList, "self".toList, "super".toList]) :
    stripPrefix (keyword ++ colons) (join tail.parts) = none := by
  cases found : stripPrefix (keyword ++ colons) (join tail.parts) with
  | none => rfl
  | some rest =>
    rw [stripPrefix_eq_some] at found
    obtain ⟨name, parts, eq⟩ := List.exists_cons_of_ne_nil tail.nonempty
    have inside : name ∈ tail.parts := by
      rw [eq]
      exact List.mem_cons_self
    have plain := tail.plain name inside
    have colon : ':' ∉ keyword :=
      (by decide : ∀ keyword ∈ ["crate".toList, "self".toList, "super".toList], ':' ∉ keyword) keyword mem
    rw [eq] at found
    by_cases last : parts = []
    · subst last
      rw [join_singleton] at found
      exact absurd (by rw [found]; simp [colons]) plain
    · rw [join_cons name last] at found
      simp only [colons, List.append_assoc] at found
      rw [(before_unique plain colon found).1] at inside
      exact absurd mem (tail.free keyword inside)

theorem under_join (dirs : List Name) (tail : Tail) :
    under dirs (join tail.parts) = join (dirs ++ tail.parts) := by
  rw [under, if_neg tail.join_ne_nil]
  split
  · rename_i empty
    rw [empty, List.nil_append]
  · rename_i nonempty
    rw [join_append nonempty tail.nonempty]

theorem climb_supers (tail : Tail) (n fuel : Nat) (dirs : List Name) (enough : n < fuel) :
    (climb fuel dirs (join (List.replicate n "super".toList ++ tail.parts))).2 = join tail.parts := by
  induction n generalizing fuel dirs with
  | zero =>
    obtain ⟨fuel, rfl⟩ := Nat.exists_eq_add_one_of_ne_zero (by omega : fuel ≠ 0)
    have stop : stripPrefix "super::".toList (join tail.parts) = none :=
      @Tail.strip_keyword tail "super".toList (by simp)
    rw [List.replicate_zero, List.nil_append, climb, stop]
  | succ n ih =>
    obtain ⟨fuel, rfl⟩ := Nat.exists_eq_add_one_of_ne_zero (by omega : fuel ≠ 0)
    have rest : List.replicate n "super".toList ++ tail.parts ≠ [] := by simp [tail.nonempty]
    have strip : stripPrefix "super::".toList
        (join (List.replicate (n + 1) "super".toList ++ tail.parts)) =
          some (join (List.replicate n "super".toList ++ tail.parts)) := by
      rw [stripPrefix_eq_some, List.replicate_succ, List.cons_append, join_cons _ rest]
      rfl
    rw [climb, strip]
    exact ih fuel dirs.dropLast (by omega)

/-- An import is looked for under the path the graph makes of it. -/
theorem normaliseImport_written (importer : Path) (w : Written) :
    normaliseImport importer w.text = join (looksFor importer w) := by
  cases w with
  | crate tail =>
    have strip : stripPrefix "crate::".toList (Written.crate tail).text = some (join tail.parts) := by
      rw [stripPrefix_eq_some, Written.text, Written.segments, join_cons _ tail.nonempty]
      rfl
    rw [normaliseImport, strip]
    exact under_join _ tail
  | self tail =>
    have text : (Written.self tail).text = "self::".toList ++ join tail.parts := by
      rw [Written.text, Written.segments, join_cons _ tail.nonempty]
      rfl
    have crate : stripPrefix "crate::".toList (Written.self tail).text = none := by
      rw [text]
      rfl
    have super : stripPrefix "super::".toList (Written.self tail).text = none := by
      rw [text]
      rfl
    have strip : stripPrefix "self::".toList (Written.self tail).text = some (join tail.parts) := by
      rw [text, stripPrefix_eq_some]
    have climbed : climb (Written.self tail).text.length importer.dropLast (Written.self tail).text =
        (importer.dropLast, (Written.self tail).text) := by
      rw [text, List.length_append, Nat.add_comm]
      rw [text] at super
      rw [show "self::".toList.length = 5 + 1 from rfl, ← Nat.add_assoc, climb, super]
    rw [normaliseImport, crate, climbed]
    dsimp only
    rw [strip]
    exact under_join _ tail
  | super n tail =>
    have text : (Written.super n tail).text =
        "super::".toList ++ join (List.replicate n "super".toList ++ tail.parts) := by
      rw [Written.text, Written.segments, List.replicate_succ, List.cons_append,
        join_cons _ (by simp [tail.nonempty])]
      rfl
    have crate : stripPrefix "crate::".toList (Written.super n tail).text = none := by
      rw [text]
      rfl
    have enough : n + 1 < (Written.super n tail).text.length := by
      have := length_le_join (List.replicate n "super".toList ++ tail.parts)
      have some := List.length_pos_of_ne_nil tail.nonempty
      rw [List.length_append, List.length_replicate] at this
      rw [text, List.length_append, show "super::".toList.length = 7 from rfl]
      omega
    have climbed := climb_supers tail (n + 1) _ importer.dropLast enough
    have strip : stripPrefix "self::".toList (join tail.parts) = none :=
      @Tail.strip_keyword tail "self".toList (by simp)
    have unrooted : "crate::".toList.isPrefixOf (Written.super n tail).text = false := by
      rw [text]
      rfl
    change (climb _ importer.dropLast (Written.super n tail).text).2 = _ at climbed
    rw [normaliseImport, crate]
    dsimp only
    rw [climbed, strip, unrooted]
    rfl

theorem looksFor_plain {importer : Path} (plain : ∀ name ∈ importer, ':' ∉ name) (w : Written) :
    looksFor importer w ≠ [] ∧ ∀ name ∈ looksFor importer w, ':' ∉ name := by
  have inside := fun name mem => plain name (List.dropLast_subset importer mem)
  cases w with
  | crate tail | self tail =>
    refine ⟨by simp [looksFor, tail.nonempty], fun name mem => ?_⟩
    exact (List.mem_append.1 mem).elim (inside name) (tail.plain name)
  | super n tail =>
    refine ⟨by simp [looksFor, tail.nonempty], fun name mem => ?_⟩
    rcases List.mem_append.1 mem with mem | mem
    · rw [List.eq_of_mem_replicate mem]
      decide
    · exact tail.plain name mem

/-- Where the import of a registered file leads. -/
theorem resolve_written {files : List Path} (plain : ∀ file ∈ files, ∀ name ∈ file, ':' ∉ name)
    (imports : List (Path × Text)) {importer : Path} (mem : importer ∈ files) (w : Written) (file : Path) :
    (graphOf files imports).resolve (normaliseImport importer w.text) = some file ↔
      Leads files importer w file := by
  obtain ⟨nonempty, colon⟩ := looksFor_plain (plain importer mem) w
  rw [normaliseImport_written, DependencyGraph.resolve,
    resolveFrom_join _ nonempty colon (length_le_join _), graphOf_modules]
  have held (front : List Name) (some : front ≠ []) (pre : front <+: looksFor importer w) :=
    registered_get plain some fun name inside => colon name (pre.subset inside)
  have unnamed : holder files [] = none := by
    cases found : holder files [] with
    | none => rfl
    | some other =>
      obtain ⟨inside, own⟩ := holder_some found
      exact absurd rfl (moduleParts_plain (plain other inside) own).1
  constructor
  · rintro ⟨front, some, pre, found, longest⟩
    refine ⟨front, pre, (held front some pre).symm.trans found, fun longer pre held' => ?_⟩
    have some' : longer ≠ [] := by
      rintro rfl
      rw [unnamed] at held'
      cases held'
    rw [← held longer some' pre] at held'
    exact longest longer some' pre held'
  · rintro ⟨front, pre, found, longest⟩
    have some : front ≠ [] := by
      rintro rfl
      rw [unnamed] at found
      cases found
    refine ⟨front, some, pre, (held front some pre).trans found, fun longer some pre held' => ?_⟩
    exact longest longer pre (held longer some pre ▸ held')

/-- The blast radius is complete for every choice among the imports, if and only if every one of them
that denotes a file leads to it, or stands in that file and the file is known. -/
theorem covers_iff {root : Path} {files : List Path} (layout : Layout root files)
    (imports : List (Path × Text)) :
    (∀ recorded ⊆ imports, Covers root files recorded) ↔
      ∀ importer w file, (importer, Written.text w) ∈ imports → Denotes root files importer w file →
        Leads files importer w file ∨ importer = file ∧ Registered files file := by
  constructor
  · intro covers importer w file mem denotes
    have single : [(importer, w.text)] ⊆ imports := by simpa using mem
    have depends : DependsOn root files [(importer, w.text)] importer file := ⟨w, by simp, denotes⟩
    have inside := covers _ single importer file (.single depends)
    obtain ⟨known, reach⟩ := DependencyGraph.mem_dependents.1 inside
    rw [filesContain_graphOf layout.plain] at known
    rcases ReflTransGen.cases_head reach with same | ⟨next, follows, -⟩
    · exact Or.inr ⟨same.symm, known⟩
    · obtain ⟨text, here, found⟩ := follows_graphOf.1 follows
      rw [List.mem_singleton, Prod.mk.injEq] at here
      obtain ⟨rfl, rfl⟩ := here
      exact Or.inl ((resolve_written layout.plain _ denotes.1 w file).1 found)
  · intro leads recorded sub importer file reach
    have step (a b : Path) (depends : DependsOn root files recorded a b) :
        Registered files b ∧ (a = b ∨ (graphOf files recorded).Follows b a) := by
      obtain ⟨w, mem, denotes⟩ := depends
      rcases leads a w b (sub mem) denotes with found | ⟨rfl, known⟩
      · have follows := (resolve_written layout.plain recorded denotes.1 w b).2 found
        obtain ⟨parts, -, held, -⟩ := found
        exact ⟨⟨parts, (holder_some held).2, held⟩, Or.inr (follows_graphOf.2 ⟨_, mem, follows⟩)⟩
      · exact ⟨known, Or.inl rfl⟩
    have walk : ReflTransGen (graphOf files recorded).Follows file importer := by
      induction reach with
      | single depends =>
        rcases (step _ _ depends).2 with rfl | follows
        · exact .refl
        · exact .single follows
      | tail _ depends ih =>
        rcases (step _ _ depends).2 with rfl | follows
        · exact ih
        · exact ih.head follows
    have known : Registered files file := by
      cases reach with
      | single depends => exact (step _ _ depends).1
      | tail _ depends => exact (step _ _ depends).1
    exact DependencyGraph.mem_dependents.2 ⟨(filesContain_graphOf layout.plain recorded file).2 known, walk⟩

section Examples

def names (parts : List String) : Path := parts.map String.toList

def tailOf (parts : List String) (nonempty : names parts ≠ [] := by decide)
    (named : ∀ name ∈ names parts, name ≠ [] := by decide)
    (plain : ∀ name ∈ names parts, ':' ∉ name := by decide)
    (free : ∀ name ∈ names parts, name ∉ ["crate".toList, "self".toList, "super".toList] := by decide) :
    Tail := ⟨names parts, nonempty, named, plain, free⟩

def flat : List Path := [names ["src", "main.rs"], names ["src", "turns.rs"]]

def nested : List Path := [names ["src", "a.rs"], names ["src", "b", "c.rs"]]

/-- Two files that are different modules. -/
theorem pair_layout {root a b : Path} (isModule : ∀ file ∈ [a, b], (moduleOf root file).isSome)
    (apart : moduleOf root a ≠ moduleOf root b) (plain : ∀ file ∈ [a, b], ∀ name ∈ file, ':' ∉ name) :
    Layout root [a, b] := by
  refine ⟨isModule, ?_, plain⟩
  intro file mem other mem' same
  simp only [List.mem_cons, List.not_mem_nil, or_false] at mem mem'
  rcases mem with rfl | rfl
  · rcases mem' with rfl | rfl
    · rfl
    · exact absurd same apart
  · rcases mem' with rfl | rfl
    · exact absurd same.symm apart
    · rfl

theorem flat_layout : Layout (names ["src"]) flat := pair_layout (by decide) (by decide) (by decide)

theorem Written.segments_inj {w other : Written} (h : w.text = other.text) : w.segments = other.segments := by
  have shape (w : Written) : w.segments ≠ [] ∧ ∀ name ∈ w.segments, ':' ∉ name := by
    cases w with
    | crate tail | self tail =>
      refine ⟨by simp [segments], fun name mem => ?_⟩
      rcases List.mem_cons.1 mem with rfl | mem
      · decide
      · exact tail.plain name mem
    | super n tail =>
      refine ⟨by simp [segments, tail.nonempty], fun name mem => ?_⟩
      rcases List.mem_append.1 mem with mem | mem
      · rw [List.eq_of_mem_replicate mem]
        decide
      · exact tail.plain name mem
  exact join_inj (shape w).1 (shape other).1 (shape w).2 (shape other).2 h

/-- The import of the item of a module beside the crate root is followed. -/
theorem flat_covers :
    Covers (names ["src"]) flat
      [(names ["src", "main.rs"], (Written.crate (tailOf ["turns", "recall_turn"])).text)] := by
  refine (covers_iff flat_layout _).2 (fun importer w file mem denotes => Or.inl ?_) _ (List.Subset.refl _)
  simp only [List.mem_singleton, Prod.mk.injEq] at mem
  obtain ⟨rfl, text⟩ := mem
  obtain ⟨-, module, path, own, -, means, inside, held, -, longest⟩ := denotes
  have segments := Written.segments_inj text
  simp only [flat, List.mem_cons, List.not_mem_nil, or_false] at inside
  cases w with
  | crate tail =>
    have parts : tail.parts = names ["turns", "recall_turn"] := (List.cons.inj segments).2
    cases (means : some tail.parts = some path)
    rcases inside with rfl | rfl
    · -- the crate root is not the module of `recall_turn`
      cases (held : some [] = some own)
      have := longest (names ["src", "turns.rs"]) (by decide) (names ["turns"]) (by decide)
        (by rw [parts]; decide)
      exact absurd this (by decide)
    · have importer : names ["src", "main.rs"] ∈ flat := by decide
      refine (resolve_written flat_layout.plain [] importer (.crate tail) (names ["src", "turns.rs"])).1 ?_
      rw [text]
      decide +kernel
  | self tail => exact absurd (List.cons.inj segments).1 (by decide)
  | super n tail => exact absurd (List.cons.inj segments).1 (by decide)

/-- `crate::a::f` in `src/b/c.rs` is looked for as `src::b::a::f`. -/
theorem nested_uncovered :
    Layout (names ["src"]) nested ∧
      ¬ Covers (names ["src"]) nested
        [(names ["src", "b", "c.rs"], (Written.crate (tailOf ["a", "f"])).text)] := by
  refine ⟨pair_layout (by decide) (by decide) (by decide), fun covers => ?_⟩
  have denotes : Denotes (names ["src"]) nested (names ["src", "b", "c.rs"])
      (.crate (tailOf ["a", "f"])) (names ["src", "a.rs"]) := by
    refine ⟨by decide, names ["b", "c"], names ["a", "f"], names ["a"], by decide, rfl, by decide, by decide,
      by decide, ?_⟩
    intro other mem longer own pre
    simp only [nested, List.mem_cons, List.not_mem_nil, or_false] at mem
    rcases mem with rfl | rfl
    · cases (own : some (names ["a"]) = some longer)
      exact Nat.le_refl _
    · cases (own : some (names ["b", "c"]) = some longer)
      exact absurd pre (by decide)
  have inside := covers _ _ (.single ⟨_, List.mem_singleton_self _, denotes⟩)
  exact absurd inside (by decide +kernel)

end Examples

end SupraHarness.Digest
