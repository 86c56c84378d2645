import Mathlib.Data.Char
import Mathlib.Data.List.Lex
import Mathlib.Data.List.Sort
import Mathlib.Data.Prod.Lex
import Mathlib.Order.Bounds.Defs
import SupraHarness.Digest.Imports
import SupraHarness.Lib.OrdMap
import SupraHarness.Lib.Worklist

/-!
# The dependency graph

Modules by their paths, and one edge for each import that a file declares. An import resolves to the
file of the longest prefix of its path that is a registered module. The files that depend on a file are
found by walking the edges backwards.
-/
namespace SupraHarness.Digest

open Relation

/-- One directed edge: from the importing file to the imported module path. -/
structure Edge where
  importer : Path
  target : Text
  /-- Whether the target resolved to a file when the edge was recorded. -/
  internal : Bool
  deriving DecidableEq, Repr

instance : LinearOrder Edge :=
  LinearOrder.lift' (fun edge => toLex (edge.importer, toLex (edge.target, edge.internal))) (by
    rintro ⟨⟩ ⟨⟩ eq
    simpa using eq)

structure DependencyGraph where
  edges : OrdMap Edge Unit
  modules : OrdMap Text Path

namespace DependencyGraph

def new : DependencyGraph := ⟨OrdMap.empty, OrdMap.empty⟩

def registerModule (graph : DependencyGraph) (path : Path) : DependencyGraph :=
  match modulePath path with
  | some module => { graph with modules := graph.modules.insert module path }
  | none => graph

/-- The exact module first, then one segment less at a time from the right. -/
def resolveFrom (modules : OrdMap Text Path) : Nat → Text → Option Path
  | 0, _ => none
  | fuel + 1, candidate =>
    (modules.get candidate).or ((rsplitOnce candidate).bind fun split => resolveFrom modules fuel split.1)

/-- Resolve a module path to a file inside the root, if it is internal. -/
def resolve (graph : DependencyGraph) (module : Text) : Option Path :=
  resolveFrom graph.modules (module.length + 1) module

def recordImport (importer : Path) (graph : DependencyGraph) (target : Text) : DependencyGraph :=
  let normalised := normaliseImport importer target
  { graph with
    edges := graph.edges.insert ⟨importer, normalised, (graph.resolve normalised).isSome⟩ () }

/-- Record the imports of one file. -/
def recordImports (graph : DependencyGraph) (importer : Path) (imports : List Text) : DependencyGraph :=
  imports.foldl (recordImport importer) graph

/-- Drop a file's module and its outgoing edges. -/
def removeFile (graph : DependencyGraph) (path : Path) : DependencyGraph where
  modules := graph.modules.retain fun _ file => file ≠ path
  edges := graph.edges.retain fun edge _ => edge.importer ≠ path

def edgeList (graph : DependencyGraph) : List Edge := graph.edges.entries.map Prod.fst

def filesContain (graph : DependencyGraph) (path : Path) : Bool :=
  graph.modules.entries.any fun entry => entry.2 = path

/-- The files whose imports lead to this one. -/
def importers (graph : DependencyGraph) (current : Path) : List Path :=
  (graph.edgeList.filter fun edge => edge.internal && graph.resolve edge.target = some current).map Edge.importer

/-- Files that (transitively) depend on `path`, including `path` itself. -/
def dependents (graph : DependencyGraph) (path : Path) : List Path :=
  if graph.filesContain path then
    (Worklist.explore graph.importers (graph.edgeList.length + 1) [path] [path]).insertionSort (· ≤ ·)
  else []

/-- One import that the walk follows. -/
def Follows (graph : DependencyGraph) (target importer : Path) : Prop :=
  ∃ edge ∈ graph.edgeList, edge.internal = true ∧ graph.resolve edge.target = some target ∧ edge.importer = importer

theorem mem_importers {graph : DependencyGraph} {target importer : Path} :
    importer ∈ graph.importers target ↔ graph.Follows target importer := by
  simp only [importers, List.mem_map, List.mem_filter, Bool.and_eq_true, decide_eq_true_eq, Follows, and_assoc]

theorem importers_bounded (graph : DependencyGraph) (target : Path) :
    ∀ importer ∈ graph.importers target, importer ∈ graph.edgeList.map Edge.importer := by
  intro importer mem
  obtain ⟨edge, inside, -, -, rfl⟩ := mem_importers.1 mem
  exact List.mem_map_of_mem inside

/-- The walk finds everything that reaches a registered file over the edges. -/
theorem mem_dependents {graph : DependencyGraph} {path file : Path} :
    file ∈ graph.dependents path ↔
      graph.filesContain path = true ∧ ReflTransGen graph.Follows path file := by
  unfold dependents
  split
  · rename_i registered
    rw [List.mem_insertionSort, Worklist.mem_explore graph.importers_bounded (by simp)]
    have same : (fun x y => y ∈ graph.importers x) = graph.Follows := by
      funext target importer
      exact propext mem_importers
    rw [same]
    exact ⟨fun reach => ⟨registered, reach⟩, And.right⟩
  · rename_i unregistered
    exact iff_of_false nofun fun both => unregistered both.1

theorem nodup_dependents (graph : DependencyGraph) (path : Path) : (graph.dependents path).Nodup := by
  unfold dependents
  split
  · exact (List.perm_insertionSort _ _).nodup_iff.2 (Worklist.nodup_explore graph.importers_bounded (by simp))
  · exact List.nodup_nil

theorem sorted_dependents (graph : DependencyGraph) (path : Path) :
    (graph.dependents path).Pairwise (· ≤ ·) := by
  unfold dependents
  split
  · exact List.pairwise_insertionSort _ _
  · exact List.Pairwise.nil

/-! ## What is returned -/

/-- The loop of `resolve`, which strips segments until a module is found or none is left. -/
inductive Resolves (modules : OrdMap Text Path) : Text → Option Path → Prop
  | found {module : Text} {file : Path} (here : modules.get module = some file) : Resolves modules module (some file)
  | strip {module parent last : Text} {result : Option Path} (absent : modules.get module = none)
      (split : rsplitOnce module = some (parent, last)) (rest : Resolves modules parent result) :
      Resolves modules module result
  | gone {module : Text} (absent : modules.get module = none) (whole : rsplitOnce module = none) :
      Resolves modules module none

theorem length_rsplitOnce {text parent last : Text} (split : rsplitOnce text = some (parent, last)) :
    parent.length < text.length := by
  induction text generalizing parent with
  | nil => cases split
  | cons c text ih =>
    rw [rsplitOnce] at split
    cases inner : rsplitOnce text with
    | none =>
      simp only [inner, Option.map_eq_some_iff] at split
      obtain ⟨after, -, same⟩ := split
      cases same
      simp
    | some parts =>
      simp only [inner, Option.some.injEq] at split
      cases split
      have shorter := ih inner
      simp only [List.length_cons]
      omega

theorem resolves_resolveFrom (modules : OrdMap Text Path) {fuel : Nat} {module : Text}
    (enough : module.length < fuel) : Resolves modules module (resolveFrom modules fuel module) := by
  induction fuel generalizing module with
  | zero => omega
  | succ fuel ih =>
    rw [resolveFrom]
    cases here : modules.get module with
    | some file => exact .found here
    | none =>
      cases split : rsplitOnce module with
      | none => exact .gone here split
      | some parts =>
        have shorter := length_rsplitOnce split
        exact .strip here split (ih (by omega))

/-- Every file with an internal import that resolves to one of the files is one of them. -/
def Closed (graph : DependencyGraph) (files : Set Path) : Prop :=
  ∀ edge ∈ graph.edgeList, edge.internal = true → ∀ target ∈ files, graph.resolve edge.target = some target →
    edge.importer ∈ files

theorem filesContain_iff {graph : DependencyGraph} {path : Path} :
    graph.filesContain path = true ↔ ∃ module, graph.modules.get module = some path := by
  simp only [filesContain, List.any_eq_true, decide_eq_true_eq, OrdMap.get_eq_some]
  constructor
  · rintro ⟨⟨module, file⟩, mem, rfl⟩
    exact ⟨module, mem⟩
  · rintro ⟨module, mem⟩
    exact ⟨(module, path), mem, rfl⟩

theorem Closed.mem_of_reach {graph : DependencyGraph} {files : Set Path} (closed : graph.Closed files)
    {path file : Path} (first : path ∈ files) (reach : ReflTransGen graph.Follows path file) : file ∈ files := by
  induction reach with
  | refl => exact first
  | tail _ step ih =>
    obtain ⟨edge, inside, internal, resolved, rfl⟩ := step
    exact closed edge inside internal _ ih resolved

theorem closed_reach (graph : DependencyGraph) (path : Path) :
    graph.Closed {file | ReflTransGen graph.Follows path file} := by
  intro edge inside internal target reach resolved
  exact ReflTransGen.tail reach ⟨edge, inside, internal, resolved, rfl⟩

/-- The loops end. The files returned for a registered path are the least that contain it and are
closed under imports, in order and each once; there are none for any other path. -/
theorem dependents_isLeast (graph : DependencyGraph) (path : Path) :
    (∀ module, Resolves graph.modules module (graph.resolve module)) ∧
      (graph.dependents path).Pairwise (· < ·) ∧
      ((∃ module, graph.modules.get module = some path) →
        (∃ visited, Worklist.Explores graph.importers [path] [path] visited ∧
          graph.dependents path = visited.insertionSort (· ≤ ·)) ∧
        IsLeast {files : Set Path | path ∈ files ∧ graph.Closed files} {file | file ∈ graph.dependents path}) ∧
      ((¬ ∃ module, graph.modules.get module = some path) → graph.dependents path = []) := by
  refine ⟨fun module => resolves_resolveFrom graph.modules (Nat.lt_succ_self _), ?_, ?_, ?_⟩
  · exact (sorted_dependents graph path).sortedLE.sortedLT_of_nodup (nodup_dependents graph path) |>.pairwise
  · intro registered
    have known := filesContain_iff.2 registered
    have members : {file | file ∈ graph.dependents path} = {file | ReflTransGen graph.Follows path file} := by
      ext file
      exact mem_dependents.trans (and_iff_right known)
    constructor
    · have enough : (graph.edgeList.map Edge.importer).length < graph.edgeList.length + 1 := by simp
      refine ⟨_, Worklist.explores_start graph.importers_bounded enough path, ?_⟩
      rw [dependents, if_pos known]
    · rw [members]
      exact ⟨⟨.refl, graph.closed_reach path⟩, fun files both file reach => both.2.mem_of_reach both.1 reach⟩
  · intro unregistered
    rw [dependents, if_neg fun known => unregistered (filesContain_iff.1 known)]

end DependencyGraph

end SupraHarness.Digest
