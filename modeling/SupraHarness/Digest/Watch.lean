import SupraHarness.Digest.Crates
import SupraHarness.Digest.Scan
import SupraHarness.Lib.Run

/-!
# The watched repository

Files change, the watcher queues an event for each change, and the digest applies the events in their
order, each against the tree as it is by then. What the digest should answer is what one opened on that
tree answers.
-/
namespace SupraHarness.Digest

open Str

namespace FileTree

/-- Write a file or a link at a path that is not above or below another one. -/
def put (tree : FileTree) (path : Path) (leaf : Leaf) : Option FileTree :=
  if h : path ≠ [] ∧ ∀ other ∈ tree.leaves.keys, (path <+: other ∨ other <+: path) → path = other then
    some {
      leaves := tree.leaves.insert path leaf
      below := by
        intro file mem
        rw [OrdMap.mem_keys, OrdMap.get_insert] at mem
        by_cases same : file = path
        · exact same ▸ h.1
        · rw [if_neg same, ← OrdMap.mem_keys] at mem
          exact tree.below file mem
      apart := by
        intro file mem other mem' pre
        rw [OrdMap.mem_keys, OrdMap.get_insert] at mem mem'
        by_cases same : file = path
        · by_cases same' : other = path
          · rw [same, same']
          · rw [if_neg same', ← OrdMap.mem_keys] at mem'
            exact same ▸ h.2 other mem' (Or.inl (same ▸ pre))
        · rw [if_neg same, ← OrdMap.mem_keys] at mem
          by_cases same' : other = path
          · exact same' ▸ (h.2 file mem (Or.inr (same' ▸ pre))).symm
          · rw [if_neg same', ← OrdMap.mem_keys] at mem'
            exact tree.apart file mem other mem' pre }
  else none

def erase (tree : FileTree) (path : Path) : FileTree where
  leaves := tree.leaves.retain fun file _ => file ≠ path
  below := by
    intro file mem
    obtain ⟨entry, inside, rfl⟩ := List.mem_map.1 mem
    exact tree.below _ (List.mem_map_of_mem (List.mem_of_mem_filter inside))
  apart := by
    intro file mem other mem'
    obtain ⟨entry, inside, rfl⟩ := List.mem_map.1 mem
    obtain ⟨entry', inside', rfl⟩ := List.mem_map.1 mem'
    exact tree.apart _ (List.mem_map_of_mem (List.mem_of_mem_filter inside)) _
      (List.mem_map_of_mem (List.mem_of_mem_filter inside'))

end FileTree

inductive EventKind where
  | create
  | modify
  | remove
  | other
  deriving DecidableEq, Repr

structure Event where
  kind : EventKind
  paths : List Path
  deriving DecidableEq, Repr

/-- A change of one file. -/
inductive Change where
  | write (path : Path) (leaf : Leaf)
  | delete (path : Path)
  | rename (source target : Path)
  /-- New permissions or other metadata. -/
  | touch (path : Path)
  | access (path : Path)
  deriving DecidableEq, Repr

def FileTree.change (tree : FileTree) : Change → Option FileTree
  | .write path leaf => tree.put path leaf
  | .delete path => if (tree.leaves.get path).isSome then some (tree.erase path) else none
  | .rename source target => (tree.leaves.get source).bind fun leaf => (tree.erase source).put target leaf
  | .touch _ | .access _ => some tree

/-- What the watcher reports: a rename as its two halves and then both. -/
def eventsOf (tree : FileTree) : Change → List Event
  | .write path _ => [⟨if (tree.leaves.get path).isSome then .modify else .create, [path]⟩]
  | .delete path => [⟨.remove, [path]⟩]
  | .rename source target => [⟨.modify, [source]⟩, ⟨.modify, [target]⟩, ⟨.modify, [source, target]⟩]
  | .touch path => [⟨.modify, [path]⟩]
  | .access path => [⟨.other, [path]⟩]

/-- The index and the graph of a digest. -/
structure Indices (Δ : Type) where
  index : SymbolIndex Δ
  graph : DependencyGraph

section Watch

variable {Δ : Type} (tools : Tools Δ)

/-- The imports of one indexed file. -/
def recordFile (tree : FileTree) (graph : DependencyGraph) (path : Path) : DependencyGraph :=
  match tree.read path with
  | none => graph
  | some source =>
    match Language.detect path with
    | none => graph
    | some language => graph.recordImports path (importTargets language (fromUtf8Lossy source))

/-- Build the dependency graph over an index: modules first, imports second. -/
def buildGraph (tree : FileTree) (index : SymbolIndex Δ) : DependencyGraph :=
  (SymbolIndex.indexedPaths index).foldl (recordFile tree)
    ((SymbolIndex.indexedPaths index).foldl DependencyGraph.registerModule .new)

/-- Open the digest over a tree, scanning it fully. -/
def openDigest (tree : FileTree) : Indices Δ :=
  let index := scanTree tools tree
  ⟨index, buildGraph tree index⟩

variable [DecidableEq Δ]

/-- One path of a watcher event: re-index a changed file, drop a deleted one. -/
def applyPath (tree : FileTree) (kind : EventKind) (digest : Indices Δ) (path : Path) : Indices Δ :=
  match kind with
  | .remove => ⟨SymbolIndex.removeFile digest.index path, digest.graph.removeFile path⟩
  | .create | .modify =>
    match tree.read path with
    | none => digest
    | some source =>
      if SymbolIndex.isCurrent tools digest.index path source then digest
      else
        let index := SymbolIndex.indexBytes tools digest.index path source
        let graph := digest.graph.removeFile path
        if path ∈ SymbolIndex.indexedPaths index then
          let graph := graph.registerModule path
          match Language.detect path with
          | some language => ⟨index, graph.recordImports path (importTargets language (fromUtf8Lossy source))⟩
          | none => ⟨index, graph⟩
        else ⟨index, graph⟩
  | .other => digest

/-- Apply one watcher event. -/
def applyEvent (tree : FileTree) (digest : Indices Δ) (event : Event) : Indices Δ :=
  event.paths.foldl (applyPath tools tree event.kind) digest

/-- The queries of a digest. -/
inductive Query where
  | symbolsNamed (name : Text)
  | symbolsIn (path : Path)
  | blastRadius (path : Path)
  deriving DecidableEq, Repr

inductive Answer where
  | symbols (found : List Symbol)
  | files (found : List Path)
  deriving DecidableEq, Repr

omit [DecidableEq Δ] in
def Indices.answer (digest : Indices Δ) : Query → Answer
  | .symbolsNamed name => .symbols (SymbolIndex.symbolsNamed digest.index name)
  | .symbolsIn path => .symbols (SymbolIndex.symbolsIn digest.index path)
  | .blastRadius path => .files (digest.graph.dependents path)

/-- The repository, the events not yet applied, and the digest. -/
structure Watched (Δ : Type) where
  tree : FileTree
  queue : List Event
  digest : Indices Δ

inductive Action where
  | change (change : Change)
  | deliver
  deriving DecidableEq, Repr

def step (state : Watched Δ) : Action → Option (Watched Δ)
  | .change change =>
    (state.tree.change change).map fun tree =>
      { state with tree := tree, queue := state.queue ++ eventsOf state.tree change }
  | .deliver =>
    match state.queue with
    | [] => none
    | event :: queue =>
      some { state with queue := queue, digest := applyEvent tools state.tree state.digest event }

/-- A digest that has just been opened. -/
def opened (tree : FileTree) : Watched Δ := ⟨tree, [], openDigest tools tree⟩

end Watch

namespace FileTree

@[simp] theorem get_erase (tree : FileTree) (path file : Path) :
    (tree.erase path).leaves.get file = if file = path then none else tree.leaves.get file := by
  rw [erase, OrdMap.get_retain]
  by_cases same : file = path <;> cases tree.leaves.get file <;> simp [same]

theorem get_put {tree after : FileTree} {path : Path} {leaf : Leaf} (h : tree.put path leaf = some after)
    (file : Path) : after.leaves.get file = if file = path then some leaf else tree.leaves.get file := by
  unfold put at h
  split at h
  · cases h
    dsimp only
    rw [OrdMap.get_insert]
    by_cases same : file = path <;> simp [same]
  · cases h

end FileTree

end SupraHarness.Digest
