import Mathlib.Algebra.BigOperators.Group.List.Basic
import Mathlib.Algebra.GroupWithZero.Nat
import Mathlib.Data.List.Infix
import SupraHarness.Digest.Index

/-!
# The full scan

The files below the repository root, and the walk that indexes them: a stack of directories, each read
in the order of its names. Hidden and build directories are not descended into, and links are passed over.
-/
namespace SupraHarness.Digest

/-- What stands at the end of a path: a file, or a symbolic link with what reading it gives. -/
inductive Leaf where
  | file (source : Bytes)
  | link (target : Option Bytes)
  deriving DecidableEq, Repr

/-- The files and links below the root; a directory is a proper prefix of one of them. -/
structure FileTree where
  leaves : OrdMap Path Leaf
  below : ∀ path ∈ leaves.keys, path ≠ []
  apart : ∀ path ∈ leaves.keys, ∀ other ∈ leaves.keys, path <+: other → path = other

inductive FileType where
  | file (source : Bytes)
  | symlink
  | dir
  deriving DecidableEq, Repr

namespace FileTree

/-- `fs::read`; a link is followed. -/
def read (tree : FileTree) (path : Path) : Option Bytes :=
  match tree.leaves.get path with
  | some (.file source) => some source
  | some (.link target) => target
  | none => none

def fileType (tree : FileTree) (path : Path) : FileType :=
  match tree.leaves.get path with
  | some (.file source) => .file source
  | some (.link _) => .symlink
  | none => .dir

/-- The name in a directory that leads to a path. -/
def entryToward (directory path : Path) : Option Name :=
  if directory <+: path then (path.drop directory.length).head? else none

/-- `read_dir`, sorted. -/
def readDir (tree : FileTree) (directory : Path) : List Name :=
  (tree.leaves.keys.filterMap (entryToward directory)).dedup.insertionSort (· ≤ ·)

end FileTree

/-- Directories never descended into. -/
def isSkippedDir (name : Name) : Bool :=
  ['.'].isPrefixOf name || name = "target".toList || name = "node_modules".toList

section Scan

variable {Δ : Type} (tools : Tools Δ)

/-- One entry of a directory: the directories still to be read and the index after it. -/
def scanEntry (tree : FileTree) (directory : Path) (state : List Path × SymbolIndex Δ) (name : Name) :
    List Path × SymbolIndex Δ :=
  let path := directory ++ [name]
  match tree.fileType path with
  | .symlink => state
  | .dir => if isSkippedDir name then state else (path :: state.1, state.2)
  | .file source =>
    match Language.detect path with
    | none => state
    | some _ => (state.1, SymbolIndex.indexBytes tools state.2 path source)

def scanDirs (tree : FileTree) : Nat → List Path → SymbolIndex Δ → SymbolIndex Δ
  | 0, _, index => index
  | _ + 1, [], index => index
  | fuel + 1, directory :: directories, index =>
    let state := (tree.readDir directory).foldl (scanEntry tools tree directory) (directories, index)
    scanDirs tree fuel state.1 state.2

/-- More directories than the tree has. -/
def dirBound (tree : FileTree) : Nat := (tree.leaves.keys.map List.length).sum + 2

/-- Walk the root and index every supported file. -/
def scanTree (tree : FileTree) : SymbolIndex Δ := scanDirs tools tree (dirBound tree) [[]] OrdMap.empty

end Scan

namespace FileTree

theorem entryToward_eq_some {directory path : Path} {name : Name} :
    entryToward directory path = some name ↔ directory ++ [name] <+: path := by
  unfold entryToward
  constructor
  · intro h
    split at h
    · rename_i pre
      obtain ⟨rest, rfl⟩ := pre
      rw [List.drop_left] at h
      obtain ⟨more, rfl⟩ := List.head?_eq_some_iff.1 h
      exact ⟨more, by simp⟩
    · cases h
  · rintro ⟨more, rfl⟩
    rw [if_pos ⟨name :: more, by simp⟩]
    simp

theorem mem_readDir {tree : FileTree} {directory : Path} {name : Name} :
    name ∈ tree.readDir directory ↔ ∃ path ∈ tree.leaves.keys, directory ++ [name] <+: path := by
  simp only [readDir, List.mem_insertionSort, List.mem_dedup, List.mem_filterMap, entryToward_eq_some]

theorem nodup_readDir (tree : FileTree) (directory : Path) : (tree.readDir directory).Nodup :=
  (List.perm_insertionSort _ _).nodup_iff.2 (List.nodup_dedup _)

theorem get_of_fileType {tree : FileTree} {path : Path} {source : Bytes} :
    tree.fileType path = .file source ↔ tree.leaves.get path = some (.file source) := by
  unfold fileType
  cases tree.leaves.get path with
  | none => simp
  | some leaf => cases leaf <;> simp

theorem get_of_dir {tree : FileTree} {path : Path} (h : tree.fileType path = .dir) :
    tree.leaves.get path = none := by
  unfold fileType at h
  cases found : tree.leaves.get path with
  | none => rfl
  | some leaf =>
    rw [found] at h
    cases leaf <;> cases h

/-- The regular file at a path. -/
def fileAt (tree : FileTree) (path : Path) : Option Bytes :=
  match tree.leaves.get path with
  | some (.file source) => some source
  | _ => none

theorem fileAt_eq_some {tree : FileTree} {path : Path} {source : Bytes} :
    tree.fileAt path = some source ↔ tree.leaves.get path = some (.file source) := by
  unfold fileAt
  cases tree.leaves.get path with
  | none => simp
  | some leaf => cases leaf <;> simp

theorem mem_of_fileAt {tree : FileTree} {path : Path} {source : Bytes} (h : tree.fileAt path = some source) :
    path ∈ tree.leaves.keys := by
  rw [OrdMap.mem_keys, fileAt_eq_some.1 h]
  rfl

/-- The directories of the tree. -/
def dirs (tree : FileTree) : List Path :=
  ([] :: tree.leaves.keys.flatMap fun path => path.dropLast.inits).dedup

theorem mem_dirs {tree : FileTree} {directory : Path} :
    directory ∈ tree.dirs ↔ directory = [] ∨ ∃ path ∈ tree.leaves.keys, directory <+: path.dropLast := by
  simp only [dirs, List.mem_dedup, List.mem_cons, List.mem_flatMap, List.mem_inits]

theorem length_dirs (tree : FileTree) : tree.dirs.length < dirBound tree := by
  have each : ∀ paths : List Path, (∀ path ∈ paths, path ≠ []) →
      (paths.flatMap fun path => path.dropLast.inits).length = (paths.map List.length).sum := by
    intro paths named
    induction paths with
    | nil => rfl
    | cons path paths ih =>
      have long := List.length_pos_of_ne_nil (named path List.mem_cons_self)
      rw [List.flatMap_cons, List.length_append, ih fun p mem => named p (List.mem_cons_of_mem _ mem),
        List.length_inits, List.length_dropLast, List.map_cons, List.sum_cons]
      omega
  have fewer := (List.dedup_sublist ([] :: tree.leaves.keys.flatMap fun path => path.dropLast.inits)).length_le
  rw [List.length_cons, each _ tree.below] at fewer
  unfold dirs dirBound
  omega

/-- The directories at a directory or below. -/
def under (tree : FileTree) (directory : Path) : Nat := tree.dirs.countP fun other => directory <+: other

theorem toward_le (directory other : Path) (names : List Name) (nodup : names.Nodup) :
    (names.map fun name => if directory ++ [name] <+: other then 1 else 0).sum +
      (if other = directory then 1 else 0) ≤ if directory <+: other then 1 else 0 := by
  by_cases pre : directory <+: other
  · obtain ⟨rest, rfl⟩ := pre
    rw [if_pos (List.prefix_append _ _)]
    cases rest with
    | nil =>
      have none : (names.map fun name => if directory ++ [name] <+: directory ++ [] then 1 else 0).sum = 0 := by
        refine List.sum_eq_zero fun n mem => ?_
        obtain ⟨name, -, rfl⟩ := List.mem_map.1 mem
        rw [if_neg]
        intro pre
        have := pre.length_le
        simp only [List.length_append, List.length_singleton, List.append_nil] at this
        omega
      rw [none]
      split <;> omega
    | cons first rest =>
      have apart : ¬ directory ++ first :: rest = directory := by simp
      rw [if_neg apart]
      have same (name : Name) : directory ++ [name] <+: directory ++ first :: rest ↔ name = first := by
        rw [List.prefix_append_right_inj, List.cons_prefix_cons]
        simp
      simp only [same]
      have once := List.nodup_iff_count_le_one.1 nodup first
      rw [Nat.add_zero]
      refine le_trans (le_of_eq ?_) once
      clear once nodup
      induction names with
      | nil => rfl
      | cons name names ih =>
        rw [List.map_cons, List.sum_cons, ih, List.count_cons, Nat.add_comm]
        by_cases eq : name = first <;> simp [eq]
  · rw [if_neg pre]
    have none : (names.map fun name => if directory ++ [name] <+: other then 1 else 0).sum = 0 := by
      refine List.sum_eq_zero fun n mem => ?_
      obtain ⟨name, -, rfl⟩ := List.mem_map.1 mem
      exact if_neg fun longer => pre ((List.prefix_append _ _).trans longer)
    rw [none, if_neg]
    rintro rfl
    exact pre List.prefix_rfl

/-- The directories below the entries of a directory, and itself. -/
theorem under_entries {tree : FileTree} {directory : Path} (mem : directory ∈ tree.dirs) {names : List Name}
    (nodup : names.Nodup) :
    (names.map fun name => tree.under (directory ++ [name])).sum + 1 ≤ tree.under directory := by
  have each : ∀ paths : List Path,
      (names.map fun name => paths.countP fun other => directory ++ [name] <+: other).sum +
        paths.countP (· = directory) ≤ paths.countP fun other => directory <+: other := by
    intro paths
    induction paths with
    | nil => simp
    | cons other paths ih =>
      have head := toward_le directory other names nodup
      have split : (names.map fun name => (other :: paths).countP fun other => directory ++ [name] <+: other).sum =
          (names.map fun name => paths.countP fun other => directory ++ [name] <+: other).sum +
            (names.map fun name => if directory ++ [name] <+: other then 1 else 0).sum := by
        rw [← List.sum_map_add]
        simp only [List.countP_cons, decide_eq_true_eq]
      rw [split, List.countP_cons, List.countP_cons]
      simp only [decide_eq_true_eq]
      omega
  have here : 1 ≤ tree.dirs.countP (· = directory) :=
    List.countP_pos_iff.2 ⟨directory, mem, by simp⟩
  have := each tree.dirs
  unfold under
  omega

/-- A path that the walk from a directory comes to. -/
def Reaches (directory path : Path) : Prop :=
  ∃ rest, path = directory ++ rest ∧ rest ≠ [] ∧ ∀ name ∈ rest.dropLast, isSkippedDir name = false

/-- The entries that the walk goes down into. -/
def subdirs (tree : FileTree) (directory : Path) (names : List Name) : List Name :=
  names.filter fun name => tree.fileType (directory ++ [name]) = .dir ∧ isSkippedDir name = false

theorem reaches_iff {tree : FileTree} {directory path : Path} (leaf : path ∈ tree.leaves.keys) :
    Reaches directory path ↔
      (∃ name ∈ tree.readDir directory, path = directory ++ [name]) ∨
        ∃ name ∈ tree.subdirs directory (tree.readDir directory), Reaches (directory ++ [name]) path := by
  constructor
  · rintro ⟨rest, rfl, nonempty, visible⟩
    obtain ⟨name, rest, rfl⟩ := List.exists_cons_of_ne_nil nonempty
    have listed : name ∈ tree.readDir directory := mem_readDir.2 ⟨_, leaf, ⟨rest, by simp⟩⟩
    by_cases last : rest = []
    · subst last
      exact Or.inl ⟨name, listed, rfl⟩
    · rw [List.dropLast_cons_of_ne_nil last] at visible
      have inner : tree.fileType (directory ++ [name]) = .dir := by
        cases found : tree.leaves.get (directory ++ [name]) with
        | none => rw [fileType, found]
        | some other =>
          have mem : directory ++ [name] ∈ tree.leaves.keys := by
            rw [OrdMap.mem_keys, found]
            rfl
          have same := tree.apart _ mem _ leaf ⟨rest, by simp⟩
          exact absurd (congrArg List.length same) (by simpa using last)
      refine Or.inr ⟨name, List.mem_filter.2 ⟨listed, ?_⟩, rest, by simp, last,
        fun n mem => visible n (List.mem_cons_of_mem _ mem)⟩
      simp [inner, visible name List.mem_cons_self]
  · rintro (⟨name, -, rfl⟩ | ⟨name, mem, rest, rfl, nonempty, visible⟩)
    · exact ⟨[name], rfl, by simp, by simp⟩
    · have skipped := (List.mem_filter.1 mem).2
      rw [decide_eq_true_iff] at skipped
      refine ⟨name :: rest, by simp, by simp, fun n mem => ?_⟩
      rw [List.dropLast_cons_of_ne_nil nonempty] at mem
      rcases List.mem_cons.1 mem with rfl | mem
      · exact skipped.2
      · exact visible n mem

theorem subdirs_mem_dirs {tree : FileTree} {directory : Path} {name : Name}
    (mem : name ∈ tree.subdirs directory (tree.readDir directory)) : directory ++ [name] ∈ tree.dirs := by
  obtain ⟨listed, kind⟩ := List.mem_filter.1 mem
  rw [decide_eq_true_iff] at kind
  obtain ⟨path, leaf, pre⟩ := mem_readDir.1 listed
  refine mem_dirs.2 (Or.inr ⟨path, leaf, ?_⟩)
  obtain ⟨rest, rfl⟩ := pre
  rcases List.eq_nil_or_concat rest with rfl | ⟨rest, last, rfl⟩
  · rw [List.append_nil, OrdMap.mem_keys, get_of_dir kind.1] at leaf
    cases leaf
  · rw [List.concat_eq_append, ← List.append_assoc, List.dropLast_concat]
    exact List.prefix_append _ _

end FileTree

section Correct

variable {Δ : Type} {tools : Tools Δ} {tree : FileTree}

/-- The index has the entries of these files of the tree and no others. -/
def Holds (tools : Tools Δ) (tree : FileTree) (index : SymbolIndex Δ) (done : Path → Prop) : Prop :=
  ∀ path entry, index.get path = some entry ↔
    done path ∧ ∃ source, tree.fileAt path = some source ∧ entryOf tools path source = some entry

theorem Holds.congr {index : SymbolIndex Δ} {done done' : Path → Prop} (h : Holds tools tree index done)
    (same : ∀ path ∈ tree.leaves.keys, done path ↔ done' path) : Holds tools tree index done' := by
  intro path entry
  rw [h path entry]
  refine and_congr_left fun ⟨source, found, _⟩ => same path (FileTree.mem_of_fileAt found)

/-- One entry: a directory goes on the stack, a file into the index. -/
theorem scanEntry_spec {directory : Path} {state : List Path × SymbolIndex Δ} {name : Name} {done : Path → Prop}
    (holds : Holds tools tree state.2 done) :
    (scanEntry tools tree directory state name).1 =
        (tree.subdirs directory [name]).map (fun n => directory ++ [n]) ++ state.1 ∧
      Holds tools tree (scanEntry tools tree directory state name).2
        fun path => done path ∨ path = directory ++ [name] := by
  have keep (h : ∀ source entry, tree.fileAt (directory ++ [name]) = some source →
      entryOf tools (directory ++ [name]) source ≠ some entry) :
      Holds tools tree state.2 fun path => done path ∨ path = directory ++ [name] := by
    intro path entry
    rw [holds path entry]
    constructor
    · rintro ⟨old, rest⟩
      exact ⟨Or.inl old, rest⟩
    · rintro ⟨old | rfl, source, found, made⟩
      · exact ⟨old, source, found, made⟩
      · exact absurd made (h source entry found)
  unfold scanEntry FileTree.subdirs
  dsimp only
  cases kind : tree.fileType (directory ++ [name]) with
  | symlink =>
    refine ⟨by simp [kind], keep fun source entry found => ?_⟩
    rw [FileTree.fileAt_eq_some, ← FileTree.get_of_fileType, kind] at found
    cases found
  | dir =>
    have plain := keep fun source entry found => by
      rw [FileTree.fileAt_eq_some, FileTree.get_of_dir kind] at found
      cases found
    cases skipped : isSkippedDir name with
    | true => exact ⟨by simp [kind, skipped], plain⟩
    | false => exact ⟨by simp [kind, skipped], plain⟩
  | file source =>
    have here := FileTree.fileAt_eq_some.2 (FileTree.get_of_fileType.1 kind)
    cases language : Language.detect (directory ++ [name]) with
    | none =>
      refine ⟨by simp [kind], keep fun source entry _ made => ?_⟩
      simp [entryOf, parseFile, language] at made
    | some language =>
      refine ⟨by simp [kind], fun path entry => ?_⟩
      dsimp only
      rw [get_indexBytes]
      by_cases same : path = directory ++ [name]
      · rw [if_pos same, same]
        constructor
        · exact fun made => ⟨Or.inr rfl, source, here, made⟩
        · rintro ⟨-, other, found, made⟩
          rw [here] at found
          cases found
          exact made
      · rw [if_neg same, holds path entry]
        simp [same]

theorem foldl_scanEntry {directory : Path} (names : List Name) {state : List Path × SymbolIndex Δ}
    {done : Path → Prop} (holds : Holds tools tree state.2 done) :
    (names.foldl (scanEntry tools tree directory) state).1 =
        ((tree.subdirs directory names).map fun n => directory ++ [n]).reverse ++ state.1 ∧
      Holds tools tree (names.foldl (scanEntry tools tree directory) state).2
        fun path => done path ∨ ∃ name ∈ names, path = directory ++ [name] := by
  induction names generalizing state done with
  | nil => exact ⟨rfl, holds.congr fun path _ => by simp⟩
  | cons name names ih =>
    obtain ⟨stack, held⟩ := @scanEntry_spec Δ tools tree directory state name done holds
    obtain ⟨stack', held'⟩ := ih held
    constructor
    · rw [List.foldl_cons, stack', stack]
      unfold FileTree.subdirs
      rw [List.filter_cons, List.filter_cons]
      split <;> simp
    · refine held'.congr fun path _ => ?_
      simp only [List.mem_cons, exists_eq_or_imp, or_assoc]

/-- The walk comes to every file that is reached from a directory on its stack. -/
theorem scanDirs_spec (fuel : Nat) {stack : List Path} {index : SymbolIndex Δ} {done : Path → Prop}
    (holds : Holds tools tree index done) (inside : ∀ directory ∈ stack, directory ∈ tree.dirs)
    (enough : (stack.map tree.under).sum ≤ fuel) :
    Holds tools tree (scanDirs tools tree fuel stack index)
      fun path => done path ∨ ∃ directory ∈ stack, FileTree.Reaches directory path := by
  induction fuel generalizing stack index done with
  | zero =>
    cases stack with
    | nil => exact holds.congr fun path _ => by simp
    | cons directory stack =>
      have := FileTree.under_entries (inside directory List.mem_cons_self) List.nodup_nil
      simp only [List.map_cons, List.sum_cons] at enough
      omega
  | succ fuel ih =>
    cases stack with
    | nil => exact holds.congr fun path _ => by simp
    | cons directory stack =>
      have here := inside directory List.mem_cons_self
      obtain ⟨stack', held⟩ := @foldl_scanEntry Δ tools tree directory (tree.readDir directory)
        (stack, index) done holds
      have fewer := FileTree.under_entries here (FileTree.nodup_readDir tree directory |>.filter
        fun name => tree.fileType (directory ++ [name]) = .dir ∧ isSkippedDir name = false)
      rw [scanDirs, stack']
      refine (ih held ?_ ?_).congr fun path leaf => ?_
      · intro other mem
        rcases List.mem_append.1 mem with mem | mem
        · obtain ⟨name, sub, rfl⟩ := List.mem_map.1 (List.mem_reverse.1 mem)
          exact FileTree.subdirs_mem_dirs sub
        · exact inside other (List.mem_cons_of_mem _ mem)
      · rw [List.map_append, List.sum_append, List.map_reverse, List.sum_reverse, List.map_map]
        simp only [List.map_cons, List.sum_cons] at enough
        simp only [FileTree.subdirs, Function.comp_def] at fewer ⊢
        omega
      · have split : (∃ other ∈ ((tree.subdirs directory (tree.readDir directory)).map
              fun n => directory ++ [n]).reverse ++ stack, FileTree.Reaches other path) ↔
            (∃ name ∈ tree.subdirs directory (tree.readDir directory),
                FileTree.Reaches (directory ++ [name]) path) ∨
              ∃ other ∈ stack, FileTree.Reaches other path := by
          simp only [List.mem_append, List.mem_reverse, List.mem_map, or_and_right, exists_or,
            exists_exists_and_eq_and]
        rw [split, List.exists_mem_cons_iff, FileTree.reaches_iff leaf, or_assoc, or_assoc]

/-- A file that the full scan comes to. -/
def scanned (tree : FileTree) (path : Path) : Option Bytes :=
  if ∀ name ∈ path.dropLast, isSkippedDir name = false then tree.fileAt path else none

/-- The scan indexes the files that it comes to, each as its bytes say. -/
theorem get_scanTree (path : Path) :
    (scanTree tools tree).get path = (scanned tree path).bind (entryOf tools path) := by
  have empty : Holds tools tree OrdMap.empty fun _ => False := fun path entry => by simp
  have root : ∀ directory ∈ [([] : Path)], directory ∈ tree.dirs := by
    intro directory mem
    rw [List.mem_singleton] at mem
    exact FileTree.mem_dirs.2 (Or.inl mem)
  have enough : ([([] : Path)].map tree.under).sum ≤ dirBound tree := by
    have := tree.length_dirs
    have few : tree.under [] ≤ tree.dirs.length := List.countP_le_length
    simp only [List.map_cons, List.map_nil, List.sum_singleton]
    omega
  have holds := scanDirs_spec (dirBound tree) empty root enough
  apply Option.ext
  intro entry
  rw [scanTree, holds path entry, Option.bind_eq_some_iff]
  simp only [false_or, List.mem_singleton, exists_eq_left, FileTree.Reaches, List.nil_append]
  unfold scanned
  constructor
  · rintro ⟨⟨rest, rfl, -, visible⟩, source, found, made⟩
    exact ⟨source, by rw [if_pos visible, found], made⟩
  · rintro ⟨source, found, made⟩
    split at found
    · rename_i visible
      exact ⟨⟨path, rfl, tree.below path (FileTree.mem_of_fileAt found), visible⟩, source, found, made⟩
    · cases found

end Correct

end SupraHarness.Digest
