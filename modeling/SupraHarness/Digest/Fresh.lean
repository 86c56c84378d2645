import SupraHarness.Digest.Watch

/-!
# Applied events against a fresh scan

A digest stands for the contents it last read of each file. Two digests that stand for the same
contents answer alike. An event moves these contents to those of the tree as long as the file is one the
full scan would take, no other file has its module path, and no import recorded as external means it.
-/
namespace SupraHarness.Digest

open Relation Str

/-- The import targets of a source, as the graph keys them. -/
def targetsIn (path : Path) (source : Bytes) : List Text :=
  match Language.detect path with
  | none => []
  | some language => (importTargets language (fromUtf8Lossy source)).map (normaliseImport path)

/-- The last of the known files with a module path. -/
def Greatest (known : Path → Option Bytes) (text : Text) (file : Path) : Prop :=
  (known file).isSome ∧ modulePath file = some text ∧
    ∀ other, (known other).isSome → modulePath other = some text → other ≤ file

/-- The digest is that of the known contents. -/
structure Represents {Δ : Type} (tools : Tools Δ) (known : Path → Option Bytes) (digest : Indices Δ) : Prop where
  parsed : ∀ path source, known path = some source → (parseFile tools path source).isSome
  index : ∀ path, digest.index.get path = (known path).bind (entryOf tools path)
  modules : ∀ text file, digest.graph.modules.get text = some file ↔ Greatest known text file
  edges : ∀ importer target, (∃ internal, ⟨importer, target, internal⟩ ∈ digest.graph.edgeList) ↔
    ∃ source, known importer = some source ∧ target ∈ targetsIn importer source
  external : ∀ edge ∈ digest.graph.edgeList, edge.internal = false → digest.graph.resolve edge.target = none

section Graph

variable {graph : DependencyGraph} {path : Path}

theorem mem_recordImports {imports : List Text} {edge : Edge} :
    edge ∈ (graph.recordImports path imports).edgeList ↔
      edge ∈ graph.edgeList ∨ ∃ target ∈ imports.map (normaliseImport path),
        edge = ⟨path, target, (graph.resolve target).isSome⟩ := by
  induction imports generalizing graph with
  | nil => simp [DependencyGraph.recordImports]
  | cons target imports ih =>
    have same (text : Text) : (DependencyGraph.recordImport path graph target).resolve text = graph.resolve text :=
      resolve_congr rfl text
    have rest := @ih (DependencyGraph.recordImport path graph target)
    unfold DependencyGraph.recordImports at rest ⊢
    rw [List.foldl_cons, rest, mem_recordImport]
    simp only [same, List.map_cons, List.exists_mem_cons_iff]
    rw [or_assoc, or_left_comm]

theorem mem_removeFile {edge : Edge} :
    edge ∈ (graph.removeFile path).edgeList ↔ edge ∈ graph.edgeList ∧ edge.importer ≠ path := by
  rw [mem_edgeList, mem_edgeList, DependencyGraph.removeFile, OrdMap.get_retain, Option.filter_eq_some_iff]
  simp

theorem removeFile_modules (text : Text) (file : Path) :
    (graph.removeFile path).modules.get text = some file ↔ graph.modules.get text = some file ∧ file ≠ path := by
  rw [DependencyGraph.removeFile, OrdMap.get_retain, Option.filter_eq_some_iff]
  simp

theorem registerModule_edges : (graph.registerModule path).edgeList = graph.edgeList := by
  unfold DependencyGraph.registerModule
  split <;> rfl

/-- A module path that leads nowhere leads nowhere after modules have been dropped. -/
theorem resolveFrom_none {modules fewer : OrdMap Text Path}
    (sub : ∀ text, modules.get text = none → fewer.get text = none) (fuel : Nat) {text : Text}
    (h : DependencyGraph.resolveFrom modules fuel text = none) :
    DependencyGraph.resolveFrom fewer fuel text = none := by
  induction fuel generalizing text with
  | zero => rfl
  | succ fuel ih =>
    rw [DependencyGraph.resolveFrom, Option.or_eq_none_iff] at h ⊢
    refine ⟨sub text h.1, ?_⟩
    cases split : rsplitOnce text with
    | none => rfl
    | some parts =>
      rw [split] at h
      exact ih h.2

end Graph

section Same

variable {Δ : Type} {tools : Tools Δ} {known : Path → Option Bytes} {digest other : Indices Δ}

/-- An edge counts as the walk needs it, whatever its flag says. -/
theorem Represents.follows_iff (h : Represents tools known digest) {target importer : Path} :
    digest.graph.Follows target importer ↔
      ∃ text, (∃ source, known importer = some source ∧ text ∈ targetsIn importer source) ∧
        digest.graph.resolve text = some target := by
  constructor
  · rintro ⟨⟨from_, text, internal⟩, mem, -, found, rfl⟩
    exact ⟨text, (h.edges _ _).1 ⟨internal, mem⟩, found⟩
  · rintro ⟨text, source, found⟩
    obtain ⟨internal, mem⟩ := (h.edges importer text).2 source
    refine ⟨_, mem, ?_, found, rfl⟩
    cases internal with
    | true => rfl
    | false =>
      rw [h.external _ mem rfl] at found
      cases found

/-- Two digests of the same contents answer alike. -/
theorem Represents.answer_eq (h : Represents tools known digest) (h' : Represents tools known other)
    (query : Query) : digest.answer query = other.answer query := by
  have index : digest.index = other.index := OrdMap.ext_get fun path => by rw [h.index, h'.index]
  have modules : digest.graph.modules = other.graph.modules := OrdMap.ext_get fun text =>
    Option.ext fun file => by rw [h.modules, h'.modules]
  have follows : digest.graph.Follows = other.graph.Follows := by
    funext target importer
    apply propext
    rw [h.follows_iff, h'.follows_iff]
    simp only [resolve_congr modules]
  cases query with
  | symbolsNamed name => simp only [Indices.answer, index]
  | symbolsIn path => simp only [Indices.answer, index]
  | blastRadius path =>
    have contains : digest.graph.filesContain path = other.graph.filesContain path := by
      unfold DependencyGraph.filesContain
      rw [modules]
    have members (file : Path) : file ∈ digest.graph.dependents path ↔ file ∈ other.graph.dependents path := by
      rw [DependencyGraph.mem_dependents, DependencyGraph.mem_dependents, contains, follows]
    have perm := (List.perm_ext_iff_of_nodup (DependencyGraph.nodup_dependents digest.graph path)
      (DependencyGraph.nodup_dependents other.graph path)).2 members
    have sorted := perm.eq_of_pairwise (fun a b _ _ hab hba => le_antisymm hab hba)
      (DependencyGraph.sorted_dependents digest.graph path) (DependencyGraph.sorted_dependents other.graph path)
    simp only [Indices.answer, sorted]

end Same

/-- The other indexed files with the module path of this one. -/
def rivals {Δ : Type} (index : SymbolIndex Δ) (path : Path) : List Path :=
  (SymbolIndex.indexedPaths index).filter fun other =>
    other ≠ path ∧ (modulePath path).isSome ∧ modulePath other = modulePath path

section Events

variable {Δ : Type} {tools : Tools Δ} {known : Path → Option Bytes} {digest : Indices Δ} {path : Path}

theorem Represents.mem_indexed (h : Represents tools known digest) (file : Path) :
    file ∈ SymbolIndex.indexedPaths digest.index ↔ (known file).isSome := by
  rw [SymbolIndex.indexedPaths, OrdMap.mem_keys, h.index]
  cases held : known file with
  | none => rfl
  | some source =>
    have parsed := h.parsed file source held
    rw [Option.bind_some, entryOf, Option.isSome_map, parsed]
    rfl

theorem Represents.mem_rivals (h : Represents tools known digest) {text : Text}
    (own : modulePath path = some text) {other : Path} (apart : other ≠ path)
    (held : (known other).isSome) (same : modulePath other = some text) : other ∈ rivals digest.index path := by
  refine List.mem_filter.2 ⟨(h.mem_indexed other).2 held, ?_⟩
  simp [apart, own, same]

/-- Dropping a file, where no file before it has its module path. -/
theorem Represents.drop (h : Represents tools known digest)
    (first : path ∈ SymbolIndex.indexedPaths digest.index → ∀ other ∈ rivals digest.index path, path < other) :
    Represents tools (Function.update known path none)
      ⟨SymbolIndex.removeFile digest.index path, digest.graph.removeFile path⟩ where
  parsed file source held := by
    by_cases same : file = path
    · simp [same] at held
    · rw [Function.update_of_ne same] at held
      exact h.parsed file source held
  index file := by
    rw [get_removeFile, h.index]
    by_cases same : file = path
    · simp [same]
    · rw [if_neg same, Function.update_of_ne same]
  modules text file := by
    rw [removeFile_modules, h.modules]
    by_cases same : file = path
    · exact iff_of_false (fun both => both.2 same) fun both => by simpa [same] using both.1
    · simp only [Greatest, Function.update_of_ne same]
      refine ⟨fun ⟨⟨held, own, last⟩, _⟩ => ⟨held, own, fun other held' own' => ?_⟩,
        fun ⟨held, own, last⟩ => ⟨⟨held, own, fun other held' own' => ?_⟩, same⟩⟩
      · by_cases gone : other = path
        · simp [gone] at held'
        · rw [Function.update_of_ne gone] at held'
          exact last other held' own'
      · by_cases gone : other = path
        · subst gone
          have rival := h.mem_rivals own' same held own
          exact le_of_lt (first ((h.mem_indexed other).2 held') file rival)
        · exact last other (by rwa [Function.update_of_ne gone]) own'
  edges importer target := by
    simp only [mem_removeFile, exists_and_right]
    rw [h.edges]
    by_cases same : importer = path
    · simp [same]
    · simp [same]
  external edge mem outside := by
    refine resolveFrom_none (fun text none => ?_) _ (h.external edge (mem_removeFile.1 mem).1 outside)
    rw [DependencyGraph.removeFile, OrdMap.get_retain, none]
    rfl

/-- Reading a file anew, where no file after it has its module path and no import of another file has
been recorded as external that means it. -/
theorem Represents.keep (h : Represents tools known digest) {source : Bytes} {language : Language}
    (parsed : (parseFile tools path source).isSome) (detected : Language.detect path = some language)
    (last : ∀ other ∈ rivals digest.index path, other < path)
    (unmeant : ∀ edge ∈ digest.graph.edgeList, edge.internal = false → edge.importer ≠ path →
      (digest.graph.registerModule path).resolve edge.target = none) :
    Represents tools (Function.update known path (some source))
      ⟨SymbolIndex.indexBytes tools digest.index path source,
        ((digest.graph.removeFile path).registerModule path).recordImports path
          (importTargets language (fromUtf8Lossy source))⟩ where
  parsed file content held := by
    by_cases same : file = path
    · subst same
      rw [Function.update_self] at held
      exact Option.some.inj held ▸ parsed
    · rw [Function.update_of_ne same] at held
      exact h.parsed file content held
  index file := by
    rw [get_indexBytes, h.index]
    by_cases same : file = path
    · simp [same]
    · rw [if_neg same, Function.update_of_ne same]
  modules text file := by
    rw [recordImports_modules, registerModule_modules]
    by_cases own : modulePath path = some text
    · rw [if_pos own, Option.some_inj]
      constructor
      · rintro rfl
        refine ⟨by simp, own, fun other held own' => ?_⟩
        by_cases same : other = path
        · exact le_of_eq same
        · rw [Function.update_of_ne same] at held
          exact le_of_lt (last other (h.mem_rivals own same held own'))
      · rintro ⟨held, own', greatest⟩
        by_contra apart
        have same : file ≠ path := fun eq => apart eq.symm
        rw [Function.update_of_ne same] at held
        exact absurd (greatest path (by simp) own) (not_le_of_gt (last file (h.mem_rivals own same held own')))
    · rw [if_neg own, removeFile_modules, h.modules]
      have away {other : Path} (own' : modulePath other = some text) : other ≠ path := by
        rintro rfl
        exact own own'
      constructor
      · rintro ⟨⟨held, own', greatest⟩, same⟩
        refine ⟨by rwa [Function.update_of_ne same], own', fun other held' own'' => greatest other ?_ own''⟩
        rwa [Function.update_of_ne (away own'')] at held'
      · rintro ⟨held, own', greatest⟩
        rw [Function.update_of_ne (away own')] at held
        refine ⟨⟨held, own', fun other held' own'' => greatest other ?_ own''⟩, away own'⟩
        rwa [Function.update_of_ne (away own'')]
  edges importer target := by
    have targets : (importTargets language (fromUtf8Lossy source)).map (normaliseImport path) =
        targetsIn path source := by
      rw [targetsIn, detected]
    simp only [mem_recordImports, registerModule_edges, mem_removeFile, targets]
    by_cases same : importer = path
    · subst same
      simp
    · rw [Function.update_of_ne same, ← h.edges]
      simp [same]
  external edge mem outside := by
    rw [resolve_congr (recordImports_modules _ _ _)]
    rcases mem_recordImports.1 mem with mem | ⟨target, -, rfl⟩
    · rw [registerModule_edges, mem_removeFile] at mem
      refine resolveFrom_none (fun text none => ?_) _ (unmeant edge mem.1 outside mem.2)
      rw [registerModule_modules] at none ⊢
      by_cases own : modulePath path = some text
      · rw [if_pos own] at none
        cases none
      · rw [if_neg own] at none ⊢
        rw [DependencyGraph.removeFile, OrdMap.get_retain, none]
        rfl
    · exact Option.not_isSome_iff_eq_none.1 (by simpa using outside)

end Events

end SupraHarness.Digest
