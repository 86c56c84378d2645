import SupraHarness.Digest.Fresh

/-!
# Runs of events

A digest opened on a tree stands for the files the scan comes to. While events are waiting, it stands for
the tree at every path that none of them names; once they have all been applied, it answers as one opened
on the tree as it is then.
-/
namespace SupraHarness.Digest

open Str

section Open

variable {Δ : Type} (tools : Tools Δ) (tree : FileTree)

/-- What the full scan indexes. -/
def fresh (path : Path) : Option Bytes :=
  (scanned tree path).filter fun source => (parseFile tools path source).isSome

variable {tools tree}

theorem fresh_eq_some {path : Path} {source : Bytes} :
    fresh tools tree path = some source ↔
      scanned tree path = some source ∧ (parseFile tools path source).isSome := by
  rw [fresh, Option.filter_eq_some_iff]

theorem fileAt_of_scanned {path : Path} {source : Bytes} (h : scanned tree path = some source) :
    tree.fileAt path = some source := by
  unfold scanned at h
  split at h
  · exact h
  · cases h

theorem read_of_scanned {path : Path} {source : Bytes} (h : scanned tree path = some source) :
    tree.read path = some source := by
  rw [FileTree.read, FileTree.fileAt_eq_some.1 (fileAt_of_scanned h)]

/-- The scan looks at nothing but the path itself. -/
theorem fresh_congr {other : FileTree} {path : Path} (h : other.leaves.get path = tree.leaves.get path) :
    fresh tools other path = fresh tools tree path := by
  unfold fresh scanned FileTree.fileAt
  rw [h]

theorem fresh_absent {path : Path} (h : tree.leaves.get path = none) : fresh tools tree path = none := by
  cases found : fresh tools tree path with
  | none => rfl
  | some source =>
    have leaf := FileTree.fileAt_eq_some.1 (fileAt_of_scanned (fresh_eq_some.1 found).1)
    rw [h] at leaf
    cases leaf

@[simp] theorem recordFile_modules (graph : DependencyGraph) (path : Path) :
    (recordFile tree graph path).modules = graph.modules := by
  unfold recordFile
  split
  · rfl
  · split
    · rfl
    · exact recordImports_modules _ _ _

theorem mem_recordFile {graph : DependencyGraph} {path : Path} {edge : Edge} :
    edge ∈ (recordFile tree graph path).edgeList ↔ edge ∈ graph.edgeList ∨
      ∃ source, tree.read path = some source ∧ ∃ target ∈ targetsIn path source,
        edge = ⟨path, target, (graph.resolve target).isSome⟩ := by
  unfold recordFile targetsIn
  cases tree.read path with
  | none => simp
  | some source =>
    cases Language.detect path with
    | none => simp
    | some language =>
      dsimp only
      rw [mem_recordImports]
      simp

theorem recordFiles_modules (paths : List Path) (graph : DependencyGraph) :
    (paths.foldl (recordFile tree) graph).modules = graph.modules := by
  induction paths generalizing graph with
  | nil => rfl
  | cons path paths ih => rw [List.foldl_cons, ih, recordFile_modules]

theorem mem_recordFiles {paths : List Path} {graph : DependencyGraph} {edge : Edge} :
    edge ∈ (paths.foldl (recordFile tree) graph).edgeList ↔ edge ∈ graph.edgeList ∨
      ∃ path ∈ paths, ∃ source, tree.read path = some source ∧ ∃ target ∈ targetsIn path source,
        edge = ⟨path, target, (graph.resolve target).isSome⟩ := by
  induction paths generalizing graph with
  | nil => simp
  | cons path paths ih =>
    rw [List.foldl_cons, ih, mem_recordFile, List.exists_mem_cons_iff, or_assoc]
    simp only [resolve_congr (recordFile_modules graph path)]

/-- Files registered in their order: each module path holds the last of its files. -/
theorem registered_greatest {files : List Path} (sorted : files.Pairwise (· < ·)) (text : Text) (file : Path) :
    (files.foldl DependencyGraph.registerModule .new).modules.get text = some file ↔
      file ∈ files ∧ modulePath file = some text ∧ ∀ other ∈ files, modulePath other = some text → other ≤ file := by
  induction files using List.reverseRecOn with
  | nil => exact iff_of_false nofun fun both => nomatch both.1
  | append_singleton files last ih =>
    obtain ⟨sorted, -, above⟩ := List.pairwise_append.1 sorted
    have above : ∀ file ∈ files, file < last := fun file mem => above file mem last (List.mem_singleton_self last)
    rw [List.foldl_append, List.foldl_cons, List.foldl_nil, registerModule_modules]
    simp only [List.mem_append, List.mem_singleton]
    by_cases own : modulePath last = some text
    · rw [if_pos own, Option.some_inj]
      constructor
      · rintro rfl
        exact ⟨Or.inr rfl, own, fun other mem _ => mem.elim (fun mem => le_of_lt (above other mem)) le_of_eq⟩
      · rintro ⟨mem, -, greatest⟩
        rcases mem with mem | rfl
        · exact absurd (greatest last (Or.inr rfl) own) (not_le_of_gt (above file mem))
        · rfl
    · rw [if_neg own, ih sorted]
      constructor
      · rintro ⟨mem, own', greatest⟩
        refine ⟨Or.inl mem, own', fun other mem own'' => ?_⟩
        rcases mem with mem | rfl
        · exact greatest other mem own''
        · exact absurd own'' own
      · rintro ⟨mem, own', greatest⟩
        rcases mem with mem | rfl
        · exact ⟨mem, own', fun other mem own'' => greatest other (Or.inl mem) own''⟩
        · exact absurd own' own

/-- A digest opened on a tree is that of the files the scan comes to. -/
theorem openDigest_represents : Represents tools (fresh tools tree) (openDigest tools tree) := by
  have index (path : Path) :
      (openDigest tools tree).index.get path = (fresh tools tree path).bind (entryOf tools path) := by
    rw [openDigest, get_scanTree, fresh]
    cases scanned tree path with
    | none => rfl
    | some source => cases parsed : parseFile tools path source <;> simp [Option.filter, entryOf, parsed]
  have indexed (path : Path) :
      path ∈ SymbolIndex.indexedPaths (scanTree tools tree) ↔ (fresh tools tree path).isSome := by
    rw [SymbolIndex.indexedPaths, OrdMap.mem_keys]
    change ((openDigest tools tree).index.get path).isSome = true ↔ _
    rw [index]
    cases held : fresh tools tree path with
    | none => rfl
    | some source => simp [entryOf, (fresh_eq_some.1 held).2]
  have modules : (openDigest tools tree).graph.modules =
      ((SymbolIndex.indexedPaths (scanTree tools tree)).foldl DependencyGraph.registerModule .new).modules :=
    recordFiles_modules _ _
  have edges (edge : Edge) : edge ∈ (openDigest tools tree).graph.edgeList ↔
      ∃ source, fresh tools tree edge.importer = some source ∧ edge.target ∈ targetsIn edge.importer source ∧
        edge.internal = ((openDigest tools tree).graph.resolve edge.target).isSome := by
    simp only [resolve_congr modules]
    change edge ∈ (buildGraph tree (scanTree tools tree)).edgeList ↔ _
    rw [buildGraph, mem_recordFiles, edgeList_registered]
    constructor
    · rintro (none | ⟨path, mem, source, read, target, inside, rfl⟩)
      · cases none
      · obtain ⟨held, found⟩ := Option.isSome_iff_exists.1 ((indexed path).1 mem)
        rw [read_of_scanned (fresh_eq_some.1 found).1] at read
        cases read
        exact ⟨source, found, inside, rfl⟩
    · rintro ⟨source, found, inside, flag⟩
      refine Or.inr ⟨edge.importer, (indexed _).2 (by rw [found]; rfl), source,
        read_of_scanned (fresh_eq_some.1 found).1, edge.target, inside, ?_⟩
      rw [← flag]
  refine ⟨fun path source held => (fresh_eq_some.1 held).2, index, fun text file => ?_, fun importer target => ?_, ?_⟩
  · have ordered : (SymbolIndex.indexedPaths (scanTree tools tree)).Pairwise (· < ·) := OrdMap.sorted_keys _
    rw [modules, registered_greatest ordered, Greatest]
    simp only [indexed]
  · constructor
    · rintro ⟨internal, mem⟩
      obtain ⟨source, found, inside, -⟩ := (edges _).1 mem
      exact ⟨source, found, inside⟩
    · rintro ⟨source, found, inside⟩
      let internal := ((openDigest tools tree).graph.resolve target).isSome
      exact ⟨internal, (edges ⟨importer, target, internal⟩).2 ⟨source, found, inside, rfl⟩⟩
  · intro edge mem outside
    obtain ⟨source, -, -, flag⟩ := (edges edge).1 mem
    rw [outside] at flag
    exact Option.not_isSome_iff_eq_none.1 (by rw [← flag]; simp)

end Open

/-- One path of a queued event. -/
abbrev Notice := EventKind × Path

def Event.notices (event : Event) : List Notice := event.paths.map fun path => (event.kind, path)

def notices (queue : List Event) : List Notice := queue.flatMap Event.notices

/-- What the last of the notices of a path says of it. -/
def lastKind : List Notice → Path → Option EventKind
  | [], _ => none
  | notice :: pending, path =>
    (lastKind pending path).or (if notice.2 = path ∧ notice.1 ≠ .other then some notice.1 else none)

theorem lastKind_append (pending more : List Notice) (path : Path) :
    lastKind (pending ++ more) path = (lastKind more path).or (lastKind pending path) := by
  induction pending with
  | nil => simp [lastKind]
  | cons notice pending ih => rw [List.cons_append, lastKind, lastKind, ih, Option.or_assoc]

section Conditions

variable {Δ : Type} [DecidableEq Δ] (tools : Tools Δ) (tree : FileTree) (pending : List Notice) (digest : Indices Δ)

/-- The file is not indexed, or no other indexed file before it has its module path. -/
def Drops (path : Path) : Prop :=
  path ∈ SymbolIndex.indexedPaths digest.index → ∀ other ∈ rivals digest.index path, path < other

/-- No other indexed file after it has its module path, and none imports it as external. -/
def Keeps (path : Path) : Prop :=
  (∀ other ∈ rivals digest.index path, other < path) ∧
    ∀ edge ∈ digest.graph.edgeList, edge.internal = false → edge.importer ≠ path →
      (digest.graph.registerModule path).resolve edge.target = none

/-- The file that has been read is the one that a full scan comes to, unless it is named again. -/
def Eligible (path : Path) (source : Bytes) : Prop :=
  (lastKind pending path).isSome ∨ parseFile tools path source = none ∨ scanned tree path = some source

/-- What is there to be read of a created or modified path. A file that is gone was not indexed, or is
named again. -/
def FineRead (path : Path) : Prop :=
  match tree.read path with
  | none => path ∈ SymbolIndex.indexedPaths digest.index → (lastKind pending path).isSome
  | some source =>
    Eligible tools tree pending path source ∧
      (SymbolIndex.isCurrent tools digest.index path source = false →
        if (parseFile tools path source).isSome then Keeps digest path else Drops digest path)

/-- One notice, with those still waiting after it, finds the digest and the tree as it must. -/
def FineNotice : Notice → Prop
  | (.remove, path) => Drops digest path
  | (.create, path) | (.modify, path) => FineRead tools tree pending digest path
  | (.other, _) => True

/-- Every path of an event is fine when its turn comes. -/
def FineNotices : List Notice → Indices Δ → Prop
  | [], _ => True
  | notice :: notices, digest =>
    FineNotice tools tree (notices ++ pending) digest notice ∧
      FineNotices notices (applyPath tools tree notice.1 digest notice.2)

/-- What a step must find: only the application of an event asks for anything. -/
def Fine (state : Watched Δ) : Action → Prop
  | .change _ => True
  | .deliver =>
    match state.queue with
    | [] => True
    | event :: queue => FineNotices tools state.tree (notices queue) event.notices state.digest

instance decidableDrops (path : Path) : Decidable (Drops digest path) :=
  inferInstanceAs (Decidable (_ → ∀ other ∈ rivals digest.index path, path < other))

instance decidableKeeps (path : Path) : Decidable (Keeps digest path) :=
  inferInstanceAs (Decidable (_ ∧ ∀ edge ∈ digest.graph.edgeList, edge.internal = false → edge.importer ≠ path →
    (digest.graph.registerModule path).resolve edge.target = none))

instance decidableEligible (path : Path) (source : Bytes) : Decidable (Eligible tools tree pending path source) :=
  inferInstanceAs (Decidable (_ ∨ _ ∨ _))

instance decidableFineRead (path : Path) : Decidable (FineRead tools tree pending digest path) :=
  match h : tree.read path with
  | none => decidable_of_iff (path ∈ SymbolIndex.indexedPaths digest.index → (lastKind pending path).isSome)
      (by rw [FineRead, h])
  | some source => decidable_of_iff (Eligible tools tree pending path source ∧
      (SymbolIndex.isCurrent tools digest.index path source = false →
        if (parseFile tools path source).isSome then Keeps digest path else Drops digest path))
      (by rw [FineRead, h])

instance decidableFineNotice (notice : Notice) : Decidable (FineNotice tools tree pending digest notice) :=
  match notice with
  | (.remove, path) => decidableDrops digest path
  | (.create, path) => decidableFineRead tools tree pending digest path
  | (.modify, path) => decidableFineRead tools tree pending digest path
  | (.other, _) => isTrue trivial

instance decidableFineNotices : (front : List Notice) → (digest : Indices Δ) →
    Decidable (FineNotices tools tree pending front digest)
  | [], _ => isTrue trivial
  | notice :: front, digest =>
    have := decidableFineNotices front (applyPath tools tree notice.1 digest notice.2)
    inferInstanceAs (Decidable (FineNotice tools tree (front ++ pending) digest notice ∧ _))

instance decidableFine (state : Watched Δ) (action : Action) : Decidable (Fine tools state action) :=
  match action with
  | .change _ => isTrue trivial
  | .deliver =>
    match h : state.queue with
    | [] => isTrue (by rw [Fine, h]; trivial)
    | event :: queue =>
      decidable_of_iff (FineNotices tools state.tree (notices queue) event.notices state.digest) (by rw [Fine, h])

end Conditions

/-- The digest stands for the tree at every path that no notice names. -/
def Synced {Δ : Type} (tools : Tools Δ) (tree : FileTree) (pending : List Notice) (digest : Indices Δ) : Prop :=
  ∃ known, Represents tools known digest ∧
    (∀ path, lastKind pending path = none → known path = fresh tools tree path) ∧
    ∀ path, lastKind pending path = some .remove → tree.leaves.get path = none

section Steps

variable {Δ : Type} [DecidableEq Δ] {tools : Tools Δ} {tree : FileTree} {pending : List Notice} {digest : Indices Δ}

theorem Synced.removed {path : Path} (h : Synced tools tree ((.remove, path) :: pending) digest)
    (fine : Drops digest path) :
    Synced tools tree pending (applyPath tools tree .remove digest path) := by
  obtain ⟨known, held, quiet, gone⟩ := h
  refine ⟨Function.update known path none, held.drop fine, fun file last => ?_, fun file last => ?_⟩
  · by_cases same : file = path
    · subst same
      rw [Function.update_self, fresh_absent (gone file (by simp [lastKind, last]))]
    · rw [Function.update_of_ne same]
      exact quiet file (by simp [lastKind, last, Ne.symm same])
  · exact gone file (by simp [lastKind, last])

/-- A file read as it is in the index. -/
theorem Represents.current {known : Path → Option Bytes} (injective : Function.Injective tools.fingerprint)
    (h : Represents tools known digest) {path : Path} {source : Bytes}
    (current : SymbolIndex.isCurrent tools digest.index path source = true) : known path = some source := by
  rw [SymbolIndex.isCurrent, h.index, Option.any_eq_true] at current
  obtain ⟨entry, found, same⟩ := current
  obtain ⟨content, held, made⟩ := Option.bind_eq_some_iff.1 found
  obtain ⟨symbols, -, rfl⟩ := Option.map_eq_some_iff.1 made
  rw [decide_eq_true_iff] at same
  rw [held, injective same]

theorem Synced.reread {kind : EventKind} (injective : Function.Injective tools.fingerprint) {path : Path}
    (h : Synced tools tree ((kind, path) :: pending) digest)
    (fine : FineRead tools tree pending digest path) :
    Synced tools tree pending (applyPath tools tree .modify digest path) := by
  obtain ⟨known, held, quiet, gone⟩ := h
  have away {file : Path} (apart : file ≠ path) (last : lastKind pending file = none) :
      known file = fresh tools tree file := quiet file (by simp [lastKind, last, Ne.symm apart])
  have gone' (file : Path) (last : lastKind pending file = some .remove) : tree.leaves.get file = none :=
    gone file (by simp [lastKind, last])
  -- the contents known of this path, once they are those of a fresh scan or the path is named again
  have settle {value : Option Bytes} {after : Indices Δ}
      (represents : Represents tools (Function.update known path value) after)
      (same : lastKind pending path = none → value = fresh tools tree path) : Synced tools tree pending after := by
    refine ⟨_, represents, fun file last => ?_, gone'⟩
    by_cases eq : file = path
    · subst eq
      rw [Function.update_self, same last]
    · rw [Function.update_of_ne eq, away eq last]
  have unchanged (same : lastKind pending path = none → known path = fresh tools tree path) :
      Synced tools tree pending digest := by
    refine @settle (known path) digest ?_ same
    rwa [Function.update_eq_self]
  rw [FineRead] at fine
  rw [applyPath]
  cases read : tree.read path with
  | none =>
    rw [read] at fine
    refine unchanged fun last => ?_
    have absent : known path = none := by
      rw [← Option.not_isSome_iff_eq_none, ← held.mem_indexed]
      intro mem
      have named := fine mem
      rw [last] at named
      cases named
    cases found : fresh tools tree path with
    | none => exact absent
    | some source =>
      rw [read_of_scanned (fresh_eq_some.1 found).1] at read
      cases read
  | some source =>
    rw [read] at fine
    obtain ⟨eligible, fine⟩ := fine
    have taken (last : lastKind pending path = none) (parsed : (parseFile tools path source).isSome) :
        fresh tools tree path = some source := by
      rcases eligible with named | unparsed | taken
      · rw [last] at named
        cases named
      · rw [unparsed] at parsed
        cases parsed
      · exact fresh_eq_some.2 ⟨taken, parsed⟩
    dsimp only
    cases current : SymbolIndex.isCurrent tools digest.index path source with
    | true =>
      rw [if_pos rfl]
      have here := held.current injective current
      exact unchanged fun last => by rw [taken last (held.parsed path source here), here]
    | false =>
      rw [if_neg (by simp)]
      have fine := fine current
      cases parsed : parseFile tools path source with
      | none =>
        rw [parsed, if_neg (by simp)] at fine
        have unindexed : SymbolIndex.indexBytes tools digest.index path source =
            SymbolIndex.removeFile digest.index path := by
          rw [SymbolIndex.indexBytes, parsed]
        have absent : path ∉ SymbolIndex.indexedPaths (SymbolIndex.removeFile digest.index path) := by
          rw [SymbolIndex.indexedPaths, OrdMap.mem_keys, get_removeFile, if_pos rfl]
          rintro ⟨⟩
        rw [unindexed, if_neg absent]
        refine settle (held.drop fine) fun last => ?_
        cases found : fresh tools tree path with
        | none => rfl
        | some other =>
          obtain ⟨scan, clean⟩ := fresh_eq_some.1 found
          rw [read_of_scanned scan] at read
          cases read
          rw [parsed] at clean
          cases clean
      | some symbols =>
        have clean : (parseFile tools path source).isSome := by rw [parsed]; rfl
        rw [if_pos clean] at fine
        obtain ⟨language, detected, -⟩ := Option.bind_eq_some_iff.1 parsed
        have indexed : path ∈ SymbolIndex.indexedPaths (SymbolIndex.indexBytes tools digest.index path source) := by
          rw [SymbolIndex.indexedPaths, OrdMap.mem_keys, get_indexBytes, if_pos rfl, entryOf, parsed]
          rfl
        rw [if_pos indexed, detected]
        exact settle (held.keep clean detected fine.1 fine.2) fun last => (taken last clean).symm

/-- One notice brings the digest to the tree at its path. -/
theorem Synced.notice (injective : Function.Injective tools.fingerprint) {notice : Notice}
    (h : Synced tools tree (notice :: pending) digest) (fine : FineNotice tools tree pending digest notice) :
    Synced tools tree pending (applyPath tools tree notice.1 digest notice.2) := by
  obtain ⟨kind, path⟩ := notice
  cases kind with
  | create => exact h.reread injective fine
  | modify => exact h.reread injective fine
  | remove => exact h.removed fine
  | other =>
    obtain ⟨known, held, quiet, gone⟩ := h
    exact ⟨known, held, fun file last => quiet file (by simp [lastKind, last]),
      fun file last => gone file (by simp [lastKind, last])⟩

theorem Synced.notices (injective : Function.Injective tools.fingerprint) (front : List Notice)
    (h : Synced tools tree (front ++ pending) digest) (fine : FineNotices tools tree pending front digest) :
    Synced tools tree pending
      (front.foldl (fun digest notice => applyPath tools tree notice.1 digest notice.2) digest) := by
  induction front generalizing digest with
  | nil => exact h
  | cons notice front ih => exact ih (h.notice injective fine.1) fine.2

/-- A change of the tree is named by its events. -/
theorem change_named {change : Change} {after : FileTree} (h : tree.change change = some after) (path : Path) :
    (lastKind (notices (eventsOf tree change)) path = none → after.leaves.get path = tree.leaves.get path) ∧
      (lastKind (notices (eventsOf tree change)) path = some .remove → after.leaves.get path = none) := by
  cases change with
  | write target leaf =>
    rw [FileTree.get_put h]
    by_cases same : target = path
    · subst same
      cases held : (tree.leaves.get target).isSome <;> simp [notices, Event.notices, eventsOf, lastKind, held]
    · simp [notices, Event.notices, eventsOf, lastKind, same, Ne.symm same]
  | delete target =>
    rw [FileTree.change] at h
    split at h
    · cases h
      by_cases same : target = path
      · simp [notices, Event.notices, eventsOf, lastKind, same]
      · simp [notices, Event.notices, eventsOf, lastKind, same, Ne.symm same]
    · cases h
  | rename source target =>
    obtain ⟨leaf, -, h⟩ := Option.bind_eq_some_iff.1 h
    rw [FileTree.get_put h, FileTree.get_erase]
    by_cases same : target = path
    · simp [notices, Event.notices, eventsOf, lastKind, same]
    · by_cases same' : source = path
      · simp [notices, Event.notices, eventsOf, lastKind, same, same']
      · simp [notices, Event.notices, eventsOf, lastKind, same, same', Ne.symm same, Ne.symm same']
  | touch target =>
    cases h
    by_cases same : target = path <;> simp [notices, Event.notices, eventsOf, lastKind, same]
  | access target =>
    cases h
    simp [notices, Event.notices, eventsOf, lastKind]

omit [DecidableEq Δ] in
theorem Synced.change (h : Synced tools tree pending digest) {change : Change} {after : FileTree}
    (changed : tree.change change = some after) :
    Synced tools after (pending ++ SupraHarness.Digest.notices (eventsOf tree change)) digest := by
  obtain ⟨known, held, quiet, gone⟩ := h
  refine ⟨known, held, fun path last => ?_, fun path last => ?_⟩
  · rw [lastKind_append, Option.or_eq_none_iff] at last
    rw [quiet path last.2, fresh_congr ((change_named changed path).1 last.1)]
  · rw [lastKind_append, Option.or_eq_some_iff] at last
    rcases last with last | ⟨unnamed, last⟩
    · exact (change_named changed path).2 last
    · rw [(change_named changed path).1 unnamed, gone path last]

theorem notices_append (queue more : List Event) : notices (queue ++ more) = notices queue ++ notices more :=
  List.flatMap_append

/-- One step keeps the digest in step with the tree. -/
theorem synced_step (injective : Function.Injective tools.fingerprint) (state : Watched Δ) (action : Action)
    (next : Watched Δ) (h : Synced tools state.tree (notices state.queue) state.digest)
    (fine : Fine tools state action) (stepped : step tools state action = some next) :
    Synced tools next.tree (notices next.queue) next.digest := by
  cases action with
  | change change =>
    obtain ⟨tree, changed, rfl⟩ := Option.map_eq_some_iff.1 stepped
    rw [notices_append]
    exact h.change changed
  | deliver =>
    rw [step] at stepped
    rw [Fine] at fine
    split at stepped
    · cases stepped
    · rename_i event queue eq
      cases stepped
      rw [eq] at h fine
      have applied := Synced.notices injective event.notices h fine
      rwa [Event.notices, List.foldl_map] at applied

omit [DecidableEq Δ] in
theorem synced_opened (tree : FileTree) :
    Synced tools (opened tools tree).tree (notices (opened tools tree).queue) (opened tools tree).digest :=
  ⟨fresh tools tree, openDigest_represents, fun _ _ => rfl, fun _ last => nomatch last⟩

/-- Once every event has been applied, the digest answers as one opened on the tree. -/
theorem drained_answers (injective : Function.Injective tools.fingerprint) (tree : FileTree)
    (actions : List Action) (fine : ∀ t ∈ Run.trace (step tools) (opened tools tree) actions, Fine tools t.1 t.2.1)
    {state : Watched Δ} (ran : Run.run (step tools) (opened tools tree) actions = some state)
    (drained : state.queue = []) (query : Query) :
    state.digest.answer query = (openDigest tools state.tree).answer query := by
  have synced := Run.run_invariant_of (Fine tools) (synced_step injective) actions (synced_opened tree) fine ran
  rw [drained] at synced
  obtain ⟨known, held, quiet, -⟩ := synced
  have known : known = fresh tools state.tree := funext fun path => quiet path rfl
  exact (known ▸ held).answer_eq openDigest_represents query

end Steps

section Examples

/-- No declarations in any source, and the bytes as their own fingerprint. -/
def bare : Tools Bytes := ⟨fun _ _ _ => some [], id⟩

def bytes (text : String) : Bytes := text.toList.map fun c => UInt8.ofNat c.toNat

def importing : FileTree where
  leaves := OrdMap.empty.insert (names ["src", "a.rs"]) (.file (bytes "use crate::b;"))
  below := by decide
  apart := by decide

def settled : List Action :=
  [.change (.write (names ["src", "c.rs"]) (.file (bytes "use crate::a;"))), .deliver,
    .change (.write (names ["src", "a.rs"]) (.file [])), .change (.delete (names ["src", "a.rs"])), .deliver, .deliver]

theorem settled_answers : ∃ state, Run.run (step bare) (opened bare importing) settled = some state ∧
    ∀ query, state.digest.answer query = (openDigest bare state.tree).answer query := by
  have ran : (Run.run (step bare) (opened bare importing) settled).map Watched.queue = some [] := by
    decide +kernel
  have fine : ∀ t ∈ Run.trace (step bare) (opened bare importing) settled, Fine bare t.1 t.2.1 := by
    decide +kernel
  obtain ⟨state, ran, drained⟩ := Option.map_eq_some_iff.1 ran
  exact ⟨state, ran, drained_answers (fun _ _ same => same) importing settled fine ran drained⟩

def written : List Action :=
  [.change (.write (names ["src", "b.rs"]) (.file [])), .deliver]

/-- The import of a file that is written later stays external. -/
theorem written_stale :
    (Run.run (step bare) (opened bare importing) written).any (fun state =>
      state.queue = [] ∧ state.digest.answer (.blastRadius (names ["src", "b.rs"])) ≠
        (openDigest bare state.tree).answer (.blastRadius (names ["src", "b.rs"]))) = true := by
  decide +kernel

end Examples

end SupraHarness.Digest
