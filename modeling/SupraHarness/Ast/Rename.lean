import SupraHarness.Ast.Outline
import SupraHarness.Ast.Splice
import SupraHarness.Digest.Graph
import SupraHarness.Lib.Substitution

/-!
# Renames

A name replaced in every file that can see it: each identifier with that text is spliced behind the gate,
the last one first, so that the others stay where they were found. Either every file comes out whole or
none does.
-/
namespace SupraHarness.Ast

open Digest (Bytes DependencyGraph Language Path Text)

/-- One reference: a file that can see a name and mentions it. -/
structure Reference where
  file : Path
  /-- Byte offsets of the mentioning identifiers. -/
  occurrences : List Nat
  semantic : Bool

/-- An identifier with the name as its text. -/
def isMention (source : Bytes) (name : Text) (node : Node) : Bool :=
  decide (node.kind ∈ ["identifier", "type_identifier", "property_identifier"]) &&
    node.utf8Text source = some name

theorem sizes_reverse {α : Type} (trees : List (Rose α)) : Rose.sizes trees.reverse = Rose.sizes trees := by
  induction trees with
  | nil => rfl
  | cons tree trees ih => simp only [List.reverse_cons, Rose.sizes_append, ih, Rose.sizes]; omega

/-- The walk over the tree, the children of a node pushed in order and the last of them popped first. -/
def collect (source : Bytes) (name : Text) : List Node → List Nat
  | [] => []
  | node :: stack =>
    (if isMention source name node then [node.startByte] else []) ++
      collect source name (node.children.reverse ++ stack)
termination_by stack => Rose.sizes stack
decreasing_by
  have smaller := Rose.sizes_children node
  rw [Rose.sizes_append, sizes_reverse, Rose.sizes]
  omega

/-- Whether a file can name what the defining file defines. -/
def reachable (definingFile : Path) (graph : DependencyGraph) (path : Path) : Bool :=
  path = definingFile || (graph.dependents definingFile).any fun dependent => dependent = path

section Query
variable (grammars : Grammars) (name : Text) (definingFile : Path) (graph : DependencyGraph)

/-- What one candidate contributes. -/
def referenceOf (candidate : Path × Bytes) : Option Reference :=
  if !reachable definingFile graph candidate.1 then none
  else
    match Language.detect candidate.1 with
    | none => none
    | some language =>
      match grammars.parse language false candidate.2 with
      | .error _ => none
      | .ok root =>
        let occurrences := collect candidate.2 name [root]
        if occurrences = [] then none
        else some ⟨candidate.1, occurrences.insertionSort (· ≤ ·), false⟩

/-- Who refers to `name`, in path order. -/
def queryReferences (candidates : List (Path × Bytes)) : List Reference :=
  (candidates.filterMap (referenceOf grammars name definingFile graph)).insertionSort fun left right =>
    left.file ≤ right.file

end Query

/-- One file rewritten by a rename. -/
structure RenamedFile where
  file : Path
  bytes : Bytes
  rewritten : Nat

structure RenameOutcome where
  files : List RenamedFile
  semantic : Bool

section Rename
variable (grammars : Grammars) (fuel : Nat) (old new : Text)

/-- No touched file may declare the new name; the first that does, or has no outline, is reported. -/
def shadowCheck (candidates : OrdMap Path Bytes) : List Reference → Option (Except AstError Unit)
  | [] => some (.ok ())
  | reference :: references =>
    match candidates.get reference.file with
    | none => shadowCheck candidates references
    | some source =>
      (outline grammars fuel reference.file source).bind fun
        | .error _ =>
          some (.error (.gateRefused reference.file
            "the file does not parse cleanly; refusing to rename within guesses"))
        | .ok entries =>
          match entries.find? fun entry => entry.symbol.name = new with
          | some shadowed => some (.error (.wouldShadow reference.file old new shadowed.symbol.name))
          | none => shadowCheck candidates references

/-- Splice back to front: earlier offsets stay valid while later bytes move. -/
def renameFile (reference : Reference) (source : Bytes) : Except AstError RenamedFile := do
  let offsets := reference.occurrences.insertionSort (· ≥ ·)
  let bytes ← offsets.foldlM (fun bytes offset =>
    replaceNode grammars reference.file bytes offset (offset + (Utf8.encode old).length) new) source
  .ok ⟨reference.file, bytes, offsets.length⟩

def renameFiles (candidates : OrdMap Path Bytes) : List Reference → Except AstError (List RenamedFile)
  | [] => .ok []
  | reference :: references =>
    match candidates.get reference.file with
    | none => renameFiles candidates references
    | some source => do
      let file ← renameFile grammars old new reference source
      let files ← renameFiles candidates references
      .ok (file :: files)

/-- Rename `old` to `new` across the reachable candidates, if the outlines settle. -/
def rename (definingFile : Path) (graph : DependencyGraph) (candidates : OrdMap Path Bytes) :
    Option (Except AstError RenameOutcome) :=
  if old = [] ∨ new = [] ∨ old = new then some (.error (.nothingToRename definingFile old))
  else
    let references := queryReferences grammars old definingFile graph candidates.entries
    if references = [] then some (.error (.nothingToRename definingFile old))
    else
      (shadowCheck grammars fuel old new candidates references).map fun checked => do
        checked
        let files ← renameFiles grammars old new candidates references
        .ok ⟨files.insertionSort fun left right => left.file ≤ right.file, false⟩

end Rename

/-! ## What is renamed -/

section Spec
variable (grammars : Grammars) (old new : Text)

/-- The identifiers of a file with the name as their text. -/
def mentions (file : Path × Bytes) : List Node :=
  match Language.detect file.1 with
  | none => []
  | some language =>
    match grammars.parse language false file.2 with
    | .error _ => []
    | .ok root => root.nodes.filter (isMention file.2 old)

def rangeOf (node : Node) : Nat × Nat := (node.startByte, node.endByte)

/-- The files that can see the name and mention it, in path order. -/
def touched (definingFile : Path) (graph : DependencyGraph) (candidates : OrdMap Path Bytes) :
    List (Path × Bytes) :=
  candidates.entries.filter fun file =>
    reachable definingFile graph file.1 && !(mentions grammars old file).isEmpty

/-- A file with some of its mentions replaced, all at once. -/
def replaced (nodes : List Node) (source : Bytes) : Bytes :=
  Substitution.substitute (Utf8.encode new) (nodes.map rangeOf) source

/-- A file with every mention replaced. -/
def renamed (file : Path × Bytes) : RenamedFile where
  file := file.1
  bytes := replaced new (mentions grammars old file) file.2
  rewritten := (mentions grammars old file).length

/-- A file that has an outline, in which nothing has the new name. -/
def Unshadowed (fuel : Nat) (file : Path × Bytes) : Prop :=
  ∃ entries, outline grammars fuel file.1 file.2 = some (.ok entries) ∧ ∀ entry ∈ entries, entry.symbol.name ≠ new

/-- A file in which the gate lets each mention be replaced, after those behind it. -/
def LetThrough (file : Path × Bytes) : Prop :=
  ∀ node ∈ mentions grammars old file, ∃ bytes,
    replaceNode grammars file.1
      (replaced new ((mentions grammars old file).filter fun later => node.startByte < later.startByte) file.2)
      node.startByte node.endByte new = .ok bytes

end Spec

/-- The identifiers of every tree have spans apart from each other. -/
def Grammars.IdentifiersApart (grammars : Grammars) : Prop :=
  ∀ language variant source tree, grammars.parse language variant source = .ok tree →
    (tree.nodes.filter fun (node : Node) =>
      node.kind ∈ ["identifier", "type_identifier", "property_identifier"]).Pairwise
        fun left right => left.endByte ≤ right.startByte ∨ right.endByte ≤ left.startByte

/-! ## What the walk finds -/

theorem collect_perm (source : Bytes) (name : Text) (stack : List Node) :
    (collect source name stack).Perm
      (((Rose.nodesAll stack).filter (isMention source name)).map Node.startByte) := by
  induction size : Rose.sizes stack using Nat.strongRecOn generalizing stack with
  | ind n ih =>
    cases stack with
    | nil => rw [collect]; exact .nil
    | cons node stack =>
      have smaller := Rose.sizes_children node
      have rest := ih (Rose.sizes (node.children.reverse ++ stack))
        (by rw [← size, Rose.sizes_append, sizes_reverse, Rose.sizes]; omega) _ rfl
      have turned : (Rose.nodesAll (node.children.reverse ++ stack)).Perm
          (Rose.nodesAll node.children ++ Rose.nodesAll stack) := by
        rw [Rose.nodesAll_eq, Rose.nodesAll_eq, Rose.nodesAll_eq, List.flatMap_append]
        exact ((List.reverse_perm _).flatMap_right _).append_right _
      rw [collect, Rose.nodesAll, Rose.nodes_eq, List.cons_append, List.filter_cons]
      have below := rest.trans ((turned.filter _).map _)
      cases isMention source name node with
      | true => exact below.cons _
      | false => exact below

/-- The offsets of the mentions, in order. -/
def offsetsOf (nodes : List Node) : List Nat := (nodes.map Node.startByte).insertionSort (· ≤ ·)

def referenceTo (grammars : Grammars) (old : Text) (file : Path × Bytes) : Reference :=
  ⟨file.1, offsetsOf (mentions grammars old file), false⟩

section Query
variable (grammars : Grammars) (old : Text) (definingFile : Path) (graph : DependencyGraph)

theorem referenceOf_eq (file : Path × Bytes) :
    referenceOf grammars old definingFile graph file =
      if reachable definingFile graph file.1 && !(mentions grammars old file).isEmpty then
        some (referenceTo grammars old file)
      else none := by
  by_cases sees : reachable definingFile graph file.1 = true
  · rw [sees, Bool.true_and]
    cases detected : Language.detect file.1 with
    | none =>
      have nothing : mentions grammars old file = [] := by simp only [mentions, detected]
      simp [referenceOf, detected, nothing]
    | some language =>
      cases parsed : grammars.parse language false file.2 with
      | error failure =>
        have nothing : mentions grammars old file = [] := by simp only [mentions, detected, parsed]
        simp [referenceOf, detected, parsed, nothing]
      | ok root =>
        have here : mentions grammars old file = root.nodes.filter (isMention file.2 old) := by
          simp only [mentions, detected, parsed]
        have found := collect_perm file.2 old [root]
        rw [Rose.nodesAll, Rose.nodesAll, List.append_nil, ← here] at found
        simp only [referenceOf, sees, detected, parsed, Bool.not_true, Bool.false_eq_true, if_false]
        by_cases nothing : collect file.2 old [root] = []
        · rw [nothing] at found
          have empty := List.map_eq_nil_iff.1 found.nil_eq.symm
          rw [if_pos nothing, if_neg (by simp [empty])]
        · have some_ : mentions grammars old file ≠ [] := by
            intro empty
            rw [empty] at found
            exact nothing found.eq_nil
          rw [if_neg nothing, if_pos (by simpa using some_), referenceTo, offsetsOf]
          congr 2
          exact ((List.perm_insertionSort _ _).trans (found.trans (List.perm_insertionSort _ _).symm)).eq_of_pairwise
            (fun _ _ _ _ => le_antisymm) (List.pairwise_insertionSort _ _) (List.pairwise_insertionSort _ _)
  · simp [referenceOf, sees]

theorem filterMap_ite {α β : Type} (p : α → Bool) (f : α → β) (xs : List α) :
    xs.filterMap (fun x => if p x then some (f x) else none) = (xs.filter p).map f := by
  induction xs with
  | nil => rfl
  | cons x xs ih => cases holds : p x <;> simp [holds, ih]

theorem sorted_touched (candidates : OrdMap Path Bytes) :
    (touched grammars old definingFile graph candidates).Pairwise fun file next => file.1 < next.1 :=
  candidates.sorted.filter _

theorem queryReferences_eq (candidates : OrdMap Path Bytes) :
    queryReferences grammars old definingFile graph candidates.entries =
      (touched grammars old definingFile graph candidates).map (referenceTo grammars old) := by
  have found : candidates.entries.filterMap (referenceOf grammars old definingFile graph) =
      (touched grammars old definingFile graph candidates).map (referenceTo grammars old) := by
    rw [funext (referenceOf_eq grammars old definingFile graph), filterMap_ite, touched]
  rw [queryReferences, found]
  refine List.Pairwise.insertionSort_eq (List.pairwise_map.2 ?_)
  exact (sorted_touched grammars old definingFile graph candidates).imp fun less => by
    simpa [referenceTo] using less.le

end Query

/-! ## One file -/

section File
variable {grammars : Grammars} {old new : Text} {file : Path × Bytes}

theorem mem_mentions {node : Node} :
    node ∈ mentions grammars old file ↔ ∃ language root, Language.detect file.1 = some language ∧
      grammars.parse language false file.2 = .ok root ∧ node ∈ root.nodes ∧ isMention file.2 old node = true := by
  rw [mentions]
  cases Language.detect file.1 with
  | none => simp
  | some language =>
    dsimp only
    cases parsed : grammars.parse language false file.2 with
    | error failure => simp [parsed]
    | ok root => simp [parsed]

theorem mention_bounds (lawful : grammars.Lawful) {node : Node} (mem : node ∈ mentions grammars old file) :
    node.endByte = node.startByte + (Utf8.encode old).length ∧ node.endByte ≤ file.2.length := by
  obtain ⟨language, root, -, parsed, inside, mention⟩ := mem_mentions.1 mem
  obtain ⟨contained, nested⟩ := (lawful.nested parsed).of_mem_nodes inside
  have order : node.startByte ≤ node.endByte := nested.le
  have within : node.endByte ≤ file.2.length := contained.2.trans (lawful.within parsed)
  rw [isMention, Bool.and_eq_true, decide_eq_true_eq, decide_eq_true_eq] at mention
  have text := mention.2
  rw [Node.utf8Text] at text
  cases decoded : Str.fromUtf8 ((file.2.take node.endByte).drop node.startByte) with
  | error e => simp [decoded, Except.toOption] at text
  | ok cs =>
    rw [decoded] at text
    cases Option.some.inj text
    have length := congrArg List.length (Str.fromUtf8_eq_ok.1 decoded)
    rw [List.length_drop, List.length_take] at length
    omega

theorem mentions_apart (apart : grammars.IdentifiersApart) :
    (mentions grammars old file).Pairwise fun left right =>
      left.endByte ≤ right.startByte ∨ right.endByte ≤ left.startByte := by
  rw [mentions]
  cases Language.detect file.1 with
  | none => exact .nil
  | some language =>
    dsimp only
    cases parsed : grammars.parse language false file.2 with
    | error failure => exact .nil
    | ok root =>
      have identifiers : root.nodes.filter (isMention file.2 old) =
          (root.nodes.filter fun (node : Node) =>
            node.kind ∈ ["identifier", "type_identifier", "property_identifier"]).filter
              (isMention file.2 old) := by
        rw [List.filter_filter]
        refine List.filter_congr fun node _ => ?_
        rw [isMention]
        cases decide (node.kind ∈ ["identifier", "type_identifier", "property_identifier"]) <;> simp
      dsimp only
      rw [identifiers]
      exact (apart _ _ _ _ parsed).filter _

/-- The mentions as they are spliced: from the last to the first. -/
def backwards (nodes : List Node) : List Nat := (offsetsOf nodes).insertionSort (· ≥ ·)

theorem backwards_perm (nodes : List Node) : (backwards nodes).Perm (nodes.map Node.startByte) :=
  (List.perm_insertionSort _ _).trans (List.perm_insertionSort _ _)

/-- The range of the old name at an offset. -/
def rangeAt (old : Text) (offset : Nat) : Nat × Nat := (offset, offset + (Utf8.encode old).length)

theorem rangeOf_eq (lawful : grammars.Lawful) {node : Node} (mem : node ∈ mentions grammars old file) :
    rangeOf node = rangeAt old node.startByte := by
  rw [rangeOf, rangeAt, (mention_bounds lawful mem).1]

theorem backwards_apart (lawful : grammars.Lawful) (apart : grammars.IdentifiersApart) (nonempty : old ≠ [])
    (file : Path × Bytes) :
    (backwards (mentions grammars old file)).Pairwise fun offset next =>
      (rangeAt old next).2 ≤ (rangeAt old offset).1 := by
  have some_ : 0 < 0 + (Utf8.encode old).length := start_lt_iff.2 nonempty
  have ends : ∀ node ∈ mentions grammars old file, node.endByte = node.startByte + (Utf8.encode old).length :=
    fun node mem => (mention_bounds lawful mem).1
  have pairs : ((mentions grammars old file).map Node.startByte).Pairwise fun offset next =>
      offset + (Utf8.encode old).length ≤ next ∨ next + (Utf8.encode old).length ≤ offset := by
    rw [List.pairwise_map]
    refine (mentions_apart apart).imp_of_mem fun left right either => ?_
    rw [ends _ left, ends _ right] at either
    exact either
  have turned := ((backwards_perm _).pairwise_iff fun {x y} either => either.symm).2 pairs
  refine (turned.and (List.pairwise_insertionSort _ _)).imp fun {offset next} both => ?_
  have descending : next ≤ offset := both.2
  simp only [rangeAt]
  omega

/-- A fold of splices behind the gate comes through where each of them does, and is then that fold. -/
theorem foldlM_replaceNode (lawful : grammars.Lawful) {path : Path} {offsets : List Nat} {source bytes : Bytes} :
    offsets.foldlM (fun bytes offset =>
        replaceNode grammars path bytes offset (offset + (Utf8.encode old).length) new) source = .ok bytes ↔
      bytes = (offsets.map (rangeAt old)).foldl (Substitution.splice (Utf8.encode new)) source ∧
        ∀ done offset left, offsets = done ++ offset :: left → ∃ bytes,
          replaceNode grammars path ((done.map (rangeAt old)).foldl (Substitution.splice (Utf8.encode new)) source)
            offset (offset + (Utf8.encode old).length) new = .ok bytes := by
  induction offsets generalizing source with
  | nil =>
    rw [List.foldlM_nil]
    constructor
    · intro same
      exact ⟨(Except.ok.inj same).symm, fun done offset left split => by simp at split⟩
    · rintro ⟨rfl, -⟩
      rfl
  | cons first offsets ih =>
    rw [List.foldlM_cons, Results.bind_eq_ok, List.map_cons, List.foldl_cons]
    constructor
    · rintro ⟨spliced, ok, rest⟩
      have equal := ((replaceNode_eq_ok lawful).1 ok).1
      obtain ⟨result, through⟩ := ih.1 rest
      rw [equal] at result through
      refine ⟨result, fun done offset left split => ?_⟩
      cases done with
      | nil =>
        cases split
        exact ⟨spliced, ok⟩
      | cons before done =>
        obtain ⟨rfl, rest⟩ := List.cons.inj split
        exact through done offset left rest
    · rintro ⟨result, through⟩
      obtain ⟨spliced, ok⟩ := through [] first offsets rfl
      have equal := ((replaceNode_eq_ok lawful).1 ok).1
      refine ⟨spliced, ok, ih.2 ⟨equal ▸ result, fun done offset left split => ?_⟩⟩
      have later := through (first :: done) offset left (by rw [split]; rfl)
      rw [List.map_cons, List.foldl_cons] at later
      rw [equal]
      exact later

theorem mem_backwards (lawful : grammars.Lawful) {range : Nat × Nat} :
    range ∈ (backwards (mentions grammars old file)).map (rangeAt old) ↔
      range ∈ (mentions grammars old file).map rangeOf := by
  rw [((backwards_perm _).map _).mem_iff, List.map_map, List.mem_map, List.mem_map]
  constructor
  · rintro ⟨node, mem, rfl⟩
    exact ⟨node, mem, rangeOf_eq lawful mem⟩
  · rintro ⟨node, mem, rfl⟩
    exact ⟨node, mem, (rangeOf_eq lawful mem).symm⟩

/-- Splicing some of the mentions from the back replaces them at once. -/
theorem foldl_splice_backwards (lawful : grammars.Lawful) (apart : grammars.IdentifiersApart)
    (nonempty : old ≠ []) {done left : List Nat} (split : backwards (mentions grammars old file) = done ++ left)
    {nodes : List Node} (same : ∀ range, range ∈ done.map (rangeAt old) ↔ range ∈ nodes.map rangeOf) :
    (done.map (rangeAt old)).foldl (Substitution.splice (Utf8.encode new)) file.2 =
      replaced new nodes file.2 := by
  have ordered := backwards_apart lawful apart nonempty file
  rw [split, List.pairwise_append] at ordered
  have bounds : ∀ range ∈ done.map (rangeAt old), range.1 < range.2 ∧ range.2 ≤ file.2.length := by
    intro range mem
    obtain ⟨offset, here, rfl⟩ := List.mem_map.1 mem
    have inside : rangeAt old offset ∈ (mentions grammars old file).map rangeOf := by
      rw [← mem_backwards lawful, split]
      exact List.mem_map_of_mem (List.mem_append_left _ here)
    obtain ⟨node, mention, equal⟩ := List.mem_map.1 inside
    rw [← equal]
    refine ⟨?_, (mention_bounds lawful mention).2⟩
    rw [rangeOf_eq lawful mention]
    exact start_lt_iff.2 nonempty
  rw [Substitution.foldl_splice (fun range mem => (bounds range mem).1) (fun range mem => (bounds range mem).2)
    (List.pairwise_map.2 ordered.1), replaced, Substitution.substitute, Substitution.substitute,
    Substitution.cell_congr same]

/-- What has been spliced before a mention is what lies behind it. -/
theorem mem_done (lawful : grammars.Lawful) (apart : grammars.IdentifiersApart) (nonempty : old ≠ [])
    {done left : List Nat} {node : Node}
    (split : backwards (mentions grammars old file) = done ++ node.startByte :: left) (range : Nat × Nat) :
    range ∈ done.map (rangeAt old) ↔ range ∈ ((mentions grammars old file).filter fun later =>
      node.startByte < later.startByte).map rangeOf := by
  have ordered := backwards_apart lawful apart nonempty file
  have some_ : ∀ offset, offset < (rangeAt old offset).2 := fun offset => start_lt_iff.2 nonempty
  rw [split, List.pairwise_append, List.pairwise_cons] at ordered
  have all : ∀ offset, offset ∈ done ++ node.startByte :: left ↔
      ∃ mention ∈ mentions grammars old file, mention.startByte = offset := by
    intro offset
    rw [← split, (backwards_perm _).mem_iff, List.mem_map]
  rw [List.mem_map, List.mem_map]
  constructor
  · rintro ⟨offset, mem, rfl⟩
    obtain ⟨mention, here, rfl⟩ := (all offset).1 (List.mem_append_left _ mem)
    have behind : node.startByte < mention.startByte :=
      (some_ _).trans_le (ordered.2.2 _ mem node.startByte (by simp))
    exact ⟨mention, List.mem_filter.2 ⟨here, by simpa using behind⟩, rangeOf_eq lawful here⟩
  · rintro ⟨mention, mem, rfl⟩
    obtain ⟨here, behind⟩ := List.mem_filter.1 mem
    have later : node.startByte < mention.startByte := of_decide_eq_true behind
    refine ⟨mention.startByte, ?_, (rangeOf_eq lawful here).symm⟩
    rcases List.mem_append.1 ((all _).2 ⟨mention, here, rfl⟩) with before | after
    · exact before
    · rcases List.mem_cons.1 after with same | after
      · omega
      · have upTo : mention.startByte < node.startByte := (some_ _).trans_le (ordered.2.1.1 _ after)
        omega

/-- A file comes out exactly where the gate lets every mention through, and is then renamed at once. -/
theorem renameFile_eq_ok (lawful : grammars.Lawful) (apart : grammars.IdentifiersApart) (nonempty : old ≠ [])
    {result : RenamedFile} :
    renameFile grammars old new (referenceTo grammars old file) file.2 = .ok result ↔
      result = renamed grammars old new file ∧ LetThrough grammars old new file := by
  have whole : ((backwards (mentions grammars old file)).map (rangeAt old)).foldl
      (Substitution.splice (Utf8.encode new)) file.2 = replaced new (mentions grammars old file) file.2 :=
    foldl_splice_backwards lawful apart nonempty (List.append_nil _).symm fun _ => mem_backwards lawful
  have count : (backwards (mentions grammars old file)).length = (mentions grammars old file).length := by
    rw [(backwards_perm _).length_eq, List.length_map]
  have through : (∀ done offset left, backwards (mentions grammars old file) = done ++ offset :: left →
      ∃ bytes, replaceNode grammars file.1
        ((done.map (rangeAt old)).foldl (Substitution.splice (Utf8.encode new)) file.2)
        offset (offset + (Utf8.encode old).length) new = .ok bytes) ↔ LetThrough grammars old new file := by
    constructor
    · intro each node mem
      have inside : node.startByte ∈ backwards (mentions grammars old file) :=
        (backwards_perm _).mem_iff.2 (List.mem_map_of_mem mem)
      obtain ⟨done, left, split⟩ := List.append_of_mem inside
      obtain ⟨bytes, ok⟩ := each done _ left split
      rw [foldl_splice_backwards lawful apart nonempty split (mem_done lawful apart nonempty split)] at ok
      rw [(mention_bounds lawful mem).1]
      exact ⟨bytes, ok⟩
    · intro each done offset left split
      have inside : offset ∈ backwards (mentions grammars old file) := by
        rw [split]
        simp
      obtain ⟨node, mem, rfl⟩ := List.mem_map.1 ((backwards_perm _).mem_iff.1 inside)
      obtain ⟨bytes, ok⟩ := each node mem
      rw [(mention_bounds lawful mem).1] at ok
      rw [foldl_splice_backwards lawful apart nonempty split (mem_done lawful apart nonempty split)]
      exact ⟨bytes, ok⟩
  rw [renameFile, Results.bind_eq_ok]
  simp only [Except.ok.injEq]
  constructor
  · rintro ⟨bytes, ok, rfl⟩
    obtain ⟨equal, each⟩ := (foldlM_replaceNode lawful).1 ok
    refine ⟨?_, through.1 each⟩
    rw [renamed, equal]
    exact congr (congrArg (RenamedFile.mk file.1) whole) count
  · rintro ⟨rfl, each⟩
    refine ⟨_, (foldlM_replaceNode lawful).2 ⟨rfl, through.2 each⟩, ?_⟩
    rw [renamed]
    exact congr (congrArg (RenamedFile.mk file.1) whole) count

end File

/-! ## All files -/

section All
variable {grammars : Grammars} {old new : Text} {candidates : OrdMap Path Bytes}

theorem shadowCheck_eq_ok {fuel : Nat} {files : List (Path × Bytes)} (known : ∀ file ∈ files, file ∈ candidates.entries) :
    shadowCheck grammars fuel old new candidates (files.map (referenceTo grammars old)) = some (.ok ()) ↔
      ∀ file ∈ files, Unshadowed grammars new fuel file := by
  induction files with
  | nil => simp [shadowCheck]
  | cons file files ih =>
    have here : candidates.get file.1 = some file.2 := OrdMap.get_eq_some.2 (known file (by simp))
    have rest := ih fun other mem => known other (List.mem_cons_of_mem _ mem)
    rw [List.map_cons, shadowCheck, List.forall_mem_cons, ← rest]
    simp only [referenceTo, here, Unshadowed]
    cases outlined : outline grammars fuel file.1 file.2 with
    | none => simp
    | some result =>
      cases result with
      | error e => simp
      | ok entries =>
        simp only [Option.bind_some, Option.some.injEq, Except.ok.injEq, exists_eq_left']
        cases shadowed : entries.find? fun entry => entry.symbol.name = new with
        | none =>
          rw [List.find?_eq_none] at shadowed
          simp only [decide_eq_true_eq] at shadowed
          exact (and_iff_right shadowed).symm
        | some entry =>
          have same : entry.symbol.name = new := by simpa using List.find?_some shadowed
          constructor
          · intro ok
            cases ok
          · intro ⟨none_, _⟩
            exact absurd same (none_ entry (List.mem_of_find?_eq_some shadowed))

theorem renameFiles_eq_ok (lawful : grammars.Lawful) (apart : grammars.IdentifiersApart) (nonempty : old ≠ [])
    {files : List (Path × Bytes)} (known : ∀ file ∈ files, file ∈ candidates.entries)
    {results : List RenamedFile} :
    renameFiles grammars old new candidates (files.map (referenceTo grammars old)) = .ok results ↔
      results = files.map (renamed grammars old new) ∧ ∀ file ∈ files, LetThrough grammars old new file := by
  induction files generalizing results with
  | nil =>
    rw [List.map_nil, renameFiles]
    constructor
    · intro ok
      exact ⟨(Except.ok.inj ok).symm, by simp⟩
    · rintro ⟨rfl, -⟩
      rfl
  | cons file files ih =>
    have here : candidates.get (referenceTo grammars old file).file = some file.2 :=
      OrdMap.get_eq_some.2 (known file (by simp))
    rw [List.map_cons, renameFiles, here, List.forall_mem_cons, List.map_cons, Results.bind_eq_ok]
    simp only [Results.bind_eq_ok, Except.ok.injEq, renameFile_eq_ok lawful apart nonempty,
      ih fun other mem => known other (List.mem_cons_of_mem _ mem)]
    constructor
    · rintro ⟨_, ⟨rfl, through⟩, _, ⟨rfl, rest⟩, rfl⟩
      exact ⟨rfl, through, rest⟩
    · rintro ⟨rfl, through, rest⟩
      exact ⟨_, ⟨rfl, through⟩, _, ⟨rfl, rest⟩, rfl⟩

/-- What a rename asks of the files it touches. -/
structure Renames (grammars : Grammars) (fuel : Nat) (old new : Text) (files : List (Path × Bytes)) : Prop where
  names : old ≠ [] ∧ new ≠ [] ∧ old ≠ new
  some_ : files ≠ []
  unshadowed : ∀ file ∈ files, Unshadowed grammars new fuel file
  through : ∀ file ∈ files, LetThrough grammars old new file

/-- A rename succeeds exactly where nothing refuses any touched file, and returns then these files, each
with every mention replaced at once, in path order. -/
theorem rename_eq_ok_iff (lawful : grammars.Lawful) (apart : grammars.IdentifiersApart) (fuel : Nat)
    (old new : Text) (definingFile : Path) (graph : DependencyGraph) (candidates : OrdMap Path Bytes) :
    (∀ outcome, rename grammars fuel old new definingFile graph candidates = some (.ok outcome) ↔
      Renames grammars fuel old new (touched grammars old definingFile graph candidates) ∧
        outcome = ⟨(touched grammars old definingFile graph candidates).map (renamed grammars old new), false⟩) ∧
    ((touched grammars old definingFile graph candidates).map fun file => file.1).Pairwise (· < ·) := by
  have order := sorted_touched grammars old definingFile graph candidates
  refine ⟨fun outcome => ?_, List.pairwise_map.2 order⟩
  have known : ∀ file ∈ touched grammars old definingFile graph candidates, file ∈ candidates.entries :=
    fun file mem => (List.mem_filter.1 mem).1
  rw [rename]
  by_cases idle : old = [] ∨ new = [] ∨ old = new
  · rw [if_pos idle]
    constructor
    · intro ok
      cases ok
    · rintro ⟨renames, -⟩
      have names := renames.names
      tauto
  · have names : old ≠ [] ∧ new ≠ [] ∧ old ≠ new := by tauto
    rw [if_neg idle, queryReferences_eq]
    by_cases nothing : touched grammars old definingFile graph candidates = []
    · rw [nothing]
      constructor
      · intro ok
        cases ok
      · rintro ⟨renames, -⟩
        exact absurd rfl renames.some_
    · have sorted : ((touched grammars old definingFile graph candidates).map
          (renamed grammars old new)).insertionSort (fun left right => left.file ≤ right.file) =
            (touched grammars old definingFile graph candidates).map (renamed grammars old new) := by
        refine List.Pairwise.insertionSort_eq (List.pairwise_map.2 ?_)
        exact order.imp fun less => less.le
      dsimp only
      rw [if_neg (by simpa using nothing), Option.map_eq_some_iff]
      constructor
      · rintro ⟨checked, check, ok⟩
        obtain ⟨_, rfl, rest⟩ := Results.bind_eq_ok.1 ok
        obtain ⟨results, files, result⟩ := Results.bind_eq_ok.1 rest
        obtain ⟨rfl, through⟩ := (renameFiles_eq_ok lawful apart names.1 known).1 files
        rw [sorted] at result
        exact ⟨⟨names, nothing, (shadowCheck_eq_ok known).1 check, through⟩, (Except.ok.inj result).symm⟩
      · rintro ⟨renames, rfl⟩
        refine ⟨_, (shadowCheck_eq_ok known).2 renames.unshadowed, ?_⟩
        refine Results.bind_eq_ok.2 ⟨(), rfl, Results.bind_eq_ok.2 ⟨_,
          (renameFiles_eq_ok lawful apart names.1 known).2 ⟨rfl, renames.through⟩, ?_⟩⟩
        rw [sorted]

end All

/-! ## Two mentions in one file -/

/-- A call of a name of some length on another name, as `f(f)` is parsed. -/
def callTree (function argument : Nat) : Node :=
  .node ⟨⟨"program", none, 0, function + argument + 2, 0⟩, false⟩
    [.node ⟨⟨"expression_statement", none, 0, function + argument + 2, 0⟩, false⟩
      [.node ⟨⟨"call_expression", none, 0, function + argument + 2, 0⟩, false⟩
        [leaf "identifier" 0 function,
         .node ⟨⟨"arguments", some "arguments", function, function + argument + 2, 0⟩, false⟩
          [leaf "(" function (function + 1), leaf "identifier" (function + 1) (function + 1 + argument),
           leaf ")" (function + 1 + argument) (function + argument + 2)]]]]

/-- A parser that knows three calls. -/
def callGrammars : Grammars where
  parse _ _ source :=
    if source = Utf8.encode "f(f)".toList then .ok (callTree 1 1)
    else if source = Utf8.encode "f(go)".toList then .ok (callTree 1 2)
    else if source = Utf8.encode "go(go)".toList then .ok (callTree 2 2)
    else .error .noTree

theorem callGrammars_cases {language : Language} {variant : Bool} {source : Bytes} {tree : Node}
    (parsed : callGrammars.parse language variant source = .ok tree) :
    ∃ function argument, 0 < function ∧ 0 < argument ∧ tree = callTree function argument ∧
      source.length = function + argument + 2 := by
  rw [callGrammars] at parsed
  dsimp only at parsed
  split_ifs at parsed with first second third
  · exact ⟨1, 1, by omega, by omega, (Except.ok.inj parsed).symm, by rw [first]; decide⟩
  · exact ⟨1, 2, by omega, by omega, (Except.ok.inj parsed).symm, by rw [second]; decide⟩
  · exact ⟨2, 2, by omega, by omega, (Except.ok.inj parsed).symm, by rw [third]; decide⟩

theorem callGrammars_lawful : callGrammars.Lawful where
  nested := by
    intro language variant source tree parsed
    obtain ⟨function, argument, -, -, rfl, -⟩ := callGrammars_cases parsed
    simp [callTree, leaf, Spans.WellNested, Spans.Between, Rose.label]
    omega
  within := by
    intro language variant source tree parsed
    obtain ⟨function, argument, -, -, rfl, length⟩ := callGrammars_cases parsed
    exact length.ge

theorem callGrammars_apart : callGrammars.IdentifiersApart := by
  intro language variant source tree parsed
  obtain ⟨function, argument, -, -, rfl, -⟩ := callGrammars_cases parsed
  simp [callTree, leaf, Rose.nodes, Rose.nodesAll, Node.kind, Rose.label, Node.startByte, Node.endByte]

def callFile : Path × Bytes := (["a.js".toList], Utf8.encode "f(f)".toList)

def calls : OrdMap Path Bytes := ⟨[callFile], List.pairwise_singleton _ _⟩

theorem touched_calls :
    touched callGrammars "f".toList callFile.1 DependencyGraph.new calls = [callFile] := by decide

theorem mentions_callFile :
    mentions callGrammars "f".toList callFile = [leaf "identifier" 0 1, leaf "identifier" 2 3] := by rfl

theorem outline_callFile : outline callGrammars 1 callFile.1 callFile.2 = some (.ok []) := by
  have nothing : Digest.harvest callFile.1 .javaScript callFile.2 (callTree 1 1).forHarvest = [] := by
    rw [Digest.harvest, Rose.walk_eq]
    have none_ : Rose.descend (Digest.visit callFile.1 .javaScript callFile.2) [] none
        (callTree 1 1).forHarvest = [] := by decide
    rw [List.foldl_cons, List.foldl_nil, none_, List.mergeSort_nil]
  have parsed : parseFile callGrammars callFile.1 callFile.2 = .ok (.clean []) := by
    rw [← nothing]
    rfl
  rw [outline, parsed]
  rfl

theorem calls_let_through : LetThrough callGrammars "f".toList "go".toList callFile := by
  intro node mem
  rw [mentions_callFile] at mem
  rcases List.mem_cons.1 mem with rfl | mem
  · refine ⟨_, (replaceNode_eq_ok callGrammars_lawful).2 ⟨rfl, callTree 1 2, callTree 2 2, leaf "identifier" 0 1,
      leaf "identifier" 0 2, ?_⟩⟩
    exact ⟨⟨.javaScript, by decide, by rfl, by rfl⟩, by decide, by decide, by decide, by rfl, by rfl, rfl⟩
  · rw [List.mem_singleton.1 mem]
    refine ⟨_, (replaceNode_eq_ok callGrammars_lawful).2 ⟨rfl, callTree 1 1, callTree 1 2, leaf "identifier" 2 3,
      leaf "identifier" 2 4, ?_⟩⟩
    exact ⟨⟨.javaScript, by decide, by rfl, by rfl⟩, by decide, by decide, by decide, by rfl, by rfl, rfl⟩

/-- Both mentions come out longer. -/
theorem rename_calls :
    rename callGrammars 1 "f".toList "go".toList callFile.1 DependencyGraph.new calls =
      some (.ok ⟨[⟨callFile.1, Utf8.encode "go(go)".toList, 2⟩], false⟩) := by
  have whole := rename_eq_ok_iff callGrammars_lawful callGrammars_apart 1 "f".toList "go".toList callFile.1
    DependencyGraph.new calls
  rw [touched_calls] at whole
  refine (whole.1 _).2 ⟨⟨by decide, by simp, ?_, ?_⟩, by rfl⟩
  · rw [List.forall_mem_singleton]
    exact ⟨[], outline_callFile, by simp⟩
  · rw [List.forall_mem_singleton]
    exact calls_let_through

end SupraHarness.Ast
