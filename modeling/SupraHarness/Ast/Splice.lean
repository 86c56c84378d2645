import SupraHarness.Ast.Outline
import SupraHarness.Lib.Results

/-!
# Splices

A node of a file replaced by a text, behind a gate: the range is that of a node, the result parses without
an error, and what stands in the range is of the same kind as before. The search for the node goes down
from the root and stops at the first one with the range as its span, which need not be the only one: a
file with one item in it spans what the item spans.
-/
namespace SupraHarness.Ast

open Digest (Bytes Language Path Text)

/-- The node whose span is exactly `start..stop`, found by going down while one child contains it. -/
def findExact (start stop : Nat) (current : Node) : Option Node :=
  if start = stop then none
  else if current.startByte = start ∧ current.endByte = stop then some current
  else
    match containing : current.children.filter fun (child : Node) =>
      child.startByte ≤ start ∧ child.endByte ≥ stop with
    | [child] => findExact start stop child
    | _ => none
termination_by current.size
decreasing_by
  have mem := List.mem_singleton_self child
  rw [← containing] at mem
  exact Rose.size_lt_of_mem_children (List.mem_filter.1 mem).1

/-- The bytes with the range replaced. -/
def spliceBytes (source : Bytes) (start stop : Nat) (replacement : Text) : Bytes :=
  source.take start ++ Utf8.encode replacement ++ source.drop stop

section Replace
variable (grammars : Grammars) (path : Path) (source : Bytes) (start stop : Nat) (replacement : Text)

/-- The kind of the node in the range, in a file without errors. -/
def kindBefore (language : Language) : Except AstError String := do
  let root ← parseClean grammars path source language
  match findExact start stop root with
  | none => .error (.rangeIsNotANode path start stop)
  | some node =>
    if hasError root then .error (.hasErrors path "the source contains error nodes") else .ok node.kind

/-- An error of the parser is the gate's refusal, after the splice. -/
def refusedByGate : AstError → AstError
  | .hasErrors _ detail => .gateRefused path detail
  | other => other

/-- Replace the node at `start..stop`, gated. -/
def replaceNode : Except AstError Bytes :=
  match Language.detect path with
  | none => .error (.unsupportedLanguage path (Digest.extension path))
  | some language =>
    if start ≥ stop ∨ stop > source.length then .error (.rangeIsNotANode path start stop)
    else do
      let before ← kindBefore grammars path source start stop language
      let spliced := spliceBytes source start stop replacement
      let after ← (parseClean grammars path spliced language).mapError (refusedByGate path)
      if hasError after then .error (.gateRefused path "the spliced result contains error nodes")
      else
        let replacementEnd := start + (Utf8.encode replacement).length
        match findExact start replacementEnd after with
        | none =>
          .error (.gateRefused path s!"bytes {start}..{replacementEnd} address no single node after the splice")
        | some node =>
          let kind := node.kind
          if kind ≠ before then
            .error (.gateRefused path
              s!"node kind changed from {before} to {kind}; cross-kind replacement is delete plus insert, not a splice")
          else .ok spliced

end Replace

/-! ## What the gate lets through -/

/-- A node with the range as its span. -/
abbrev HasSpan (start stop : Nat) (node : Node) : Prop :=
  Spans.Has (fun data : NodeData => data.startByte) (fun data => data.endByte) start stop node

abbrev Nested (node : Node) : Prop :=
  Spans.WellNested (fun data : NodeData => data.startByte) (fun data => data.endByte) node

theorem findExact_eq {start stop : Nat} (nonempty : start < stop) {root : Node} (nested : Nested root) :
    findExact start stop root = root.nodes.find? fun node => HasSpan start stop node := by
  induction size : root.size using Nat.strongRecOn generalizing root with
  | ind n ih =>
    rw [findExact, if_neg nonempty.ne, Spans.find?_nodes nested]
    by_cases has : HasSpan start stop root
    · rw [if_pos has]
      exact if_pos has
    · rw [if_neg has]
      refine (if_neg has).trans ?_
      rcases nested.between.containing nonempty with outside | ⟨child, mem, one⟩
      · rw [outside]
        split
        · rename_i child containing
          exact absurd (containing.symm.trans outside) (by simp)
        · rfl
      · rw [one, List.findSome?_singleton, ← ih _ (size ▸ Rose.size_lt_of_mem_children mem)
          (nested.between.of_mem mem).2.2 rfl]
        split
        · rename_i other containing
          rw [List.singleton_inj.1 (containing.symm.trans one)]
        · rename_i other
          exact absurd one (other child)

theorem parseClean_eq_ok {grammars : Grammars} {path : Path} {source : Bytes} {language : Language}
    {tree : Node} :
    parseClean grammars path source language = .ok tree ↔ grammars.parse language false source = .ok tree := by
  rw [parseClean]
  cases grammars.parse language false source with
  | ok found => simp
  | error failure => cases failure <;> simp

theorem mapError_eq_ok {ε ε' α : Type} {f : ε → ε'} {result : Except ε α} {value : α} :
    result.mapError f = .ok value ↔ result = .ok value := by
  cases result <;> simp [Except.mapError]

section Replace
variable {grammars : Grammars} {path : Path} {source : Bytes} {start stop : Nat} {replacement : Text}

theorem kindBefore_eq_ok {language : Language} {kind : String} :
    kindBefore grammars path source start stop language = .ok kind ↔
      ∃ root node, grammars.parse language false source = .ok root ∧ hasError root = false ∧
        findExact start stop root = some node ∧ node.kind = kind := by
  rw [kindBefore, Results.bind_eq_ok]
  simp only [parseClean_eq_ok]
  constructor
  · rintro ⟨root, parsed, rest⟩
    cases found : findExact start stop root with
    | none => simp [found] at rest
    | some node =>
      cases broken : hasError root with
      | true => simp [found, broken] at rest
      | false =>
        simp only [found, broken, Bool.false_eq_true, if_false, Except.ok.injEq] at rest
        exact ⟨root, node, parsed, broken, found, rest⟩
  · rintro ⟨root, node, parsed, clean, found, rfl⟩
    exact ⟨root, parsed, by simp [found, clean]⟩

/-- The outermost node with the range as its span. -/
def outermost (start stop : Nat) (root : Node) : Option Node :=
  root.nodes.find? fun node => HasSpan start stop node

/-- What a splice that is let through has passed: the two trees and the outermost nodes with the ranges as
their spans. -/
structure Passes (grammars : Grammars) (path : Path) (source : Bytes) (start stop : Nat) (replacement : Text)
    (root after node node' : Node) : Prop where
  parsed : ∃ language, Language.detect path = some language ∧
    grammars.parse language false source = .ok root ∧
    grammars.parse language false (spliceBytes source start stop replacement) = .ok after
  range : start < stop ∧ stop ≤ source.length
  filled : replacement ≠ []
  clean : hasError root = false ∧ hasError after = false
  before : outermost start stop root = some node
  now : outermost start (start + (Utf8.encode replacement).length) after = some node'
  kind : node'.kind = node.kind

theorem start_lt_iff : start < start + (Utf8.encode replacement).length ↔ replacement ≠ [] := by
  rw [Nat.lt_add_right_iff_pos, List.length_pos_iff]
  cases replacement with
  | nil => simp [Utf8.encode]
  | cons c text => simp [Utf8.encode, Utf8.utf8EncodeChar_ne_nil]

theorem filled_of_findExact {root node : Node}
    (found : findExact start (start + (Utf8.encode replacement).length) root = some node) : replacement ≠ [] := by
  rintro rfl
  rw [findExact, if_pos (by simp [Utf8.encode])] at found
  cases found

theorem replaceNode_eq_ok (lawful : grammars.Lawful) {bytes : Bytes} :
    replaceNode grammars path source start stop replacement = .ok bytes ↔
      bytes = spliceBytes source start stop replacement ∧
        ∃ root after node node', Passes grammars path source start stop replacement root after node node' := by
  rw [replaceNode]
  cases detected : Language.detect path with
  | none =>
    constructor
    · intro ok
      cases ok
    · rintro ⟨-, _, _, _, _, passes⟩
      obtain ⟨language, here, -⟩ := passes.parsed
      rw [detected] at here
      cases here
  | some language =>
    dsimp only
    by_cases outside : start ≥ stop ∨ stop > source.length
    · rw [if_pos outside]
      constructor
      · intro ok
        cases ok
      · rintro ⟨-, _, _, _, _, passes⟩
        have range := passes.range
        omega
    · have nonempty : start < stop := by omega
      rw [if_neg outside, Results.bind_eq_ok]
      constructor
      · rintro ⟨kind, before, rest⟩
        obtain ⟨root, node, parsed, clean, found, rfl⟩ := kindBefore_eq_ok.1 before
        obtain ⟨after, parsed', rest⟩ := Results.bind_eq_ok.1 rest
        rw [mapError_eq_ok, parseClean_eq_ok] at parsed'
        split_ifs at rest with broken
        split at rest
        · cases rest
        · rename_i node' found'
          have filled := filled_of_findExact found'
          rw [findExact_eq nonempty (lawful.nested parsed)] at found
          rw [findExact_eq (start_lt_iff.2 filled) (lawful.nested parsed')] at found'
          split_ifs at rest with differs
          refine ⟨(Except.ok.inj rest).symm, root, after, node, node', ?_⟩
          exact ⟨⟨language, detected, parsed, parsed'⟩, by omega, filled, ⟨clean, by simpa using broken⟩, found,
            found', not_not.1 differs⟩
      · rintro ⟨rfl, root, after, node, node', passes⟩
        obtain ⟨_, here, parsed, parsed'⟩ := passes.parsed
        cases detected.symm.trans here
        have found := (findExact_eq nonempty (lawful.nested parsed)).trans passes.before
        have found' := (findExact_eq (start_lt_iff.2 passes.filled) (lawful.nested parsed')).trans passes.now
        refine ⟨node.kind, kindBefore_eq_ok.2 ⟨root, node, parsed, passes.clean.1, found, rfl⟩, ?_⟩
        refine Results.bind_eq_ok.2 ⟨after, mapError_eq_ok.2 (parseClean_eq_ok.2 parsed'), ?_⟩
        rw [if_neg (by simp [passes.clean.2]), found']
        exact if_neg (by simp [passes.kind])

/-- What a splice is documented to do: the range and the replacement's range are each the span of exactly
one node, both of one kind, in trees without an error, and only the range is replaced. -/
def Certified (grammars : Grammars) (path : Path) (source : Bytes) (start stop : Nat) (replacement : Text)
    (bytes : Bytes) : Prop :=
  bytes = source.take start ++ Utf8.encode replacement ++ source.drop stop ∧
    ∃ language root after node node', Language.detect path = some language ∧
      grammars.parse language false source = .ok root ∧ grammars.parse language false bytes = .ok after ∧
      (root.nodes.filter fun inner => HasSpan start stop inner) = [node] ∧
      (after.nodes.filter fun inner => HasSpan start (start + (Utf8.encode replacement).length) inner) = [node'] ∧
      node'.kind = node.kind ∧ (∀ inner ∈ root.nodes, isError inner = false) ∧
      ∀ inner ∈ after.nodes, isError inner = false

theorem hasError_eq_false {root : Node} : hasError root = false ↔ ∀ inner ∈ root.nodes, isError inner = false := by
  rw [hasError_eq_any, List.any_eq_false]
  simp only [Bool.not_eq_true]

/-- Whatever passes the gate is certified exactly where the outermost nodes in the two ranges have no
child with the same span. -/
theorem certified_iff (lawful : grammars.Lawful) :
    (∀ bytes, replaceNode grammars path source start stop replacement = .ok bytes →
      Certified grammars path source start stop replacement bytes) ↔
    ∀ root after node node', Passes grammars path source start stop replacement root after node node' →
      (∀ child ∈ node.children, ¬ HasSpan start stop child) ∧
        ∀ child ∈ node'.children, ¬ HasSpan start (start + (Utf8.encode replacement).length) child := by
  constructor
  · intro certified root after node node' passes
    obtain ⟨-, _, root', after', first, first', here, parsed, parsed', one, one', -⟩ :=
      certified _ ((replaceNode_eq_ok lawful).2 ⟨rfl, root, after, node, node', passes⟩)
    obtain ⟨_, detected, known, known'⟩ := passes.parsed
    cases detected.symm.trans here
    cases known.symm.trans parsed
    cases known'.symm.trans parsed'
    rw [Spans.filter_nodes_eq_singleton (lawful.nested parsed) passes.range.1] at one
    rw [Spans.filter_nodes_eq_singleton (lawful.nested parsed') (start_lt_iff.2 passes.filled)] at one'
    cases passes.before.symm.trans one.1
    cases passes.now.symm.trans one'.1
    exact ⟨one.2, one'.2⟩
  · intro alone bytes ok
    obtain ⟨rfl, root, after, node, node', passes⟩ := (replaceNode_eq_ok lawful).1 ok
    obtain ⟨here, there⟩ := alone root after node node' passes
    obtain ⟨language, detected, parsed, parsed'⟩ := passes.parsed
    refine ⟨rfl, language, root, after, node, node', detected, parsed, parsed', ?_, ?_, passes.kind,
      hasError_eq_false.1 passes.clean.1, hasError_eq_false.1 passes.clean.2⟩
    · exact (Spans.filter_nodes_eq_singleton (lawful.nested parsed) passes.range.1 node).2 ⟨passes.before, here⟩
    · exact (Spans.filter_nodes_eq_singleton (lawful.nested parsed') (start_lt_iff.2 passes.filled) node').2
        ⟨passes.now, there⟩

end Replace

/-! ## A file that is one item -/

/-- A token, or a node without children. -/
def leaf (kind : String) (start stop : Nat) : Node := .node ⟨⟨kind, none, start, stop, 0⟩, false⟩ []

def functionSource : Bytes := Utf8.encode "fn f() \x7b\x7d".toList

def functionTree : Node :=
  .node ⟨⟨"source_file", none, 0, 9, 0⟩, false⟩
    [.node ⟨⟨"function_item", none, 0, 9, 0⟩, false⟩
      [leaf "fn" 0 2, leaf "identifier" 3 4,
       .node ⟨⟨"parameters", some "parameters", 4, 6, 0⟩, false⟩ [leaf "(" 4 5, leaf ")" 5 6],
       .node ⟨⟨"block", some "body", 7, 9, 0⟩, false⟩ [leaf "\x7b" 7 8, leaf "\x7d" 8 9]]]

def structTree : Node :=
  .node ⟨⟨"source_file", none, 0, 9, 0⟩, false⟩
    [.node ⟨⟨"struct_item", none, 0, 9, 0⟩, false⟩
      [leaf "struct" 0 6, leaf "type_identifier" 7 8, leaf ";" 8 9]]

/-- A parser that knows two files. -/
def itemGrammars : Grammars where
  parse _ _ source :=
    if source = functionSource then .ok functionTree
    else if source = Utf8.encode "struct S;".toList then .ok structTree
    else .error .noTree

theorem itemGrammars_cases {language : Language} {variant : Bool} {source : Bytes} {tree : Node}
    (parsed : itemGrammars.parse language variant source = .ok tree) :
    source.length = 9 ∧ (tree = functionTree ∨ tree = structTree) := by
  rw [itemGrammars] at parsed
  dsimp only at parsed
  split_ifs at parsed with function struct
  · exact ⟨by rw [function]; decide, .inl (Except.ok.inj parsed).symm⟩
  · exact ⟨by rw [struct]; decide, .inr (Except.ok.inj parsed).symm⟩

theorem itemGrammars_lawful : itemGrammars.Lawful where
  nested := by
    intro language variant source tree parsed
    rcases (itemGrammars_cases parsed).2 with rfl | rfl
    · simp [functionTree, leaf, Spans.WellNested, Spans.Between, Rose.label]
    · simp [structTree, leaf, Spans.WellNested, Spans.Between, Rose.label]
  within := by
    intro language variant source tree parsed
    obtain ⟨length, rfl | rfl⟩ := itemGrammars_cases parsed
    · exact length.ge
    · exact length.ge

/-- The name of the function, replaced by itself. -/
theorem passes_itself :
    Passes itemGrammars ["a.rs".toList] functionSource 3 4 "f".toList functionTree functionTree
      (leaf "identifier" 3 4) (leaf "identifier" 3 4) where
  parsed := ⟨.rust, by decide, by rfl, by rfl⟩
  range := by decide
  filled := by decide
  clean := by decide
  before := by rfl
  now := by rfl
  kind := rfl

theorem certified_name :
    ∃ bytes, replaceNode itemGrammars ["a.rs".toList] functionSource 3 4 "f".toList = .ok bytes ∧
      Certified itemGrammars ["a.rs".toList] functionSource 3 4 "f".toList bytes := by
  have ok := (replaceNode_eq_ok itemGrammars_lawful).2 ⟨rfl, _, _, _, _, passes_itself⟩
  refine ⟨_, ok, (certified_iff itemGrammars_lawful).2 ?_ _ ok⟩
  intro root after node node' passes
  obtain ⟨_, detected, parsed, parsed'⟩ := passes.parsed
  obtain ⟨_, detected', known, known'⟩ := passes_itself.parsed
  cases detected'.symm.trans detected
  cases known.symm.trans parsed
  cases known'.symm.trans parsed'
  cases passes_itself.before.symm.trans passes.before
  cases passes_itself.now.symm.trans passes.now
  simp [leaf, Rose.children]

/-- The file spans what its only item spans: a function is replaced by a `struct`, as one file by another. -/
theorem replaces_item_by_another_kind :
    itemGrammars.Lawful ∧
      replaceNode itemGrammars ["a.rs".toList] functionSource 0 9 "struct S;".toList =
        .ok (Utf8.encode "struct S;".toList) ∧
      ¬ Certified itemGrammars ["a.rs".toList] functionSource 0 9 "struct S;".toList
        (Utf8.encode "struct S;".toList) := by
  refine ⟨itemGrammars_lawful, ?_, ?_⟩
  · refine (replaceNode_eq_ok itemGrammars_lawful).2 ⟨by decide, functionTree, structTree, functionTree, structTree, ?_⟩
    exact ⟨⟨.rust, by decide, by rfl, by rfl⟩, by decide, by decide, by decide, by rfl, by rfl, rfl⟩
  · rintro ⟨-, _, root, _, node, _, detected, parsed, -, one, -⟩
    cases parsed
    have two := congrArg List.length one
    rw [List.length_singleton] at two
    revert two
    decide

end SupraHarness.Ast
