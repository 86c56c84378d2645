import Mathlib.Data.Prod.Lex
import SupraHarness.Digest.Index
import SupraHarness.Lib.Scopes
import SupraHarness.Lib.Selection

/-!
# Harvesting declarations

The walk over a syntax tree that collects the named declarations of a file. A declaration is filed
under the name of what encloses it, which the walk takes from the declaration it has collected last: it
is right where the enclosing declaration has a name, and is misled by one that has none, as an arrow
function or an `export` statement.
-/
namespace SupraHarness.Digest

/-- A node of a syntax tree: its kind, the field of its parent it stands in, and where it is. -/
structure NodeData where
  kind : String
  field : Option String
  startByte : Nat
  endByte : Nat
  startRow : Nat

abbrev Node := Rose NodeData

namespace Node

def kind (node : Node) : String := node.label.kind

def utf8Text (source : Bytes) (node : Node) : Option Text :=
  (Str.fromUtf8 ((source.take node.label.endByte).drop node.label.startByte)).toOption

/-- The text of a node, if it has any. -/
def someText (source : Bytes) (node : Node) : Option Text :=
  (node.utf8Text source).filter (· ≠ [])

def childByFieldName (name : String) (node : Node) : Option Node :=
  node.children.find? fun child => child.label.field = some name

end Node

/-- Map a grammar node kind to a symbol kind, if it declares anything. -/
def declarationKind : Language → String → Option SymbolKind
  | .rust, kind =>
    if kind = "function_item" then some .function
    else if kind ∈ ["struct_item", "enum_item", "trait_item", "union_item"] then some .type
    else if kind = "mod_item" then some .module
    else if kind ∈ ["const_item", "static_item", "type_item"] then some .constant
    else if kind = "use_declaration" then some .import_
    else none
  | .typeScript, kind => script kind
  | .javaScript, kind => script kind
  | .python, kind =>
    if kind = "function_definition" then some .function
    else if kind = "class_definition" then some .type
    else if kind ∈ ["import_statement", "import_from_statement"] then some .import_
    else none
  | .go, kind =>
    if kind ∈ ["function_declaration", "method_declaration"] then some .function
    else if kind = "type_declaration" then some .type
    else if kind = "import_declaration" then some .import_
    else none
  | .c, kind => native kind
  | .cpp, kind => native kind
where
  script (kind : String) : Option SymbolKind :=
    if kind ∈ ["function_declaration", "method_definition", "arrow_function"] then some .function
    else if kind ∈ ["class_declaration", "interface_declaration", "type_alias_declaration",
        "enum_declaration"] then some .type
    else if kind ∈ ["import_statement", "export_statement"] then some .import_
    else none
  native (kind : String) : Option SymbolKind :=
    if kind ∈ ["function_definition", "function_declarator"] then some .function
    else if kind ∈ ["struct_specifier", "enum_specifier", "class_specifier", "union_specifier"] then
      some .type
    else if kind = "namespace_definition" then some .module
    else if kind = "type_definition" then some .constant
    else if kind = "preproc_include" then some .import_
    else none

/-- The target of a Rust `impl_item`. -/
def implTarget (source : Bytes) (node : Node) : Option Text :=
  (node.children.find? fun (child : Node) => child.kind ∈ ["type_identifier", "generic_type"]).bind
    (Node.someText source)

/-- The declared name: the `name` field where the grammar provides one, else the first identifier. -/
def nodeName (source : Bytes) (node : Node) : Option Text :=
  match (node.childByFieldName "name").bind (Node.someText source) with
  | some name => some name
  | none =>
    if node.kind = "impl_item" then implTarget source node
    else
      let declarator :=
        if "declarator".toList.isSuffixOf node.kind.toList then
          (node.children.filter fun (child : Node) => child.kind = "identifier").findSome? (Node.someText source)
        else none
      declarator.or
        ((node.children.find? fun (child : Node) =>
          child.kind ∈ ["identifier", "type_identifier", "property_identifier"]).bind
            (Node.someText source))

/-- The line of a row, in the range of its type. -/
def startLine (row : Nat) : Nat := min (min row (2 ^ 32 - 1) + 1) (2 ^ 32 - 1)

section Walk
variable (path : Path) (language : Language) (source : Bytes)

def symbolOf (kind : SymbolKind) (name : Text) (parent : Option Text) (node : Node) : Symbol where
  path := path
  language := language
  kind := kind
  name := name
  parent := parent
  startByte := node.label.startByte
  endByte := node.label.endByte
  startLine := startLine node.label.startRow

/-- What the walk does at a node: the symbols after it, and the parent its children get. -/
def visit (symbols : List Symbol) (parent : Option Text) (node : Node) : List Symbol × Option Text :=
  if node.kind = "impl_item" ∧ language = .rust then (symbols, (implTarget source node).or parent)
  else
    match declarationKind language node.kind with
    | some kind =>
      let name := (nodeName source node).getD []
      let symbols := if name ≠ [] then symbols ++ [symbolOf path language kind name parent node] else symbols
      (symbols, (symbols.getLast?.map fun symbol => symbol.name).or parent)
    | none => (symbols, parent)

/-- The order of the symbols of a file. -/
def symbolLe (left right : Symbol) : Bool :=
  toLex (left.path, left.startByte) ≤ toLex (right.path, right.startByte)

/-- Walk the tree, harvesting declarations with their enclosing parents. -/
def harvest (root : Node) : List Symbol :=
  (Rose.walk (visit path language source) [] [(root, none)]).mergeSort symbolLe

/-! ## Declarations and what encloses them -/

/-- The name a node declares, if it is a declaration and has one. -/
def declaredName (node : Node) : Option Text :=
  if node.kind = "impl_item" ∧ language = .rust then none
  else (declarationKind language node.kind).bind fun _ => (nodeName source node).filter (· ≠ [])

/-- The name a node gives what is below it: its own, or the target of an `impl`. -/
def scopeName (node : Node) : Option Text :=
  if node.kind = "impl_item" ∧ language = .rust then implTarget source node
  else declaredName language source node

/-- The named declarations of the tree, each with the name of its nearest enclosing one. -/
def declarations (root : Node) : List Symbol :=
  ((Rose.occurrences [] root).filterMap fun (ancestors, (node : Node)) =>
    (declarationKind language node.kind).bind fun kind =>
      (declaredName language source node).map fun name =>
        symbolOf path language kind name (ancestors.findSome? (scopeName language source)) node).mergeSort
    symbolLe

/-- How a node takes part in the scopes of its tree. -/
def bindingOf (node : Node) : Binding Text :=
  if node.kind = "impl_item" ∧ language = .rust then
    match implTarget source node with
    | some target => .scope target
    | none => .plain
  else
    match declarationKind language node.kind with
    | some _ =>
      match (nodeName source node).filter (· ≠ []) with
      | some name => .declare name
      | none => .nameless
    | none => .plain

theorem opened_bindingOf (node : Node) :
    (bindingOf language source node).opened = scopeName language source node := by
  rw [bindingOf, scopeName, declaredName]
  split_ifs
  · cases implTarget source node <;> rfl
  · cases declarationKind language node.kind with
    | none => rfl
    | some kind => cases (nodeName source node).filter (· ≠ []) <;> rfl

theorem declared_bindingOf (node : Node) :
    (bindingOf language source node).declared = declaredName language source node := by
  rw [bindingOf, declaredName]
  split_ifs
  · cases implTarget source node <;> rfl
  · cases declarationKind language node.kind with
    | none => rfl
    | some kind => cases (nodeName source node).filter (· ≠ []) <;> rfl

/-- The symbol of a name in its place, with the kind of its node. -/
def symbolAt (placed : Scopes.Placed NodeData Text) : Symbol :=
  symbolOf path language ((declarationKind language (Node.kind placed.node)).getD .function) placed.name
    placed.scope placed.node

theorem getD_of_filter_none {name : Option Text} (h : name.filter (· ≠ []) = none) : name.getD [] = [] := by
  cases name with
  | none => rfl
  | some text =>
    rw [Option.filter_eq_none_iff] at h
    exact of_not_not fun nonempty => h text rfl (decide_eq_true nonempty)

theorem visit_eq (found : List (Scopes.Placed NodeData Text)) (parent : Option Text) (node : Node) :
    visit path language source (found.map (symbolAt path language)) parent node =
      ((Scopes.guess (bindingOf language source) found parent node).1.map (symbolAt path language),
        (Scopes.guess (bindingOf language source) found parent node).2) := by
  rw [visit, Scopes.guess, bindingOf]
  split_ifs with rustImpl
  · cases implTarget source node <;> rfl
  · cases declaring : declarationKind language node.kind with
    | none => rfl
    | some kind =>
      have last : ((found.map (symbolAt path language)).getLast?.map fun symbol => symbol.name) =
          Scopes.lastName found := by
        rw [List.getLast?_map, Option.map_map]
        rfl
      cases named : (nodeName source node).filter (· ≠ []) with
      | none =>
        simp only [getD_of_filter_none named, ne_eq, not_true_eq_false, if_false, last]
      | some name =>
        obtain ⟨isname, nonempty⟩ := Option.filter_eq_some_iff.1 named
        simp only [isname, Option.getD_some, if_pos (of_decide_eq_true nonempty), List.map_append]
        simp [symbolAt, declaring, symbolOf]

theorem harvest_eq (root : Node) :
    harvest path language source root =
      ((Rose.walk (Scopes.guess (bindingOf language source)) [] [(root, none)]).map
        (symbolAt path language)).mergeSort symbolLe := by
  rw [harvest, Rose.walk_eq, Rose.walk_eq]
  congr 1
  exact Rose.descend_map (List.map (symbolAt path language)) (visit_eq path language source) root [] none

theorem kind_of_declaredName {language : Language} {source : Bytes} {node : Node} {name : Text}
    (named : declaredName language source node = some name) :
    ∃ kind, declarationKind language node.kind = some kind := by
  rw [declaredName] at named
  split_ifs at named
  obtain ⟨kind, declaring, -⟩ := Option.bind_eq_some_iff.1 named
  exact ⟨kind, declaring⟩

theorem declarations_eq (root : Node) :
    declarations path language source root =
      (((Rose.occurrences [] root).filterMap (Scopes.place (bindingOf language source))).map
        (symbolAt path language)).mergeSort symbolLe := by
  rw [declarations, List.map_filterMap]
  congr 2
  funext entry
  obtain ⟨ancestors, node⟩ := entry
  rw [Scopes.place, Scopes.nearest, declared_bindingOf]
  simp only [opened_bindingOf]
  cases named : declaredName language source node with
  | none => cases declarationKind language (Node.kind node) <;> rfl
  | some name =>
    obtain ⟨kind, declaring⟩ := kind_of_declaredName named
    simp [symbolAt, declaring]

theorem symbolLe_spot (a a' b b' : Scopes.Placed NodeData Text) (here : a.spot = a'.spot)
    (there : b.spot = b'.spot) :
    symbolLe (symbolAt path language a) (symbolAt path language b) =
      symbolLe (symbolAt path language a') (symbolAt path language b') := by
  have node : a.node = a'.node := congrArg Prod.fst here
  have other : b.node = b'.node := congrArg Prod.fst there
  change decide (toLex (path, a.node.label.startByte) ≤ toLex (path, b.node.label.startByte)) =
    decide (toLex (path, a'.node.label.startByte) ≤ toLex (path, b'.node.label.startByte))
  rw [node, other]

theorem symbolAt_injective (a a' : Scopes.Placed NodeData Text) (here : a.spot = a'.spot)
    (same : symbolAt path language a = symbolAt path language a') : a = a' := by
  have scope : a.scope = a'.scope := congrArg (fun symbol => symbol.parent) same
  obtain ⟨node, name, _⟩ := a
  obtain ⟨node', name', _⟩ := a'
  cases here
  cases scope
  rfl

theorem harvest_eq_iff (root : Node) :
    harvest path language source root = declarations path language source root ↔
      Rose.walk (Scopes.guess (bindingOf language source)) [] [(root, none)] =
        (Rose.occurrences [] root).filterMap (Scopes.place (bindingOf language source)) := by
  rw [harvest_eq, declarations_eq]
  exact Selection.sort_map_iff (symbolLe_spot path language) (symbolAt_injective path language)
    (Scopes.walk_spots (bindingOf language source) root)

/-- Every symbol is harvested under the name of its nearest enclosing declaration exactly where no
nameless declaration, with one in its reach, follows a name other than that of what encloses it. -/
theorem harvest_parents_iff (root : Node) :
    harvest path language source root = declarations path language source root ↔
      Scopes.Confined (bindingOf language source) none (Rose.occurrences [] root) :=
  (harvest_eq_iff path language source root).trans (Scopes.walk_eq_iff (bindingOf language source) root)

end Walk

/-- Two classes, the second of them exported. -/
def exportedSource : Bytes := "class A\x7b\x7d\nexport class B\x7b\x7d".toUTF8.data.toList

/-- A class declaration at an offset, with a name of one letter and no members. -/
def classNode (field : Option String) (start row : Nat) : Node :=
  .node ⟨"class_declaration", field, start, start + 9, row⟩
    [.node ⟨"class", none, start, start + 5, row⟩ [],
     .node ⟨"identifier", some "name", start + 6, start + 7, row⟩ [],
     .node ⟨"class_body", some "body", start + 7, start + 9, row⟩
      [.node ⟨"\x7b", none, start + 7, start + 8, row⟩ [], .node ⟨"\x7d", none, start + 8, start + 9, row⟩ []]]

def exportedTree : Node :=
  .node ⟨"program", none, 0, 26, 0⟩
    [classNode none 0 0,
     .node ⟨"export_statement", none, 10, 26, 1⟩
      [.node ⟨"export", none, 10, 16, 1⟩ [], classNode (some "declaration") 17 1]]

/-- The exported class is filed under the class before it. -/
theorem harvest_misfiles :
    harvest ["a.js".toList] .javaScript exportedSource exportedTree ≠
      declarations ["a.js".toList] .javaScript exportedSource exportedTree := by
  rw [Ne, harvest_eq_iff, Rose.walk_eq]
  intro same
  have scopes := congrArg (List.map fun placed => placed.scope) same
  revert scopes
  decide

end SupraHarness.Digest
