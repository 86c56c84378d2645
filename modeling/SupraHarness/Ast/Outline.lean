import Mathlib.Data.List.FinRange
import SupraHarness.Digest.Harvest
import SupraHarness.Lib.Nesting
import SupraHarness.Lib.Spans

/-!
# Syntax trees

What a parser makes of a file, and what is refused of it. The parsers are a parameter: a function of the
bytes for each grammar. A tree they make is well nested and lies within the bytes.
-/
namespace SupraHarness.Ast

open Digest (Bytes Language Path Text)

structure NodeData extends Digest.NodeData where
  /-- Whether the parser has put the node in where the text lacks it. -/
  missing : Bool

abbrev Node := Rose NodeData

namespace Node

def kind (node : Node) : String := node.label.kind

def startByte (node : Node) : Nat := node.label.startByte

def endByte (node : Node) : Nat := node.label.endByte

/-- The text of a node; none if its bytes are not UTF-8. -/
def utf8Text (source : Bytes) (node : Node) : Option Text :=
  (Str.fromUtf8 ((source.take node.endByte).drop node.startByte)).toOption

/-- What the harvest reads of the tree. -/
def forHarvest (node : Node) : Digest.Node := node.map NodeData.toNodeData

end Node

/-- Why a parser has no tree. -/
inductive ParseFailure where
  | grammarFailedToLoad
  | noTree
  deriving DecidableEq, Repr

/-- The compiled grammars: for each language, and for its variant with embedded markup. -/
structure Grammars where
  parse : Language → Bool → Bytes → Except ParseFailure Node

/-- What structural operations can fail with. -/
inductive AstError where
  | unsupportedLanguage (path : Path) (ext : Option Text)
  | rangeIsNotANode (path : Path) (start stop : Nat)
  | hasErrors (path : Path) (detail : String)
  | gateRefused (path : Path) (detail : String)
  | wouldShadow (path : Path) (old new shadowed : Text)
  | nothingToRename (path : Path) (old : Text)
  deriving DecidableEq, Repr

/-- An error node: what could not be parsed, or was put in. -/
def isError (node : Node) : Bool := node.kind = "ERROR" || node.label.missing

mutual
/-- Whether the tree contains an error node anywhere. -/
def hasError : Node → Bool
  | .node label children => if isError (.node label children) then true else anyHasError children

def anyHasError : List Node → Bool
  | [] => false
  | child :: children => hasError child || anyHasError children
end

theorem hasError_eq_any (node : Node) : hasError node = node.nodes.any isError := by
  cases node with
  | node label children =>
    rw [hasError, Rose.nodes, List.any_cons, anyHasError_eq_any children]
    cases isError (.node label children) <;> rfl
where
  anyHasError_eq_any (children : List Node) : anyHasError children = (Rose.nodesAll children).any isError := by
    cases children with
    | nil => rfl
    | cons child children =>
      rw [anyHasError, Rose.nodesAll, List.any_append, hasError_eq_any child, anyHasError_eq_any children]

/-- Parse, refusing nothing by itself. -/
def parseClean (grammars : Grammars) (path : Path) (source : Bytes) (language : Language) :
    Except AstError Node :=
  match grammars.parse language false source with
  | .ok tree => .ok tree
  | .error .grammarFailedToLoad => .error (.hasErrors path "the grammar failed to load")
  | .error .noTree => .error (.hasErrors path "the parser returned no tree")

/-- The trees of the parsers are well nested, within the bytes. -/
structure Grammars.Lawful (grammars : Grammars) : Prop where
  nested : ∀ {language variant source tree}, grammars.parse language variant source = .ok tree →
    Spans.WellNested (fun data : NodeData => data.startByte) (fun data => data.endByte) tree
  within : ∀ {language variant source tree}, grammars.parse language variant source = .ok tree →
    tree.endByte ≤ source.length

end SupraHarness.Ast

/-!
## Outlines

The declarations of a file with their depths. The depths are settled in passes: a symbol whose parent
names a harvested symbol is pushed below the shallowest such symbol, until a pass pushes nothing. The
links go by name, so two symbols may each lie below the other, and the passes then never end.
-/
namespace SupraHarness.Ast

open Digest (Bytes Language Path Symbol Text)

/-- One outline entry: a symbol with its depth. -/
structure OutlineEntry where
  symbol : Symbol
  depth : Nat

/-- What parsing one file produced. -/
inductive ParseOutcome where
  | clean (symbols : List Symbol)
  | hasErrors (path : Path)

/-- Why a file could not be parsed at all. -/
inductive ParseFileError where
  | unsupportedLanguage (path : Path) (ext : Option Text)
  | unreadable (path : Path) (detail : String)

/-- A path as it is displayed. -/
def shown (path : Path) : String := String.ofList (['/'].intercalate path)

/-- Parse one file's bytes into symbols. -/
def parseFile (grammars : Grammars) (path : Path) (source : Bytes) : Except ParseFileError ParseOutcome :=
  match Language.detect path with
  | none => .error (.unsupportedLanguage path (Digest.extension path))
  | some language =>
    match grammars.parse language (Digest.extension path = some "tsx".toList) source with
    | .error .grammarFailedToLoad => .error (.unreadable path "the grammar failed to load")
    | .error .noTree => .error (.unreadable path "the parser returned no tree")
    | .ok root =>
      if hasError root then .ok (.hasErrors path)
      else .ok (.clean (Digest.harvest path language source root.forHarvest))

section Depths
variable (symbols : List Symbol)

/-- Shallowest harvested symbol with the parent's name, excluding the symbol itself. -/
def best (depths : Fin symbols.length → Nat) (index : Fin symbols.length) (parent : Text) : Option Nat :=
  (List.finRange symbols.length).foldl (fun best other =>
    if other ≠ index ∧ (symbols.get other).name = parent then
      some (best.elim (depths other) fun depth => min depth (depths other))
    else best) none

/-- One symbol is pushed below its parent; whether that changes anything is noted. -/
def settleSymbol (state : (Fin symbols.length → Nat) × Bool) (index : Fin symbols.length) :
    (Fin symbols.length → Nat) × Bool :=
  match (symbols.get index).parent with
  | none => state
  | some parent =>
    match best symbols state.1 index parent with
    | none => state
    | some parentDepth =>
      if state.1 index < parentDepth + 1 then (Function.update state.1 index (parentDepth + 1), true)
      else state

def settlePass (depths : Fin symbols.length → Nat) : (Fin symbols.length → Nat) × Bool :=
  (List.finRange symbols.length).foldl (settleSymbol symbols) (depths, false)

/-- The depths, if they settle in so many passes. -/
def settleDepths (fuel : Nat) : Option (Fin symbols.length → Nat) :=
  Nesting.untilSettled (settlePass symbols) fuel fun _ => 0

end Depths

/-- The outline of one file: its declarations as an indented list, if the depths settle. -/
def outline (grammars : Grammars) (fuel : Nat) (path : Path) (source : Bytes) :
    Option (Except AstError (List OutlineEntry)) :=
  match parseFile grammars path source with
  | .ok (.clean symbols) =>
    (settleDepths symbols fuel).map fun depths =>
      .ok ((List.finRange symbols.length).map fun index => ⟨symbols.get index, depths index⟩)
  | .ok (.hasErrors _) => some (.error (.hasErrors path "the source contains error nodes"))
  | .error (.unsupportedLanguage path ext) => some (.error (.unsupportedLanguage path ext))
  | .error (.unreadable file detail) =>
    let file := shown file
    some (.error (.hasErrors path s!"could not read {file}: {detail}"))

/-! ### What the depths are -/

section Depths
variable (symbols : List Symbol)

/-- The other symbols that carry the name of a symbol's parent. -/
def carriers (index : Fin symbols.length) : List (Fin symbols.length) :=
  (List.finRange symbols.length).filter fun other =>
    other ≠ index ∧ (symbols.get index).parent = some (symbols.get other).name

theorem foldl_best {ι : Type} (depths : ι → Nat) (p : ι → Prop) [DecidablePred p] (items : List ι)
    (start : Option Nat) :
    items.foldl (fun best other =>
        if p other then some (best.elim (depths other) fun depth => min depth (depths other)) else best) start =
      (start.toList ++ (items.filter p).map depths).min? := by
  induction items generalizing start with
  | nil => cases start <;> rfl
  | cons item items ih =>
    rw [List.foldl_cons, ih]
    by_cases holds : p item
    · rw [if_pos holds, List.filter_cons_of_pos (by simpa using holds), List.map_cons]
      cases start <;> rfl
    · rw [if_neg holds, List.filter_cons_of_neg (by simpa using holds)]

theorem best_eq (depths : Fin symbols.length → Nat) {index : Fin symbols.length} {parent : Text}
    (here : (symbols.get index).parent = some parent) :
    best symbols depths index parent = ((carriers symbols index).map depths).min? := by
  rw [best, foldl_best, carriers]
  simp only [here, Option.toList_none, List.nil_append, Option.some.injEq, eq_comm (a := parent)]

theorem settleSymbol_eq : settleSymbol symbols = Nesting.raise (carriers symbols) := by
  funext state index
  rw [settleSymbol, Nesting.raise]
  cases here : (symbols.get index).parent with
  | none =>
    have nothing : carriers symbols index = [] := by
      rw [carriers, List.filter_eq_nil_iff]
      intro other _
      rw [here]
      simp
    rw [Nesting.asked_of_nil nothing, if_neg (Nat.not_lt_zero _)]
  | some parent =>
    dsimp only
    rw [best_eq symbols state.1 here, Nesting.asked]
    cases least : ((carriers symbols index).map state.1).min? with
    | none => rfl
    | some depth => rfl

theorem settlePass_eq :
    settlePass symbols = Nesting.sweep (carriers symbols) (List.finRange symbols.length) := by
  funext depths
  rw [settlePass, Nesting.sweep, settleSymbol_eq]

/-- The depths settle, as nesting depths, exactly where a chain of parents leads from every symbol to
one without a parent among the symbols. -/
theorem settles_iff_rooted :
    (∃ fuel depths, settleDepths symbols fuel = some depths ∧ Nesting.Depths (carriers symbols) depths) ↔
      ∀ index, Nesting.Rooted (carriers symbols) index := by
  simp only [settleDepths, settlePass_eq]
  exact Nesting.settles_iff List.mem_finRange

/-- Depths that have settled are those of the nesting. -/
theorem depths_of_settled {fuel : Nat} {depths : Fin symbols.length → Nat}
    (settled : settleDepths symbols fuel = some depths) : Nesting.Depths (carriers symbols) depths := by
  rw [settleDepths, settlePass_eq] at settled
  exact Nesting.settled_depths List.mem_finRange Nesting.low_zero settled

theorem depth_lt_of_settled {fuel : Nat} {depths : Fin symbols.length → Nat}
    (settled : settleDepths symbols fuel = some depths) (index : Fin symbols.length) :
    depths index < symbols.length := by
  have below := (depths_of_settled symbols settled).lt_length List.mem_finRange index
  rwa [List.length_finRange] at below

end Depths

/-- A function of one letter, in an `impl` of another. -/
def methodOf (name parent : Char) (start : Nat) : Symbol where
  path := ["a.rs".toList]
  language := .rust
  kind := .function
  name := [name]
  parent := some [parent]
  startByte := start
  endByte := start + 9
  startLine := 1

/-- `impl A \x7b fn B() \x7b\x7d \x7d impl B \x7b fn A() \x7b\x7d \x7d`. -/
def crossed : List Symbol := [methodOf 'B' 'A' 9, methodOf 'A' 'B' 30]

theorem not_rooted_crossed (index : Fin crossed.length) : ¬ Nesting.Rooted (carriers crossed) index := by
  intro rooted
  induction rooted with
  | @root index nothing =>
    revert index
    decide
  | under _ _ ih => exact ih

/-- Two methods named after each other's types: the depths never settle. -/
theorem crossed_never_settles :
    ¬ ∃ fuel depths, settleDepths crossed fuel = some depths ∧ Nesting.Depths (carriers crossed) depths := by
  rintro ⟨fuel, depths, -, exact_⟩
  exact not_rooted_crossed ⟨0, by decide⟩ (exact_.within _).rooted

end SupraHarness.Ast
