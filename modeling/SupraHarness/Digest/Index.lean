import SupraHarness.Digest.Imports
import SupraHarness.Lib.OrdMap

/-!
# The symbol index

What is defined where. A file that parses has an entry with the fingerprint of its bytes and its
symbols; a file that does not has none. The grammars and the fingerprint function are parameters.
-/
namespace SupraHarness.Digest

abbrev Bytes := List UInt8

inductive SymbolKind where
  | function
  | type
  | module
  | constant
  | import_
  deriving DecidableEq, Repr

/-- What the walk over a syntax tree reports of one declaration. -/
structure Declaration where
  kind : SymbolKind
  name : Text
  /-- Enclosing declaration's name, if nested. -/
  parent : Option Text
  startByte : Nat
  endByte : Nat
  startLine : Nat
  deriving DecidableEq, Repr

/-- One named declaration in one file. -/
structure Symbol extends Declaration where
  path : Path
  language : Language
  deriving DecidableEq, Repr

/-- The grammars and the fingerprint function. -/
structure Tools (Δ : Type) where
  /-- The declarations in a source, for a language or its variant with embedded markup; none if the
  tree has an error. -/
  declarations : Language → Bool → Bytes → Option (List Declaration)
  fingerprint : Bytes → Δ

/-- One file's indexed state. -/
structure FileEntry (Δ : Type) where
  fileFingerprint : Δ
  symbols : List Symbol

/-- The in-memory symbol index over one repository root. -/
abbrev SymbolIndex (Δ : Type) := OrdMap Path (FileEntry Δ)

section Index

variable {Δ : Type} (tools : Tools Δ)

/-- Parse one file's bytes into symbols. -/
def parseFile (path : Path) (source : Bytes) : Option (List Symbol) :=
  (Language.detect path).bind fun language =>
    (tools.declarations language (extension path = some "tsx".toList) source).map fun declarations =>
      declarations.map fun declaration => ⟨declaration, path, language⟩

namespace SymbolIndex

/-- Drop one file's entry. -/
def removeFile (index : SymbolIndex Δ) (path : Path) : SymbolIndex Δ :=
  index.retain fun file _ => file ≠ path

/-- Index one file's bytes, replacing its previous entry. A file that cannot be parsed keeps none. -/
def indexBytes (index : SymbolIndex Δ) (path : Path) (source : Bytes) : SymbolIndex Δ :=
  match parseFile tools path source with
  | some symbols => index.insert path ⟨tools.fingerprint source, symbols⟩
  | none => removeFile index path

/-- Every declaration carrying `name`, in path order. -/
def symbolsNamed (index : SymbolIndex Δ) (name : Text) : List Symbol :=
  ((index.entries.flatMap fun entry => entry.2.symbols).filter fun symbol => symbol.name = name).insertionSort
    fun left right => left.path ≤ right.path

/-- Every symbol in one file. -/
def symbolsIn (index : SymbolIndex Δ) (path : Path) : List Symbol :=
  ((index.get path).map FileEntry.symbols).getD []

/-- Whether the file's bytes match the indexed fingerprint. -/
def isCurrent [DecidableEq Δ] (index : SymbolIndex Δ) (path : Path) (source : Bytes) : Bool :=
  (index.get path).any fun entry => entry.fileFingerprint = tools.fingerprint source

/-- Every indexed path, sorted. -/
def indexedPaths (index : SymbolIndex Δ) : List Path := index.keys

end SymbolIndex

/-- The entry that a source makes. -/
def entryOf (path : Path) (source : Bytes) : Option (FileEntry Δ) :=
  (parseFile tools path source).map fun symbols => ⟨tools.fingerprint source, symbols⟩

@[simp] theorem get_removeFile (index : SymbolIndex Δ) (path file : Path) :
    (SymbolIndex.removeFile index path).get file = if file = path then none else index.get file := by
  rw [SymbolIndex.removeFile, OrdMap.get_retain]
  by_cases same : file = path <;> cases index.get file <;> simp [same]

@[simp] theorem get_indexBytes (index : SymbolIndex Δ) (path file : Path) (source : Bytes) :
    (SymbolIndex.indexBytes tools index path source).get file =
      if file = path then entryOf tools path source else index.get file := by
  unfold SymbolIndex.indexBytes entryOf
  cases parseFile tools path source with
  | none => exact get_removeFile index path file
  | some symbols =>
    dsimp only
    rw [OrdMap.get_insert]
    by_cases same : file = path <;> simp [same]

end Index

end SupraHarness.Digest
