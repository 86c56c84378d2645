import Mathlib.Data.Char
import Mathlib.Data.List.Destutter
import Mathlib.Data.List.Lex
import Mathlib.Data.List.Sort
import SupraHarness.Lib.Scan

/-!
# Module paths

A file is known to the import graph under its module path: the names of its directories and its stem,
joined by `::`. An import is rewritten to such a path, starting from the directory of the importing file.
-/
namespace SupraHarness.Digest

open Str

abbrev Text := List Char

/-- One component of a path. -/
abbrev Name := List Char

/-- A path below the repository root. -/
abbrev Path := List Name

/-- The name before the last dot, and what follows that dot. A dot in front is part of the name. -/
def splitDot (name : Name) : Name × Option Name :=
  let after := (name.reverse.takeWhile (· ≠ '.')).reverse
  let before := name.take (name.length - (after.length + 1))
  if '.' ∉ name ∨ before = [] then (name, none) else (before, some after)

def fileStem (path : Path) : Option Name := path.getLast?.map fun name => (splitDot name).1

def extension (path : Path) : Option Name := path.getLast?.bind fun name => (splitDot name).2

def colons : Text := "::".toList

def join (parts : List Name) : Text := colons.intercalate parts

/-- The components of the module path; `mod.rs` and `__init__.py` denote their directory. -/
def moduleParts (path : Path) : Option (List Name) :=
  (fileStem path).bind fun stem =>
    if stem = "mod".toList ∨ stem = "__init__".toList then
      if path.dropLast = [] then none else some path.dropLast
    else some (path.dropLast ++ [stem])

/-- The module path for a file: `src/turns.rs` is `src::turns`, `a/b.py` is `a::b`. -/
def modulePath (path : Path) : Option Text := (moduleParts path).map join

/-- Every `super::` in front takes one directory off. -/
def climb : Nat → List Name → Text → List Name × Text
  | 0, parts, rest => (parts, rest)
  | fuel + 1, parts, rest =>
    match stripPrefix "super::".toList rest with
    | some stripped => climb fuel parts.dropLast stripped
    | none => (parts, rest)

def under (parts : List Name) (rest : Text) : Text :=
  if rest = [] then join parts
  else if parts = [] then rest
  else join parts ++ colons ++ rest

/-- Rewrite a raw import into the graph's key space. -/
def normaliseImport (importer : Path) (target : Text) : Text :=
  match stripPrefix "crate::".toList target with
  | some rest => under importer.dropLast rest
  | none =>
    let climbed := climb target.length importer.dropLast target
    match stripPrefix "self::".toList climbed.2 with
    | some rest => under climbed.1 rest
    | none => if "crate::".toList.isPrefixOf target then under climbed.1 climbed.2 else target

/-- The text before and after the last `::`. -/
def rsplitOnce : Text → Option (Text × Text)
  | [] => none
  | c :: text =>
    match rsplitOnce text with
    | some (before, after) => some (c :: before, after)
    | none => (stripPrefix colons (c :: text)).map fun after => ([], after)

end SupraHarness.Digest

/-!
## Import targets

The module paths that a source text imports, read off its lines for each language.
-/
namespace SupraHarness.Digest

open Str Scan

inductive Language where
  | rust
  | typeScript
  | python
  | javaScript
  | go
  | c
  | cpp
  deriving DecidableEq, Repr

/-- Detect from a file extension; an unknown one is outside coverage. -/
def Language.detect (path : Path) : Option Language :=
  (extension path).bind fun ext =>
    let ext := String.ofList ext
    if ext = "rs" then some rust
    else if ext ∈ ["ts", "tsx", "mts", "cts"] then some typeScript
    else if ext = "py" then some python
    else if ext ∈ ["js", "jsx", "mjs", "cjs"] then some javaScript
    else if ext = "go" then some go
    else if ext ∈ ["c", "h"] then some c
    else if ext ∈ ["cpp", "cc", "cxx", "hpp", "hh", "hxx"] then some cpp
    else none

/-- `split` at a character. -/
def splitAt (separator : Char) : Text → List Text
  | [] => [[]]
  | c :: text =>
    if c = separator then [] :: splitAt separator text
    else
      match splitAt separator text with
      | [] => [[c]]
      | part :: parts => (c :: part) :: parts

/-- `split(pattern).next()`: the text before the first occurrence. -/
def upTo (pattern text : Text) : Text := text.take ((find pattern text).getD text.length)

/-- `split_once`: the text before and after the first occurrence. -/
def splitOnce (pattern text : Text) : Option (Text × Text) :=
  (find pattern text).map fun at_ => (text.take at_, text.drop (at_ + pattern.length))

/-- `trim_start_matches` with a text. -/
def trimStartMatches (pattern : Text) : Nat → Text → Text
  | 0, text => text
  | fuel + 1, text =>
    match stripPrefix pattern text with
    | some rest => trimStartMatches pattern fuel rest
    | none => text

/-- `trim_matches` with a set of characters. -/
def trimMatches (chars : List Char) (text : Text) : Text :=
  ((text.dropWhile (· ∈ chars)).reverse.dropWhile (· ∈ chars)).reverse

def trimEndMatches (chars : List Char) (text : Text) : Text :=
  (text.reverse.dropWhile (· ∈ chars)).reverse

def nonemptyTarget (target : Text) : List Text := if target = [] then [] else [target]

/-- The target of one `use` declaration, without groups and renames. -/
def rustTargets (part : Text) : List Text :=
  let part := trim part
  let part := trimStartMatches "pub ".toList part.length part
  let part := trim (trimStartMatches "use ".toList part.length part)
  let part := trim (trimEndMatches [';'] part)
  if part = [] ∨ "//".toList.isPrefixOf part then []
  else nonemptyTarget (trim (upTo " as ".toList (upTo "::\x7b".toList part)))

def pythonTargets (line : Text) : List Text :=
  let line := trim line
  match stripPrefix "import ".toList line with
  | some rest => (splitAt ',' rest).flatMap fun item => nonemptyTarget (trim (upTo " as ".toList item))
  | none =>
    match stripPrefix "from ".toList line with
    | some rest =>
      match splitOnce " import ".toList rest with
      | some (module, _) => [trim module]
      | none => []
    | none => []

/-- A quoted module path; relative ones are left out. -/
def quotedTarget (target : Text) : List Text :=
  if target = [] ∨ target.head? = some '.' then [] else [target]

/-- The texts between quotes, outside quotes and then in an open one. -/
def quotedTargets : Option (Char × Text) → Text → List Text
  | none, [] => []
  | some (_, target), [] => quotedTarget target
  | none, c :: text => quotedTargets (if c = '"' ∨ c = '\'' then some (c, []) else none) text
  | some (quote, target), c :: text =>
    if c = quote then quotedTarget target ++ quotedTargets none text
    else quotedTargets (some (quote, target ++ [c])) text

def includeTargets (line : Text) : List Text :=
  match stripPrefix "#include".toList (trim line) with
  | some rest => nonemptyTarget (trimMatches ['"', '<', '>'] (trim rest))
  | none => []

/-- Extract the raw import targets from a file's text, sorted and without repetitions. -/
def importTargets (language : Language) (text : Text) : List Text :=
  let targets :=
    match language with
    | .rust => (splitAt ';' text).flatMap rustTargets
    | .python => (lines text).flatMap pythonTargets
    | .go | .javaScript | .typeScript => quotedTargets none text
    | .c | .cpp => (lines text).flatMap includeTargets
  (targets.insertionSort (· ≤ ·)).destutter (· ≠ ·)

end SupraHarness.Digest
