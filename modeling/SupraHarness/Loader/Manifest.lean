import SupraHarness.Digest.Imports
import SupraHarness.Digest.Watch
import SupraHarness.Lib.OrdMap
import SupraHarness.Lib.Results
import SupraHarness.Llm.Value

/-!
# SKILL.md

One file, one skill: front matter of `key: value` lines between two `---` fences, then the body. The
name and the description are required; a key the loader does not know is kept as it stands.
-/
namespace SupraHarness.Loader

open Digest (Path Text splitOnce)
open Scan Str

abbrev Bytes := List UInt8

inductive IoError where
  | notFound
  /-- The bytes are not UTF-8. -/
  | invalidData
  deriving DecidableEq, Repr

/-- A skill-loading refusal. Files are named by their paths. -/
inductive SkillError where
  | io (error : IoError)
  | parse (path : Path) (detail : String)
  | missingField (path : Path) (field : String)
  | unknownDependency (skill missing : Text)
  | cycle (cycle : Text)
  | duplicate (name : Text) (first second : Path)
  deriving DecidableEq, Repr

/-- One parsed skill. -/
structure Skill where
  name : Text
  description : Text
  requires : List Text
  body : Text
  extra : OrdMap Text Text

/-- Split the front matter from the body at the `---` fences. -/
def splitFences (path : Path) (text : Text) : Except SkillError (Text × Text) :=
  let trimmedStart := text.dropWhile (· = '\n')
  match (stripPrefix "---\n".toList trimmedStart).or (stripPrefix "---\r\n".toList trimmedStart) with
  | none => .error (.parse path "the file must open with a `---` fence before the front matter")
  | some afterOpen =>
    match find "\n---".toList afterOpen with
    | none => .error (.parse path "the front matter is never closed; add a `---` fence after it")
    | some offset =>
      let restOfLine := afterOpen.drop (offset + 4)
      let trailer := restOfLine.takeWhile (· ≠ '\n')
      if trailer ≠ [] ∧ trailer ≠ ['\r'] then
        .error (.parse path "the closing fence must be exactly `---` on its own line")
      else
        let afterClose := restOfLine.dropWhile (· ≠ '\n')
        .ok (afterOpen.take offset, (stripPrefix ['\n'] afterClose).getD afterClose)

def nonblank (path : Path) (field : String) (value : Text) : Except SkillError Text :=
  if value = [] then .error (.missingField path field) else .ok value

/-- What the lines of the front matter have said so far. -/
structure Front where
  name : Option Text
  description : Option Text
  requires : List Text
  extra : OrdMap Text Text

/-- The names in a `requires` field: between commas, trimmed, without empty ones. -/
def requiredNames (value : Text) : List Text :=
  ((value.splitOn ',').map trim).filter (· ≠ [])

/-- One line of the front matter. -/
def readLine (path : Path) (front : Front) (line : Text) : Except SkillError Front :=
  if trim line = [] then .ok front
  else
    match splitOnce [':'] line with
    | none => .error (.parse path ("expected `key: value`, found " ++ Llm.debug (String.ofList line)))
    | some (before, after) =>
      let key := trim before
      let value := trim after
      if key = "name".toList then
        (nonblank path "name" value).map fun name => { front with name := some name }
      else if key = "description".toList then
        (nonblank path "description" value).map fun text => { front with description := some text }
      else if key = "requires".toList then .ok { front with requires := requiredNames value }
      else .ok { front with extra := front.extra.insert key value }

/-- Parse skill text that has already been read. -/
def parseStr (path : Path) (text : Text) : Except SkillError Skill := do
  let (front, body) ← splitFences path text
  let read ← (lines front).foldlM (readLine path) ⟨none, none, [], .empty⟩
  match read.name, read.description with
  | none, _ => .error (.missingField path "name")
  | some _, none => .error (.missingField path "description")
  | some name, some description => .ok ⟨name, description, read.requires, body, read.extra⟩

/-- The files of a tree, by path. -/
abbrev Files := OrdMap Path Bytes

/-- `fs::read_to_string`. -/
def readToString (files : Files) (path : Path) : Except SkillError Text :=
  match files.get path with
  | none => .error (.io .notFound)
  | some bytes => (fromUtf8 bytes).mapError fun _ => .io .invalidData

/-- Parse one SKILL.md file. -/
def Skill.parse (files : Files) (path : Path) : Except SkillError Skill := do
  parseStr path (← readToString files path)

theorem readToString_congr {files files' : Files} {path : Path} (h : files.get path = files'.get path) :
    readToString files path = readToString files' path := by
  rw [readToString, readToString, h]

theorem parse_congr {files files' : Files} {path : Path} (h : files.get path = files'.get path) :
    Skill.parse files path = Skill.parse files' path := by
  rw [Skill.parse, Skill.parse, readToString_congr h]

end SupraHarness.Loader

/-!
## The loader

A directory of skills, dependency-resolved and reloadable. A set stands for what it holds of each file:
the skill whose source the file is. One watcher event moves that for the file it names, or is refused
and leaves the set as it was.
-/
namespace SupraHarness.Loader

open Digest (Path Text Event EventKind)

/-- A loaded, dependency-resolved set of skills. -/
structure Skills where
  /-- The skills by name. -/
  byName : OrdMap Text Skill
  /-- Each skill's file, for reload and duplicate messages. -/
  sources : OrdMap Text Path

namespace Skills

def new : Skills := ⟨.empty, .empty⟩

/-- Keep a skill under its name. -/
def add (skills : Skills) (path : Path) (skill : Skill) : Skills :=
  ⟨skills.byName.insert skill.name skill, skills.sources.insert skill.name path⟩

/-- Drop the row of a name. -/
def drop (skills : Skills) (name : Text) : Skills :=
  ⟨skills.byName.retain fun key _ => key ≠ name, skills.sources.retain fun key _ => key ≠ name⟩

/-- The name whose source is this file. -/
def nameOf (skills : Skills) (path : Path) : Option Text :=
  (skills.sources.entries.find? fun entry => entry.2 = path).map Prod.fst

/-- The first `requires` entry that names nothing loaded. -/
def firstUnknown (skills : Skills) : Option SkillError :=
  skills.byName.entries.findSome? fun entry =>
    (entry.2.requires.find? fun required => (skills.byName.get required).isNone).map
      fun missing => .unknownDependency entry.2.name missing

/-- The names that are not on the path stack. -/
def unvisited (skills : Skills) (visiting : List Text) : Nat :=
  (skills.byName.keys.filter fun name => name ∉ visiting).length

theorem unvisited_push {skills : Skills} {visiting : List Text} {name : Text} {skill : Skill}
    (held : skills.byName.get name = some skill) (new : name ∉ visiting) :
    skills.unvisited (visiting ++ [name]) < skills.unvisited visiting := by
  have split : (skills.byName.keys.filter fun other => other ∉ visiting ++ [name]) =
      (skills.byName.keys.filter fun other => other ∉ visiting).filter fun other => other ≠ name := by
    rw [List.filter_filter]
    apply List.filter_congr
    intro other _
    simp [Bool.and_comm]
  rw [unvisited, unvisited, split, List.length_filter_lt_length_iff_exists]
  refine ⟨name, List.mem_filter.2 ⟨OrdMap.mem_keys.2 (by rw [held]; rfl), by simpa using new⟩, by simp⟩

/-- Depth first: the names that are done, or the cycle the path stack has come back to. -/
def visit (skills : Skills) (visiting : List Text) (name : Text) (done : List Text) :
    Except SkillError (List Text) :=
  if name ∈ done then .ok done
  else if stacked : name ∈ visiting then
    .error (.cycle (" -> ".toList.intercalate (visiting.drop (visiting.idxOf name) ++ [name])))
  else
    match held : skills.byName.get name with
    | none => .ok (name :: done)
    | some skill =>
      (skill.requires.foldlM (fun done required => skills.visit (visiting ++ [name]) required done) done).map
        (name :: ·)
termination_by skills.unvisited visiting
decreasing_by exact unvisited_push held stacked

variable {skills : Skills} {visiting done : List Text} {name : Text}

theorem visit_done (mem : name ∈ done) : skills.visit visiting name done = .ok done := by
  rw [visit, if_pos mem]

theorem visit_stacked (fresh : name ∉ done) (mem : name ∈ visiting) : skills.visit visiting name done =
    .error (.cycle (" -> ".toList.intercalate (visiting.drop (visiting.idxOf name) ++ [name]))) := by
  rw [visit, if_neg fresh, dif_pos mem]

theorem visit_absent (fresh : name ∉ done) (free : name ∉ visiting) (absent : skills.byName.get name = none) :
    skills.visit visiting name done = .ok (name :: done) := by
  rw [visit, if_neg fresh, dif_neg free]
  split
  · rfl
  · rename_i held
    rw [absent] at held
    cases held

theorem visit_held {skill : Skill} (fresh : name ∉ done) (free : name ∉ visiting)
    (row : skills.byName.get name = some skill) :
    skills.visit visiting name done =
      (skill.requires.foldlM (fun done required => skills.visit (visiting ++ [name]) required done) done).map
        (name :: ·) := by
  rw [visit, if_neg fresh, dif_neg free]
  split
  · rename_i held
    rw [row] at held
    cases held
  · rename_i held
    rw [row] at held
    cases held
    rfl

/-- Resolve every `requires` entry and refuse cycles. -/
def resolveDependencies (skills : Skills) : Except SkillError Unit :=
  match skills.firstUnknown with
  | some error => .error error
  | none => (skills.byName.keys.foldlM (fun done name => skills.visit [] name done) []).map fun _ => ()

end Skills

def skillFile : Digest.Name := "SKILL.md".toList

/-- A path `directory/*/SKILL.md`. -/
def isManifest (directory path : Path) : Bool :=
  directory.isPrefixOf path && path.length == directory.length + 2 && path.getLast? == some skillFile

namespace Skills

/-- Load one more file of the directory. -/
def loadFile (files : Files) (loaded : Skills) (path : Path) : Except SkillError Skills := do
  let skill ← Skill.parse files path
  match loaded.sources.get skill.name with
  | some first => .error (.duplicate skill.name first path)
  | none => .ok (loaded.add path skill)

/-- Load every skill under the directory, in path order. -/
def load (directory : Path) (files : Files) : Except SkillError Skills := do
  let loaded ← (files.keys.filter (isManifest directory)).foldlM (loadFile files) new
  loaded.resolveDependencies
  return loaded

/-- Drop what the set holds of the file, then load what the file says now. -/
def reloadFile (files : Files) (candidate : Skills × OrdMap Text Unit) (path : Path) :
    Except SkillError (Skills × OrdMap Text Unit) := do
  let reloaded ← Skill.parse files path
  -- the old name's row goes before the duplicate check
  let (rest, changed) := match candidate.1.nameOf path with
    | some old => (candidate.1.drop old, candidate.2.insert old ())
    | none => candidate
  match rest.sources.get reloaded.name with
  | some first => .error (.duplicate reloaded.name first path)
  | none =>
    let next := rest.add path reloaded
    .ok (next, changed.insert ((next.nameOf path).getD []) ())

/-- One path of an event, on the candidate set and the names that changed so far. -/
def applyPath (files : Files) (kind : EventKind) (candidate : Skills × OrdMap Text Unit) (path : Path) :
    Except SkillError (Skills × OrdMap Text Unit) :=
  if path.getLast? ≠ some skillFile then .ok candidate
  else
    match kind with
    | .other => .ok candidate
    | .remove =>
      match candidate.1.nameOf path with
      | some name => .ok (candidate.1.drop name, candidate.2.insert name ())
      | none => .ok candidate
    | .create | .modify => reloadFile files candidate path

def applyEventInPlace (files : Files) (skills : Skills) (event : Event) : Except SkillError (Skills × List Text) := do
  let (candidate, changed) ← event.paths.foldlM (applyPath files event.kind) (skills, .empty)
  candidate.resolveDependencies
  return (candidate, changed.keys)

/-- Apply one watcher event: the names that changed and the set that stands. -/
def applyEvent (files : Files) (skills : Skills) (event : Event) : Except SkillError (List Text) × Skills :=
  match applyEventInPlace files skills event with
  | .ok (candidate, changed) => (.ok changed, candidate)
  | .error error => (.error error, skills)

end Skills

end SupraHarness.Loader
