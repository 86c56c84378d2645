import SupraHarness.Lib.Utf8

/-!
# The sandbox binding

Values that cross the C boundary, the command built from them, and the identity of
a file. A value with an interior NUL cannot cross.
-/
namespace SupraHarness.Ffi

/-- Why a sandbox operation failed, as far as a spawn can see it. -/
inductive Error where
  | interiorNul
  | refused (message : String)
  deriving DecidableEq, Repr

/-- The `Display` text. -/
def Error.text : Error → String
  | .interiorNul => "value contains an interior NUL byte"
  | .refused message => "sandbox refused to start: " ++ message

/-- Bytes that end at the first NUL in C and hold none before it. -/
structure CString where
  bytes : List UInt8
  noNul : 0 ∉ bytes
  deriving DecidableEq, Repr

def CString.new (bytes : List UInt8) : Except Error CString :=
  if h : 0 ∈ bytes then .error .interiorNul else .ok ⟨bytes, h⟩

/-- Device and inode identifying a file. -/
structure FileIdentity where
  device : UInt64
  inode : UInt64
  deriving DecidableEq, Repr

/-- Identity of the file a path resolves to; a path that does not resolve has none. -/
def fileIdentity (identify : CString → Option FileIdentity) (path : List UInt8) :
    Except Error (Option FileIdentity) := do
  let rawPath ← CString.new path
  return identify rawPath

/-- What to run inside the sandbox. -/
structure Command where
  program : CString
  args : List CString
  env : List CString
  workingDir : Option CString
  stdinFd : Int
  stdoutFd : Int
  stderrFd : Int
  deriving DecidableEq, Repr

namespace Command

def new (program : List UInt8) : Except Error Command := do
  let program ← CString.new program
  return {
    program := program
    args := [program]
    env := []
    workingDir := none
    stdinFd := -1
    stdoutFd := -1
    stderrFd := -1 }

def arg (command : Command) (arg : List UInt8) : Except Error Command := do
  let arg ← CString.new arg
  return { command with args := command.args ++ [arg] }

def setEnv (command : Command) (key value : List UInt8) : Except Error Command := do
  let entry ← CString.new (key ++ '='.toNat.toUInt8 :: value)
  return { command with env := command.env ++ [entry] }

def setWorkingDir (command : Command) (dir : List UInt8) : Except Error Command := do
  let dir ← CString.new dir
  return { command with workingDir := some dir }

def stdio (command : Command) (stdin stdout stderr : Int) : Command :=
  { command with stdinFd := stdin, stdoutFd := stdout, stderrFd := stderr }

end Command

/-- Tier that applied to a process. -/
inductive Tier where
  | none | namespaces | landlock | sbpl | appContainer
  deriving DecidableEq, Repr

/-- A running sandboxed process. -/
structure Process where
  pid : Int
  tier : Tier
  deriving DecidableEq, Repr

end SupraHarness.Ffi
