import SupraHarness.Lib.DebugText
import SupraHarness.Lib.Results
import SupraHarness.Lib.Str
import SupraHarness.Types.Hash

/-!
# Signed bundles

A bundle is an archive, a manifest and a signature of the manifest. The checks look at files several times over, and
what a look shows is not assumed to have anything to do with what the one before it showed.
-/
namespace SupraHarness.Update

abbrev Text := List Char

abbrev Bytes := List UInt8

def maxArchiveBytes : Nat := 128 * 1024 * 1024

def maxExecutableBytes : Nat := 128 * 1024 * 1024

def maxArchiveEntries : Nat := 64

inductive IoError where
  | notFound
  | alreadyExists
  | other (text : Text)
  deriving DecidableEq, Repr

inductive UpdateError where
  | badSignature (text : Text)
  | badVersion (version source : Text)
  | targetMismatch (offered expected : Text)
  | archiveMismatch (offered expected : Text)
  | digestMismatch (subject computed pinned : Text)
  | sizeMismatch (subject : Text) (actual pinned : Nat)
  | malformedManifest (text : Text)
  | unsafeArchive (text : Text)
  | unsafeDestination (text : Text)
  | io (path : Text) (source : IoError)
  deriving DecidableEq, Repr

structure ExecutableWire where
  path : Text
  size : Nat
  sha256 : Text
  deriving DecidableEq, Repr

structure ManifestWire where
  schema : Nat
  version : Text
  target : Text
  archive : Text
  archiveSize : Nat
  archiveSha256 : Text
  executable : ExecutableWire
  deriving DecidableEq, Repr

/-- A manifest whose archive and executable bindings are trusted. -/
structure VerifiedManifest (ν : Type) where
  version : ν
  target : Text
  archive : Text
  archiveSize : Nat
  archiveSha256 : Text
  executablePath : Text
  executableSize : Nat
  executableSha256 : Text
  deriving DecidableEq, Repr

/-- What other crates do: versions, the manifest's JSON, signatures and digests; and which symbols `Debug` numbers. -/
structure Outside (ν κ ς : Type) where
  fromSlice : Bytes → Except Text ManifestWire
  parse : Text → Except Text ν
  display : ν → Text
  fromBase64 : Text → Except Text κ
  decode : Text → Except Text ς
  verify : κ → Bytes → ς → Except Text Unit
  sha256 : Bytes → Bytes
  numbered : Char → Bool

variable {ν κ ς : Type}

/-! ## Paths -/

inductive Component where
  | rootDir
  | curDir
  | parentDir
  | normal (name : Text)
  deriving DecidableEq, Repr

/-- A part of a path behind its first separator. -/
def component (part : Text) : Option Component :=
  if part = [] ∨ part = ['.'] then none
  else if part = ['.', '.'] then some .parentDir
  else some (.normal part)

/-- `Path::components`: a dot counts only at the beginning. -/
def components (path : Text) : List Component :=
  match path.splitOn '/' with
  | [] => []
  | first :: parts =>
    let head := if path.head? = some '/' then [.rootDir] else if first = ['.'] then [.curDir] else (component first).toList
    head ++ parts.filterMap component

/-- `Path::file_name`. -/
def fileName (path : Text) : Option Text :=
  match (components path).getLast? with
  | some (.normal name) => some name
  | _ => none

/-- A path from its end on, without the separators and dots there that are no components. -/
def trimBack : Text → Text
  | '/' :: c :: rest => trimBack (c :: rest)
  | '.' :: '/' :: rest => trimBack ('/' :: rest)
  | path => path

/-- `Path::parent`. -/
def parent (path : Text) : Option Text :=
  match (components path).getLast? with
  | none | some .rootDir => none
  | some _ => some (trimBack ((trimBack path.reverse).dropWhile (· ≠ '/'))).reverse

/-- `Path::join` with a file name. -/
def join (path name : Text) : Text := if path.getLast? = some '/' ∨ path = [] then path ++ name else path ++ '/' :: name

def isNormal : Component → Bool
  | .normal _ => true
  | _ => false

/-! ## Manifests -/

/-- `lower_hex`. -/
def lowerHex (bytes : Bytes) : Text :=
  bytes.flatMap fun byte => [Types.hexDigit (byte.toNat / 16), Types.hexDigit (byte.toNat % 16)]

theorem hexDigit_inj {d e : Nat} (hd : d < 16) (he : e < 16) (h : Types.hexDigit d = Types.hexDigit e) : d = e := by
  have all : ∀ d < 16, ∀ e < 16, Types.hexDigit d = Types.hexDigit e → d = e := by decide
  exact all d hd e he h

theorem lowerHex_injective : Function.Injective lowerHex := by
  intro bytes bytes' h
  induction bytes generalizing bytes' with
  | nil =>
    cases bytes' with
    | nil => rfl
    | cons byte' bytes' => cases h
  | cons byte bytes ih =>
    cases bytes' with
    | nil => cases h
    | cons byte' bytes' =>
      rw [lowerHex, lowerHex, List.flatMap_cons, List.flatMap_cons] at h
      obtain ⟨high, rest⟩ := List.cons.inj h
      obtain ⟨low, rest⟩ := List.cons.inj rest
      have bound := byte.toNat_lt
      have bound' := byte'.toNat_lt
      have high' := hexDigit_inj (by omega) (by omega) high
      have low' := hexDigit_inj (by omega) (by omega) low
      have same : byte = byte' := UInt8.toNat.inj (by omega)
      rw [same, ih rest]

def digestSha256 (outside : Outside ν κ ς) (data : Bytes) : Text := lowerHex (outside.sha256 data)

/-- The length of a text in bytes. -/
def len (text : Text) : Nat := (Utf8.encode text).length

def isTargetByte (byte : UInt8) : Bool :=
  (48 ≤ byte && byte ≤ 57) || (65 ≤ byte && byte ≤ 90) || (97 ≤ byte && byte ≤ 122) ||
    byte = 45 || byte = 95 || byte = 46

def isLowerHexDigit (byte : UInt8) : Bool := (48 ≤ byte && byte ≤ 57) || (97 ≤ byte && byte ≤ 102)

def validateFilename (value field : Text) : Except UpdateError Unit :=
  if value = [] ∨ 255 < len value ∨ fileName value ≠ some value ∨ (components value).length ≠ 1 then
    .error (.malformedManifest (field ++ " must be one UTF-8 filename".toList))
  else .ok ()

def validateMemberPath (value : Text) : Except UpdateError Unit :=
  if value = [] ∨ 512 < len value ∨ '\\' ∈ value ∨ value.head? = some '/' then
    .error (.malformedManifest "executable.path is not a relative portable path".toList)
  else if (components value).any fun part => !isNormal part then
    .error (.malformedManifest "executable.path contains traversal or a prefix".toList)
  else .ok ()

def validateDigest (value field : Text) : Except UpdateError Unit :=
  if len value ≠ 64 ∨ ¬ (Utf8.encode value).all isLowerHexDigit then
    .error (.malformedManifest (field ++ " must be 64 lowercase hexadecimal digits".toList))
  else .ok ()

def parseVersion (outside : Outside ν κ ς) (raw : Text) : Except UpdateError ν :=
  (outside.parse ((Str.stripPrefix ['v'] raw).getD raw)).mapError fun source => .badVersion raw source

def parseManifest (outside : Outside ν κ ς) (bytes : Bytes) : Except UpdateError (VerifiedManifest ν) := do
  let wire ← (outside.fromSlice bytes).mapError .malformedManifest
  if wire.schema ≠ 1 then
    throw (.malformedManifest ("unsupported schema ".toList ++ (toString wire.schema).toList))
  let version ← parseVersion outside wire.version
  if wire.version ≠ outside.display version then
    throw (.malformedManifest "version must be canonical semver without a v prefix".toList)
  validateFilename wire.archive "archive".toList
  validateMemberPath wire.executable.path
  validateDigest wire.archiveSha256 "archive_sha256".toList
  validateDigest wire.executable.sha256 "executable.sha256".toList
  if wire.archiveSize = 0 ∨ maxArchiveBytes < wire.archiveSize then
    throw (.malformedManifest "archive_size is outside the supported bound".toList)
  if wire.executable.size = 0 ∨ maxExecutableBytes < wire.executable.size then
    throw (.malformedManifest "executable.size is outside the supported bound".toList)
  if wire.target = [] ∨ 128 < len wire.target ∨ ¬ (Utf8.encode wire.target).all isTargetByte then
    throw (.malformedManifest "target is not a target triple".toList)
  return {
    version
    target := wire.target
    archive := wire.archive
    archiveSize := wire.archiveSize
    archiveSha256 := wire.archiveSha256
    executablePath := wire.executable.path
    executableSize := wire.executable.size
    executableSha256 := wire.executable.sha256 }

/-- Verify a Minisign signature over `data`. -/
def verify (outside : Outside ν κ ς) (data : Bytes) (publicKey signature : Text) : Except UpdateError Unit := do
  let keyText ←
    match ((Str.lines publicKey).map Str.trim).find? fun line => ['R', 'W'].isPrefixOf line with
    | some line => pure line
    | none => throw (.badSignature "public key file has no key line".toList)
  let key ← (outside.fromBase64 keyText).mapError .badSignature
  let sig ← (outside.decode (Str.trim signature)).mapError .badSignature
  (outside.verify key data sig).mapError .badSignature

/-! ## Files that are looked at -/

structure Metadata where
  isFile : Bool
  len : Nat
  deriving DecidableEq, Repr

/-- What one bounded look at a file shows: its metadata, and its bytes when it is opened and read. -/
structure Look where
  metadata : Except IoError Metadata
  bytes : Except IoError Bytes

def ioAt {α : Type} (path : Text) (result : Except IoError α) : Except UpdateError α := result.mapError (.io path)

def readBounded (path : Text) (look : Look) (limit : Nat) : Except UpdateError Bytes := do
  let metadata ← ioAt path look.metadata
  if ¬ metadata.isFile then
    throw (.unsafeDestination (path ++ " is not a regular file".toList))
  if limit < metadata.len then
    throw (.sizeMismatch "input".toList metadata.len limit)
  let whole ← ioAt path look.bytes
  let bytes := whole.take (limit + 1)
  if limit < bytes.length then
    throw (.sizeMismatch "input".toList bytes.length limit)
  return bytes

def readTextBounded (path : Text) (look : Look) (limit : Nat) : Except UpdateError Text := do
  let bytes ← readBounded path look limit
  (Str.fromUtf8 bytes).mapError fun error =>
    .malformedManifest (path ++ " is not UTF-8: ".toList ++ error.toList)

def verifyFileBinding (outside : Outside ν κ ς) (path : Text) (metadata : Except IoError Metadata) (look : Look)
    (pinnedSize : Nat) (pinnedDigest : Text) (limit : Nat) (subject : Text) : Except UpdateError Unit := do
  let metadata ← ioAt path metadata
  if ¬ metadata.isFile then
    throw (.unsafeDestination (path ++ " is not a regular file".toList))
  if metadata.len ≠ pinnedSize then
    throw (.sizeMismatch subject metadata.len pinnedSize)
  if limit < metadata.len then
    throw (.sizeMismatch subject metadata.len limit)
  let bytes ← readBounded path look limit
  let computed := digestSha256 outside bytes
  if computed ≠ pinnedDigest then
    throw (.digestMismatch subject computed pinnedDigest)

def regularFilename (path : Text) : Except UpdateError Text :=
  match fileName path with
  | some name => .ok name
  | none => .error (.malformedManifest "archive path has no UTF-8 filename".toList)

end SupraHarness.Update
