import SupraHarness.Update.Bundle

/-!
# Applying an update

The executable is staged beside the destination and renamed over it. The archive is read once for the check and
once more for the staging; the two readings have nothing to do with each other, since the file may have been
replaced in between. Every call may fail, and whatever was staged then is removed, so that the destination keeps
its bytes or has exactly the signed ones.
-/
namespace SupraHarness.Update

open Results (Ensures)

variable {ν κ ς : Type}

/-! ## The directory of the destination -/

inductive Kind where
  | file
  | directory
  | symlink (dangling : Bool)
  deriving DecidableEq, Repr

structure Node where
  kind : Kind
  identity : Nat × Nat
  bytes : Bytes
  mode : Nat
  deriving DecidableEq, Repr

/-- The entries of the directory, and the renames that came about in it. -/
structure World where
  dir : Text → Option Node
  renames : List (Text × Text)

/-- An action on the directory that may fail. -/
abbrev Act (α : Type) := ExceptT UpdateError (StateM World) α

/-- How the calls fail, those that do; a write may come to a part of its bytes before it fails. -/
structure Faults where
  lockOpen : Option IoError
  lockExclusive : Option IoError
  before : Option IoError
  stagedOpen : Option IoError
  write : Nat → Option (Nat × IoError)
  setPermissions : Option IoError
  stagedSync : Option IoError
  after : Option IoError
  rename : Option IoError
  parentOpen : Option IoError
  parentSync : Option IoError

/-- What the system gives and the program does not choose: what the parent is, the process id, and the identity of
a new file. -/
structure System where
  parentMetadata : Except IoError Kind
  process : Nat
  fresh : Text → Nat × Nat

def World.set (w : World) (name : Text) (node : Option Node) : World :=
  { w with dir := fun other => if other = name then node else w.dir other }

/-- Put bytes behind those of a file, if there is an output at all. -/
def World.append (w : World) (output : Option Text) (bytes : Bytes) : World :=
  match output with
  | none => w
  | some name => w.set name ((w.dir name).map fun node => { node with bytes := node.bytes ++ bytes })

def call (path : Text) (fault : Option IoError) : Act Unit :=
  match fault with
  | some error => throw (.io path error)
  | none => pure ()

def ofIo {α : Type} (path : Text) (result : Except IoError α) : Act α :=
  match result with
  | .error error => throw (.io path error)
  | .ok a => pure a

def ofResult {α : Type} (result : Except UpdateError α) : Act α :=
  match result with
  | .error error => throw error
  | .ok a => pure a

/-- An early return of an error. -/
def refuse (c : Prop) [Decidable c] (error : UpdateError) : Act Unit := if c then throw error else pure ()

/-- `write_all`. -/
def writeAll (archivePath output : Text) (fault : Option (Nat × IoError)) (bytes : Bytes) : Act Unit := do
  match fault with
  | some (written, error) =>
    modify fun w => w.append (some output) (bytes.take written)
    throw (.io archivePath error)
  | none => modify fun w => w.append (some output) bytes

/-- And where there is no output, nothing. -/
def writeOutput (archivePath : Text) (output : Option Text) (fault : Option (Nat × IoError)) (bytes : Bytes) :
    Act Unit :=
  match output with
  | some destination => writeAll archivePath destination fault bytes
  | none => pure ()

/-! ## Inspecting an archive -/

inductive EntryType where
  | regular
  | link
  | symlink
  | char
  | block
  | directory
  | fifo
  | other (byte : UInt8)
  deriving DecidableEq, Repr

/-- A member as the readers give it: a path that is no UTF-8 has no text, and each read of it comes to some bytes, none of
them at its end. -/
structure Entry where
  path : Except IoError (Option Text)
  entryType : EntryType
  size : Nat
  reads : List (Except IoError Bytes)

/-- One reading of an archive file. -/
structure Reading where
  opened : Option IoError
  entries : Option IoError
  items : List (Except IoError Entry)

def validateArchivePath (outside : Outside ν κ ς) (value : Text) : Except UpdateError Unit :=
  if '\\' ∈ value ∨ value.head? = some '/' then
    .error (.unsafeArchive ("non-portable member path ".toList ++ DebugText.quote outside.numbered value))
  else if (components value).any fun part => !isNormal part then
    .error (.unsafeArchive ("traversal or prefixed member path ".toList ++ DebugText.quote outside.numbered value))
  else .ok ()

/-- The loop that copies a member, with the bytes that were hashed so far. -/
def copyEntry (faults : Faults) (archivePath : Text) (manifest : VerifiedManifest ν) (output : Option Text) :
    List (Except IoError Bytes) → Nat → Bytes → Act (Nat × Bytes)
  | [], copied, hashed => pure (copied, hashed)
  | read :: reads, copied, hashed => do
    let buffer ← ofIo archivePath read
    if buffer = [] then return (copied, hashed) else
    let copied' := min (copied + buffer.length) (2 ^ 64 - 1)
    refuse (manifest.executableSize < copied' ∨ maxExecutableBytes < copied')
      (.unsafeArchive "executable exceeds its signed size".toList)
    writeOutput archivePath output (faults.write copied) buffer
    copyEntry faults archivePath manifest output reads copied' (hashed ++ buffer)

/-- The loop over the members, with their paths so far and whether the executable was found. -/
def inspectItems (outside : Outside ν κ ς) (faults : Faults) (archivePath : Text) (manifest : VerifiedManifest ν)
    (output : Option Text) : List (Except IoError Entry) → Nat → List Text → Bool → Act Bool
  | [], _, _, found => pure found
  | item :: items, index, seen, found => do
    refuse (maxArchiveEntries ≤ index) (.unsafeArchive "more than 64 entries".toList)
    let entry ← ofIo archivePath item
    let path ← ofIo archivePath entry.path
    match path with
    | none => throw (.unsafeArchive "member path is not UTF-8".toList)
    | some pathText =>
      ofResult (validateArchivePath outside pathText)
      refuse (pathText ∈ seen)
        (.unsafeArchive ("duplicate member ".toList ++ DebugText.quote outside.numbered pathText))
      refuse (entry.entryType ≠ .regular)
        (.unsafeArchive ("non-regular member ".toList ++ DebugText.quote outside.numbered pathText))
      refuse (pathText ≠ manifest.executablePath)
        (.unsafeArchive ("unsigned extra member ".toList ++ DebugText.quote outside.numbered pathText))
      refuse (found) (.unsafeArchive "executable appears more than once".toList)
      refuse (entry.size ≠ manifest.executableSize)
        (.sizeMismatch "executable".toList entry.size manifest.executableSize)
      let (copied, hashed) ← copyEntry faults archivePath manifest output entry.reads 0 []
      refuse (copied ≠ manifest.executableSize) (.sizeMismatch "executable".toList copied manifest.executableSize)
      let computed := digestSha256 outside hashed
      refuse (computed ≠ manifest.executableSha256)
        (.digestMismatch "executable".toList computed manifest.executableSha256)
      inspectItems outside faults archivePath manifest output items (index + 1) (pathText :: seen) true

def inspectArchive (outside : Outside ν κ ς) (faults : Faults) (archivePath : Text) (reading : Reading)
    (manifest : VerifiedManifest ν) (output : Option Text) : Act Unit := do
  call archivePath reading.opened
  call archivePath reading.entries
  let found ← inspectItems outside faults archivePath manifest output reading.items 0 [] false
  if ¬ found then
    throw (.unsafeArchive "signed executable member is absent".toList)

/-! ## Checking -/

/-- The files of an update and what the looks at them show. -/
structure LocalUpdate where
  archive : Text
  manifest : Text
  signature : Text
  publicKey : Text
  expectedTarget : Text
  manifestLook : Look
  signatureLook : Look
  publicKeyLook : Look
  archiveMetadata : Except IoError Metadata
  archiveLook : Look
  checked : Reading
  applied : Reading

/-- Verify a bundle without extracting it. -/
def checkLocal (outside : Outside ν κ ς) (faults : Faults) (input : LocalUpdate) : Act (VerifiedManifest ν) := do
  let manifestBytes ← ofResult (readBounded input.manifest input.manifestLook (64 * 1024))
  let signature ← ofResult (readTextBounded input.signature input.signatureLook (64 * 1024))
  let publicKey ← ofResult (readTextBounded input.publicKey input.publicKeyLook (16 * 1024))
  ofResult (verify outside manifestBytes publicKey signature)
  let manifest ← ofResult (parseManifest outside manifestBytes)
  refuse (manifest.target ≠ input.expectedTarget) (.targetMismatch manifest.target input.expectedTarget)
  let actualName ← ofResult (regularFilename input.archive)
  refuse (manifest.archive ≠ actualName) (.archiveMismatch manifest.archive actualName)
  ofResult (verifyFileBinding outside input.archive input.archiveMetadata input.archiveLook manifest.archiveSize
    manifest.archiveSha256 maxArchiveBytes "archive".toList)
  inspectArchive outside faults input.archive input.checked manifest none
  return manifest

/-! ## Replacing -/

/-- `destination_identity`: what `symlink_metadata` shows of the entry. -/
def destinationIdentity (fault : Option IoError) (path name : Text) : Act (Option (Nat × Nat)) := do
  let w ← get
  match fault, w.dir name with
  | some .notFound, _ | none, none => return none
  | some error, _ => throw (.io path error)
  | none, some node =>
    if node.kind = .file then return some node.identity
    else throw (.unsafeDestination (path ++ " is not a regular file".toList))

/-- `Path::exists`, which follows links. -/
def nodeExists (node : Option Node) : Bool := node.any fun node => node.kind ≠ .symlink true

def stagingName (name : Text) (process nonce : Nat) : Text :=
  '.' :: name ++ ".update.".toList ++ (toString process).toList ++ '.' :: (toString nonce).toList

/-- `create_staging_path`: the first of the names that nothing exists under. -/
def createStagingName (system : System) (name : Text) : Act Text := do
  let w ← get
  match (List.range 128).find? fun nonce => !nodeExists (w.dir (stagingName name system.process nonce)) with
  | some nonce => return stagingName name system.process nonce
  | none => throw (.unsafeDestination "could not allocate a same-directory staging name".toList)

def lockName (name : Text) : Text := '.' :: name ++ ".update.lock".toList

def regular (system : System) (name : Text) (mode : Nat) : Node := ⟨.file, system.fresh name, [], mode⟩

/-- Open the lock file, or create it. -/
def openLock (system : System) (faults : Faults) (lockPath name : Text) : Act Unit := do
  call lockPath faults.lockOpen
  modify fun w => if w.dir name = none then w.set name (some (regular system name 0o600)) else w

/-- Open with `create_new`. -/
def openStaged (system : System) (faults : Faults) (stagedPath staged : Text) : Act Unit := do
  call stagedPath faults.stagedOpen
  let w ← get
  if w.dir staged = none then set (w.set staged (some (regular system staged 0o600)))
  else throw (.io stagedPath .alreadyExists)

/-- The closure that fills the staged file and renames it over the destination. -/
def replace (outside : Outside ν κ ς) (faults : Faults) (archive : Text) (reading : Reading)
    (manifest : VerifiedManifest ν) (installPath parentPath name staged : Text) (before : Option (Nat × Nat)) :
    Act Unit := do
  let stagedPath := join parentPath staged
  inspectArchive outside faults archive reading manifest (some staged)
  call stagedPath faults.setPermissions
  modify fun w => w.set staged ((w.dir staged).map fun node => { node with mode := 0o755 })
  call stagedPath faults.stagedSync
  let after ← destinationIdentity faults.after installPath name
  refuse (before ≠ after) (.unsafeDestination "destination identity changed while locked".toList)
  call installPath faults.rename
  modify fun w => { (w.set name (w.dir staged)).set staged none with renames := w.renames ++ [(staged, name)] }
  call parentPath faults.parentOpen
  call parentPath faults.parentSync

/-- `apply_verified` on Unix. -/
def applyVerified (outside : Outside ν κ ς) (system : System) (faults : Faults) (archive : Text) (reading : Reading)
    (manifest : VerifiedManifest ν) (installPath : Text) : Act Unit := do
  match (parent installPath).filter (· ≠ []) with
  | none => throw (.unsafeDestination "install path must have a parent directory".toList)
  | some parentPath =>
    let kind ← ofIo parentPath system.parentMetadata
    refuse (kind ≠ .directory) (.unsafeDestination (parentPath ++ " is not a directory".toList))
    match fileName installPath with
    | none => throw (.unsafeDestination "install path must end in a UTF-8 filename".toList)
    | some name =>
      let lockPath := join parentPath (lockName name)
      openLock system faults lockPath (lockName name)
      call lockPath faults.lockExclusive
      let before ← destinationIdentity faults.before installPath name
      let staged ← createStagingName system name
      openStaged system faults (join parentPath staged) staged
      tryCatch (replace outside faults archive reading manifest installPath parentPath name staged before) fun error => do
        modify fun w => w.set staged none
        throw error

structure ApplyOutcome (ν : Type) where
  version : ν
  installPath : Text
  deriving DecidableEq, Repr

/-- Verify and apply a signed local update. -/
def applyLocal (outside : Outside ν κ ς) (system : System) (faults : Faults) (input : LocalUpdate) (installPath : Text) :
    Act (ApplyOutcome ν) := do
  let manifest ← checkLocal outside faults input
  applyVerified outside system faults input.archive input.applied manifest installPath
  return ⟨manifest.version, installPath⟩

/-! ## The directory under actions -/

@[simp] theorem World.set_same (w : World) (name : Text) (node : Option Node) : (w.set name node).dir name = node :=
  if_pos rfl

theorem World.set_other {other name : Text} (ne : other ≠ name) (w : World) (node : Option Node) :
    (w.set name node).dir other = w.dir other :=
  if_neg ne

@[simp] theorem World.set_renames (w : World) (name : Text) (node : Option Node) :
    (w.set name node).renames = w.renames := rfl

theorem World.set_set (w : World) (name : Text) (node node' : Option Node) :
    (w.set name node).set name node' = w.set name node' := by
  rw [World.set, World.set, World.set]
  congr 1
  funext other
  dsimp only
  split_ifs <;> rfl

theorem World.append_nil (w : World) (output : Option Text) : w.append output [] = w := by
  cases output with
  | none => rfl
  | some name =>
    rw [World.append, World.set]
    congr 1
    funext other
    split_ifs with same
    · rw [same]
      cases w.dir name <;> simp
    · rfl

theorem World.append_append (w : World) (output : Option Text) (bytes bytes' : Bytes) :
    (w.append output bytes).append output bytes' = w.append output (bytes ++ bytes') := by
  cases output with
  | none => rfl
  | some name =>
    rw [World.append, World.append, World.append, World.set_set, World.set_same, Option.map_map]
    congr 2
    funext node
    rw [Function.comp_apply, List.append_assoc]

section
variable {α : Type} {P : World → Prop}

theorem ensures_call (path : Text) (fault : Option IoError) :
    Ensures P (call path fault) (fun _ w => P w ∧ fault = none) (fun _ w => P w) := by
  cases fault with
  | none => exact .pure fun _ holds => ⟨holds, rfl⟩
  | some error => exact .throw fun _ holds => holds

theorem ensures_ofIo (path : Text) (result : Except IoError α) :
    Ensures P (ofIo path result) (fun a w => P w ∧ result = .ok a) (fun _ w => P w) := by
  cases result with
  | ok a => exact .pure fun _ holds => ⟨holds, rfl⟩
  | error error => exact .throw fun _ holds => holds

theorem ensures_ofResult (result : Except UpdateError α) :
    Ensures P (ofResult result) (fun a w => P w ∧ result = .ok a) (fun _ w => P w) := by
  cases result with
  | ok a => exact .pure fun _ holds => ⟨holds, rfl⟩
  | error error => exact .throw fun _ holds => holds

theorem ensures_refuse (c : Prop) [Decidable c] (error : UpdateError) :
    Ensures P (refuse c error) (fun _ w => P w ∧ ¬ c) (fun _ w => P w) := by
  rw [refuse]
  exact .ite (fun _ => .throw fun _ holds => holds) fun no => .pure fun _ holds => ⟨holds, no⟩

end

/-! ## What an inspection finds -/

/-- What the reads of a member come to, if none of them fails. -/
def contentOf : List (Except IoError Bytes) → Option Bytes
  | [] => some []
  | .error _ :: _ => none
  | .ok bytes :: reads => if bytes = [] then some [] else (contentOf reads).map (bytes ++ ·)

/-- The archive holds one member, a regular file at the signed path with the signed size and digest. -/
structure Sole (outside : Outside ν κ ς) (manifest : VerifiedManifest ν) (reading : Reading) (member : Bytes) :
    Prop where
  items : ∃ entry, reading.items = [.ok entry] ∧ entry.entryType = .regular ∧
    entry.path = .ok (some manifest.executablePath) ∧ entry.size = member.length ∧ contentOf entry.reads = some member
  size : member.length = manifest.executableSize
  digest : lowerHex (outside.sha256 member) = manifest.executableSha256

theorem ensures_writeOutput (archivePath : Text) (output : Option Text) (fault : Option (Nat × IoError)) (bytes : Bytes)
    (w₀ : World) : Ensures (· = w₀) (writeOutput archivePath output fault bytes) (fun _ w => w = w₀.append output bytes)
      (fun _ w => ∃ part, w = w₀.append output part) := by
  cases output with
  | none => exact .pure fun _ same => same
  | some destination =>
    cases fault with
    | none =>
      intro w same
      rw [same]
      rfl
    | some fault =>
      intro w same
      rw [same]
      exact ⟨bytes.take fault.1, rfl⟩

/-- The copy of a member hashes and writes what its reads come to. -/
theorem ensures_copyEntry (faults : Faults) (archivePath : Text) (manifest : VerifiedManifest ν) (output : Option Text)
    (reads : List (Except IoError Bytes)) (hashed : Bytes) (w₀ : World) :
    Ensures (· = w₀) (copyEntry faults archivePath manifest output reads hashed.length hashed)
      (fun result w => ∃ more, contentOf reads = some more ∧ result = ((hashed ++ more).length, hashed ++ more) ∧
        w = w₀.append output more)
      (fun _ w => ∃ part, w = w₀.append output part) := by
  induction reads generalizing hashed w₀ with
  | nil =>
    refine .pure fun w same => ⟨[], rfl, ?_, ?_⟩
    · rw [List.append_nil]
    · rw [same, World.append_nil]
  | cons read reads ih =>
    rw [copyEntry]
    have unchanged : ∃ part, w₀ = w₀.append output part := ⟨[], (World.append_nil _ _).symm⟩
    refine .check (ensures_ofIo archivePath read) (fun _ => unchanged) fun buffer found => ?_
    refine .ite (fun empty => ?_) fun some => ?_
    · refine .pure fun w same => ⟨[], ?_, ?_, ?_⟩
      · rw [found, contentOf, if_pos empty]
      · rw [List.append_nil]
      · rw [same, World.append_nil]
    · refine .check (ensures_refuse _ _) (fun _ => unchanged) fun _ room => ?_
      have counted : min (hashed.length + buffer.length) (2 ^ 64 - 1) = (hashed ++ buffer).length := by
        have bound := Nat.not_lt.1 (not_or.1 room).2
        rw [maxExecutableBytes] at bound
        rw [List.length_append]
        omega
      refine .bind (ensures_writeOutput archivePath output (faults.write hashed.length) buffer w₀) fun _ => ?_
      rw [counted]
      refine (ih (hashed ++ buffer) (w₀.append output buffer)).conseq (fun _ same => same) ?_ ?_
      · rintro _ w ⟨more, comes, rfl, rfl⟩
        refine ⟨buffer ++ more, ?_, by rw [List.append_assoc], World.append_append _ _ _ _⟩
        rw [found, contentOf, if_neg some, comes]
        rfl
      · rintro _ w ⟨part, rfl⟩
        exact ⟨buffer ++ part, World.append_append _ _ _ _⟩

/-- Behind the executable there is nothing. -/
theorem ensures_inspectItems_found (outside : Outside ν κ ς) (faults : Faults) (archivePath : Text)
    (manifest : VerifiedManifest ν) (output : Option Text) (items : List (Except IoError Entry)) (index : Nat)
    (seen : List Text) (w₀ : World) :
    Ensures (· = w₀) (inspectItems outside faults archivePath manifest output items index seen true)
      (fun found w => found = true ∧ items = [] ∧ w = w₀) (fun _ w => w = w₀) := by
  cases items with
  | nil => exact .pure fun w same => ⟨rfl, rfl, same⟩
  | cons item items =>
    rw [inspectItems]
    refine .check (ensures_refuse _ _) (fun _ => rfl) fun _ _ => ?_
    refine .check (ensures_ofIo _ _) (fun _ => rfl) fun entry _ => ?_
    refine .check (ensures_ofIo _ _) (fun _ => rfl) fun path _ => ?_
    cases path with
    | none => exact .throw fun _ same => same
    | some pathText =>
      dsimp only
      refine .check (ensures_ofResult _) (fun _ => rfl) fun _ _ => ?_
      refine .check (ensures_refuse _ _) (fun _ => rfl) fun _ _ => ?_
      refine .check (ensures_refuse _ _) (fun _ => rfl) fun _ _ => ?_
      refine .check (ensures_refuse _ _) (fun _ => rfl) fun _ _ => ?_
      refine .check (ensures_refuse _ _) (fun _ => rfl) fun _ never => ?_
      exact absurd rfl never

theorem ensures_inspectItems (outside : Outside ν κ ς) (faults : Faults) (archivePath : Text)
    (manifest : VerifiedManifest ν) (output : Option Text) (reading : Reading) (w₀ : World) :
    Ensures (· = w₀) (inspectItems outside faults archivePath manifest output reading.items 0 [] false)
      (fun found w => if found then ∃ member, Sole outside manifest reading member ∧ w = w₀.append output member
        else w = w₀)
      (fun _ w => ∃ part, w = w₀.append output part) := by
  have unchanged : ∃ part, w₀ = w₀.append output part := ⟨[], (World.append_nil _ _).symm⟩
  cases held : reading.items with
  | nil => exact .pure fun _ same => same
  | cons item items =>
    rw [inspectItems]
    refine .check (ensures_refuse _ _) (fun _ => unchanged) fun _ _ => ?_
    refine .check (ensures_ofIo _ _) (fun _ => unchanged) fun entry read => ?_
    refine .check (ensures_ofIo _ _) (fun _ => unchanged) fun path named => ?_
    cases path with
    | none => exact .throw fun w same => same ▸ unchanged
    | some pathText =>
      dsimp only
      refine .check (ensures_ofResult _) (fun _ => unchanged) fun _ _ => ?_
      refine .check (ensures_refuse _ _) (fun _ => unchanged) fun _ _ => ?_
      refine .check (ensures_refuse _ _) (fun _ => unchanged) fun _ file => ?_
      refine .check (ensures_refuse _ _) (fun _ => unchanged) fun _ signed => ?_
      refine .check (ensures_refuse _ _) (fun _ => unchanged) fun _ _ => ?_
      refine .check (ensures_refuse _ _) (fun _ => unchanged) fun _ sized => ?_
      refine .bind (ensures_copyEntry faults archivePath manifest output entry.reads [] w₀) fun result => .each ?_
      rintro w ⟨member, comes, rfl, rfl⟩
      dsimp only
      have written : ∃ part, w₀.append output member = w₀.append output part := ⟨member, rfl⟩
      refine .check (ensures_refuse _ _) (fun _ => written) fun _ whole => ?_
      refine .check (ensures_refuse _ _) (fun _ => written) fun _ pinned => ?_
      refine (ensures_inspectItems_found outside faults archivePath manifest output items 1 [pathText] _).conseq
        (fun _ same => same) ?_ fun _ w same => same ▸ written
      rintro found w ⟨rfl, last, rfl⟩
      rw [List.nil_append] at whole pinned
      have size := not_not.1 whole
      refine ⟨member, ⟨⟨entry, ?_, not_not.1 file, ?_, ?_, comes⟩, size, not_not.1 pinned⟩, rfl⟩
      · rw [held, read, last]
      · rw [named, not_not.1 signed]
      · rw [not_not.1 sized, size]

theorem ensures_inspectArchive (outside : Outside ν κ ς) (faults : Faults) (archivePath : Text) (reading : Reading)
    (manifest : VerifiedManifest ν) (output : Option Text) (w₀ : World) :
    Ensures (· = w₀) (inspectArchive outside faults archivePath reading manifest output)
      (fun _ w => ∃ member, Sole outside manifest reading member ∧ w = w₀.append output member)
      (fun _ w => ∃ part, w = w₀.append output part) := by
  have unchanged : ∃ part, w₀ = w₀.append output part := ⟨[], (World.append_nil _ _).symm⟩
  rw [inspectArchive]
  refine .check (ensures_call _ _) (fun _ => unchanged) fun _ _ => ?_
  refine .check (ensures_call _ _) (fun _ => unchanged) fun _ _ => ?_
  refine .bind (ensures_inspectItems outside faults archivePath manifest output reading w₀) fun found => .each ?_
  intro w holds
  refine .ite (fun no => .throw fun w' same => ?_) fun yes => .pure fun w' same => ?_
  · rw [if_neg no] at holds
    rw [same, holds]
    exact unchanged
  · rw [if_pos (not_not.1 yes)] at holds
    rwa [same]

/-- Without an output nothing is written. -/
theorem ensures_inspectArchive_none (outside : Outside ν κ ς) (faults : Faults) (archivePath : Text) (reading : Reading)
    (manifest : VerifiedManifest ν) (w₀ : World) :
    Ensures (· = w₀) (inspectArchive outside faults archivePath reading manifest none)
      (fun _ w => w = w₀ ∧ ∃ member, Sole outside manifest reading member) (fun _ w => w = w₀) := by
  refine (ensures_inspectArchive outside faults archivePath reading manifest none w₀).conseq (fun _ same => same) ?_ ?_
  · rintro _ w ⟨member, sole, rfl⟩
    exact ⟨rfl, member, sole⟩
  · rintro _ w ⟨part, rfl⟩
    rfl

/-- A check leaves the directory alone, and what it returns is what the signed bytes come to. -/
theorem ensures_checkLocal (outside : Outside ν κ ς) (faults : Faults) (input : LocalUpdate) (w₀ : World) :
    Ensures (· = w₀) (checkLocal outside faults input)
      (fun manifest w => w = w₀ ∧ ∃ bytes publicKey signature, verify outside bytes publicKey signature = .ok () ∧
        parseManifest outside bytes = .ok manifest)
      (fun _ w => w = w₀) := by
  rw [checkLocal]
  refine .check (ensures_ofResult _) (fun _ => rfl) fun bytes _ => ?_
  refine .check (ensures_ofResult _) (fun _ => rfl) fun signature _ => ?_
  refine .check (ensures_ofResult _) (fun _ => rfl) fun publicKey _ => ?_
  refine .check (ensures_ofResult _) (fun _ => rfl) fun _ verified => ?_
  refine .check (ensures_ofResult _) (fun _ => rfl) fun manifest parsed => ?_
  refine .check (ensures_refuse _ _) (fun _ => rfl) fun _ _ => ?_
  refine .check (ensures_ofResult _) (fun _ => rfl) fun _ _ => ?_
  refine .check (ensures_refuse _ _) (fun _ => rfl) fun _ _ => ?_
  refine .check (ensures_ofResult _) (fun _ => rfl) fun _ _ => ?_
  refine .check (ensures_inspectArchive_none _ _ _ _ _ _) (fun _ => rfl) fun _ _ => ?_
  exact .pure fun _ same => ⟨same, bytes, publicKey, signature, verified, parsed⟩

/-! ## What a replacement leaves behind -/

/-- The name of the destination in its directory. -/
def destination (installPath : Text) : Text := (fileName installPath).getD []

/-- All but the lock file is as it was. -/
structure Untouched (name : Text) (w₀ w : World) : Prop where
  renames : w.renames = w₀.renames
  dir : ∀ other, other ≠ lockName name → w.dir other = w₀.dir other

/-- The destination holds these bytes, as an executable of its own, and all others but the lock file are as they were. -/
structure Replaced (name : Text) (bytes : Bytes) (w₀ w : World) : Prop where
  renames : ∃ staged, w₀.dir staged = none ∧ w.renames = w₀.renames ++ [(staged, name)]
  holds : ∃ node, w.dir name = some node ∧ node.kind = .file ∧ node.bytes = bytes ∧ node.mode = 0o755
  dir : ∀ other, other ≠ lockName name → other ≠ name → w.dir other = w₀.dir other

theorem ensures_destinationIdentity (fault : Option IoError) (path name : Text) (w₀ : World) :
    Ensures (· = w₀) (destinationIdentity fault path name) (fun _ w => w = w₀ ∧ True) (fun _ w => w = w₀) := by
  rw [destinationIdentity]
  refine .look ?_
  cases fault with
  | none =>
    cases w₀.dir name with
    | none => exact .pure fun _ same => ⟨same, trivial⟩
    | some node => exact .ite (fun _ => .pure fun _ same => ⟨same, trivial⟩) fun _ => .throw fun _ same => same
  | some error =>
    cases error with
    | notFound => exact .pure fun _ same => ⟨same, trivial⟩
    | alreadyExists => exact .throw fun _ same => same
    | other text => exact .throw fun _ same => same

theorem ensures_createStagingName (system : System) (name : Text) (w₀ : World) :
    Ensures (· = w₀) (createStagingName system name)
      (fun staged w => w = w₀ ∧ ∃ nonce, staged = stagingName name system.process nonce) (fun _ w => w = w₀) := by
  rw [createStagingName]
  refine .look ?_
  split
  · exact .pure fun _ same => ⟨same, _, rfl⟩
  · exact .throw fun _ same => same

theorem ensures_openLock (system : System) (faults : Faults) (lockPath name : Text) (w₀ : World) :
    Ensures (· = w₀) (openLock system faults lockPath (lockName name))
      (fun _ w => Untouched name w₀ w ∧ w.dir (lockName name) ≠ none) (fun _ w => w = w₀) := by
  rw [openLock]
  refine .check (ensures_call _ _) (fun _ => rfl) fun _ _ => .update ?_
  split_ifs with absent
  · refine ⟨⟨rfl, fun other ne => World.set_other ne _ _⟩, ?_⟩
    rw [World.set_same]
    exact nofun
  · exact ⟨⟨rfl, fun _ _ => rfl⟩, absent⟩

theorem ensures_openStaged (system : System) (faults : Faults) (stagedPath staged : Text) (w₀ : World) :
    Ensures (· = w₀) (openStaged system faults stagedPath staged)
      (fun _ w => w₀.dir staged = none ∧ w = w₀.set staged (some (regular system staged 0o600)))
      (fun _ w => w = w₀) := by
  rw [openStaged]
  refine .check (ensures_call _ _) (fun _ => rfl) fun _ _ => .look ?_
  refine .ite (fun absent => ?_) fun _ => .throw fun _ same => same
  exact .update ⟨absent, rfl⟩

/-- The directory in which the staged file became the destination. -/
def World.replaced (w : World) (staged name : Text) (node : Node) : World :=
  { (w.set name (some node)).set staged none with renames := w.renames ++ [(staged, name)] }

/-- The staged file is taken out of the directory as the destination is put in. -/
theorem set_replaced {name staged : Text} (ne : name ≠ staged) (w : World) (node : Node) :
    { ((w.set staged (some node)).set name ((w.set staged (some node)).dir staged)).set staged none with
      renames := (w.set staged (some node)).renames ++ [(staged, name)] } = w.replaced staged name node := by
  rw [World.set_same, World.replaced]
  refine congrArg (World.mk · _) (funext fun other => ?_)
  by_cases same : other = staged
  · rw [same, World.set_same, World.set_same]
  · rw [World.set_other same, World.set_other same]
    by_cases at_name : other = name
    · rw [at_name, World.set_same, World.set_same]
    · rw [World.set_other at_name, World.set_other at_name, World.set_other same]

/-- From a new file on, the closure leaves it in the directory with whatever was written to it, or it became the
destination with the one member of the archive. -/
theorem ensures_replace (outside : Outside ν κ ς) (system : System) (faults : Faults) (archive : Text)
    (reading : Reading) (manifest : VerifiedManifest ν) (installPath parentPath : Text) {name staged : Text} (ne : name ≠ staged)
    (before : Option (Nat × Nat)) (w₀ : World) :
    Ensures (· = w₀.set staged (some (regular system staged 0o600)))
      (replace outside faults archive reading manifest installPath parentPath name staged before)
      (fun _ w => ∃ member, Sole outside manifest reading member ∧
        w = w₀.replaced staged name { regular system staged 0o755 with bytes := member })
      (fun _ w => (∃ node, w = w₀.set staged (some node)) ∨ ∃ member, Sole outside manifest reading member ∧
        w = w₀.replaced staged name { regular system staged 0o755 with bytes := member }) := by
  rw [replace]
  dsimp only
  have appended (part : Bytes) : (w₀.set staged (some (regular system staged 0o600))).append (some staged) part =
      w₀.set staged (some { regular system staged 0o600 with bytes := part }) := by
    rw [World.append, World.set_set, World.set_same]
    rfl
  refine .bind ((ensures_inspectArchive outside faults archive reading manifest (some staged) _).conseq
    (fun _ same => same) (fun _ _ holds => holds) ?_) fun _ => .each ?_
  · rintro _ w ⟨part, rfl⟩
    exact .inl ⟨_, appended part⟩
  rintro w ⟨member, sole, rfl⟩
  rw [appended]
  refine .check (ensures_call _ _) (fun _ => .inl ⟨_, rfl⟩) fun _ _ => ?_
  refine .update_bind ?_
  rw [World.set_same, World.set_set, Option.map_some]
  refine .check (ensures_call _ _) (fun _ => .inl ⟨_, rfl⟩) fun _ _ => ?_
  refine .check (ensures_destinationIdentity _ _ _ _) (fun _ => .inl ⟨_, rfl⟩) fun after _ => ?_
  refine .check (ensures_refuse _ _) (fun _ => .inl ⟨_, rfl⟩) fun _ _ => ?_
  refine .check (ensures_call _ _) (fun _ => .inl ⟨_, rfl⟩) fun _ _ => ?_
  refine .update_bind ?_
  have done : ∃ member, Sole outside manifest reading member ∧
      _ = w₀.replaced staged name { regular system staged 0o755 with bytes := member } :=
    ⟨member, sole, set_replaced ne w₀ _⟩
  refine .check (ensures_call _ _) (fun _ => .inr done) fun _ _ => ?_
  refine (ensures_call _ _).conseq (fun _ same => same) ?_ ?_
  · rintro _ w ⟨rfl, -⟩
    exact done
  · rintro _ w rfl
    exact .inr done

/-- Once it is taken out, a staged file has left nothing behind. -/
theorem untouched_set {name staged : Text} {w₀ w : World} (locked : Untouched name w₀ w) (absent : w.dir staged = none) :
    Untouched name w₀ (w.set staged none) := by
  refine ⟨locked.renames, fun other ne_lock => ?_⟩
  by_cases same : other = staged
  · rw [same, World.set_same, ← absent, ← same, locked.dir other ne_lock]
  · rw [World.set_other same, locked.dir other ne_lock]

theorem replaced_set (w : World) (staged name : Text) (node : Node) :
    (w.replaced staged name node).set staged none = w.replaced staged name node := by
  refine congrArg (World.mk · _) (funext fun other => ?_)
  by_cases same : other = staged
  · rw [if_pos same, same]
    exact (World.set_same _ _ _).symm
  · rw [if_neg same]
    rfl

/-- What was renamed over the destination replaced it. -/
theorem replaced_replaced {name staged : Text} {w₀ w : World} (locked : Untouched name w₀ w)
    (lock : w.dir (lockName name) ≠ none) (absent : w.dir staged = none) (ne : name ≠ staged) (node : Node)
    (file : node.kind = .file) (mode : node.mode = 0o755) :
    Replaced name node.bytes w₀ (w.replaced staged name node) := by
  have other_lock : staged ≠ lockName name := fun same => lock (same ▸ absent)
  refine ⟨⟨staged, ?_, ?_⟩, ⟨node, ?_, file, rfl, mode⟩, fun other ne_lock ne_name => ?_⟩
  · rw [← locked.dir staged other_lock, absent]
  · rw [World.replaced, locked.renames]
  · change ((w.set name (some node)).set staged none).dir name = _
    rw [World.set_other ne, World.set_same]
  · change ((w.set name (some node)).set staged none).dir other = _
    by_cases same : other = staged
    · rw [same, World.set_same, ← locked.dir staged other_lock, absent]
    · rw [World.set_other same, World.set_other ne_name, locked.dir other ne_lock]

/-- The names that files are staged under are longer. -/
theorem ne_stagingName (name : Text) (process nonce : Nat) : name ≠ stagingName name process nonce := by
  intro same
  have length := congrArg List.length same
  rw [stagingName] at length
  simp only [List.length_append, List.length_cons] at length
  omega

theorem ne_lockName (name : Text) : name ≠ lockName name := by
  intro same
  have length := congrArg List.length same
  rw [lockName] at length
  simp only [List.length_append, List.length_cons] at length
  omega

/-- Whatever fails, the directory is untouched, or the one member of the archive that was applied replaced the
destination. -/
theorem ensures_applyVerified (outside : Outside ν κ ς) (system : System) (faults : Faults) (archive : Text)
    (reading : Reading) (manifest : VerifiedManifest ν) (installPath : Text) (w₀ : World) :
    Ensures (· = w₀) (applyVerified outside system faults archive reading manifest installPath)
      (fun _ w => ∃ member, Sole outside manifest reading member ∧ Replaced (destination installPath) member w₀ w)
      (fun _ w => Untouched (destination installPath) w₀ w ∨
        ∃ member, Sole outside manifest reading member ∧ Replaced (destination installPath) member w₀ w) := by
  have still : Untouched (destination installPath) w₀ w₀ := ⟨rfl, fun _ _ => rfl⟩
  rw [applyVerified]
  cases (parent installPath).filter (· ≠ []) with
  | none => exact .throw fun w same => .inl (same ▸ still)
  | some parentPath =>
    dsimp only
    refine .check (ensures_ofIo _ _) (fun _ => .inl still) fun kind _ => ?_
    refine .check (ensures_refuse _ _) (fun _ => .inl still) fun _ _ => ?_
    cases named : fileName installPath with
    | none => exact .throw fun w same => .inl (same ▸ still)
    | some name =>
      have called : destination installPath = name := by rw [destination, named]; rfl
      rw [called] at still ⊢
      dsimp only
      refine .bind ((ensures_openLock system faults _ name w₀).conseq (fun _ same => same) (fun _ _ both => both)
        fun _ w same => .inl (same ▸ still)) fun _ => .each ?_
      rintro w ⟨locked, lock⟩
      refine .check (ensures_call _ _) (fun _ => .inl locked) fun _ _ => ?_
      refine .check (ensures_destinationIdentity _ _ _ _) (fun _ => .inl locked) fun before _ => ?_
      refine .check (ensures_createStagingName _ _ _) (fun _ => .inl locked) fun staged from_ => ?_
      obtain ⟨nonce, rfl⟩ := from_
      have ne := ne_stagingName name system.process nonce
      refine .bind ((ensures_openStaged system faults _ _ w).conseq (fun _ same => same) (fun _ _ both => both)
        fun _ w same => .inl (same ▸ locked)) fun _ => .each ?_
      rintro w' ⟨absent, rfl⟩
      have replaced (member : Bytes) : Replaced name member w₀
          (w.replaced (stagingName name system.process nonce) name
            { regular system (stagingName name system.process nonce) 0o755 with bytes := member }) :=
        replaced_replaced locked lock absent ne { regular system _ 0o755 with bytes := member } rfl rfl
      refine .tryCatch ((ensures_replace outside system faults archive reading manifest installPath parentPath ne before
        w).conseq (fun _ same => same) ?_ fun _ _ either => either) fun error => .each ?_
      · rintro _ _ ⟨member, sole, rfl⟩
        exact ⟨member, sole, replaced member⟩
      · rintro w' (⟨node, rfl⟩ | ⟨member, sole, rfl⟩)
        · refine .update_bind (.throw fun w' same => .inl ?_)
          rw [same, World.set_set]
          exact untouched_set locked absent
        · refine .update_bind (.throw fun w' same => .inr ⟨member, sole, ?_⟩)
          rw [same, replaced_set]
          exact replaced member

/-- The member of an archive with the digest of the executable is the executable. -/
theorem Sole.eq {outside : Outside ν κ ς} {manifest : VerifiedManifest ν} {reading : Reading} {member exe : Bytes}
    (sole : Sole outside manifest reading member) (pinned : digestSha256 outside exe = manifest.executableSha256)
    (collisionFree : ∀ bytes, outside.sha256 bytes = outside.sha256 exe → bytes = exe) : member = exe :=
  collisionFree member (lowerHex_injective (sole.digest.trans pinned.symm))

section
variable (outside : Outside ν κ ς) (system : System) (faults : Faults) (input : LocalUpdate) (installPath : Text)
  (w₀ : World) {exe : Bytes} (Signed : Bytes → Prop)
  (unforgeable : ∀ bytes publicKey signature, verify outside bytes publicKey signature = .ok () → Signed bytes)
  (describes : ∀ bytes manifest, Signed bytes → parseManifest outside bytes = .ok manifest →
    digestSha256 outside exe = manifest.executableSha256)
  (collisionFree : ∀ bytes, outside.sha256 bytes = outside.sha256 exe → bytes = exe)
include unforgeable describes collisionFree

theorem ensures_applyLocal : Ensures (· = w₀) (applyLocal outside system faults input installPath)
    (fun _ w => Replaced (destination installPath) exe w₀ w)
    (fun _ w => Untouched (destination installPath) w₀ w ∨ Replaced (destination installPath) exe w₀ w) := by
  have still : Untouched (destination installPath) w₀ w₀ := ⟨rfl, fun _ _ => rfl⟩
  rw [applyLocal]
  refine .check (ensures_checkLocal _ _ _ _) (fun _ => .inl still) fun manifest signed => ?_
  obtain ⟨bytes, publicKey, signature, verified, parsed⟩ := signed
  have pinned := describes bytes manifest (unforgeable _ _ _ verified) parsed
  refine .bind ((ensures_applyVerified outside system faults input.archive input.applied manifest installPath w₀).conseq
    (fun _ same => same) (fun _ _ holds => holds) ?_) fun _ => .each ?_
  · rintro _ w (untouched | ⟨member, sole, replaced⟩)
    · exact .inl untouched
    · exact .inr (sole.eq pinned collisionFree ▸ replaced)
  · rintro w ⟨member, sole, replaced⟩
    exact .pure fun w' same => same ▸ sole.eq pinned collisionFree ▸ replaced

/-- An inspection succeeds only on an archive with the one signed member, and has written that member then. An
update that is applied put the signed executable in place of the destination; one that fails left everything but its
lock file as it was unless the destination was renamed over, and then it holds the signed executable. This is so
whatever the archive holds when it is read again. -/
theorem update_is_whole :
    (∀ path reading manifest output w,
      (inspectArchive outside faults path reading manifest output).run.run w₀ = (.ok (), w) →
        ∃ member, Sole outside manifest reading member ∧ w = w₀.append output member) ∧
    (∀ outcome w, (applyLocal outside system faults input installPath).run.run w₀ = (.ok outcome, w) →
      Replaced (destination installPath) exe w₀ w) ∧
    (∀ error w, (applyLocal outside system faults input installPath).run.run w₀ = (.error error, w) →
      (w.renames = w₀.renames → Untouched (destination installPath) w₀ w ∧
          w.dir (destination installPath) = w₀.dir (destination installPath)) ∧
        (w.renames ≠ w₀.renames → Replaced (destination installPath) exe w₀ w)) := by
  have applied := ensures_applyLocal outside system faults input installPath w₀ Signed unforgeable describes
    collisionFree w₀ rfl
  refine ⟨fun path reading manifest output w ran => ?_, fun outcome w ran => ?_, fun error w ran => ?_⟩
  · have inspected := ensures_inspectArchive outside faults path reading manifest output w₀ w₀ rfl
    rw [ran] at inspected
    exact inspected
  · rw [ran] at applied
    exact applied
  · rw [ran] at applied
    rcases applied with untouched | replaced
    · exact ⟨fun _ => ⟨untouched, untouched.dir _ (ne_lockName _)⟩,
        fun renamed => absurd untouched.renames renamed⟩
    · obtain ⟨staged, -, renamed⟩ := replaced.renames
      refine ⟨fun same => ?_, fun _ => replaced⟩
      rw [renamed] at same
      exact absurd same (by simp)

end

/-! ## An update -/

def sampleExecutable : Bytes := List.replicate 32 7

def sampleArchive : Bytes := List.replicate 32 9

def sampleManifest : Bytes := [123, 125]

def sampleWire : ManifestWire :=
  ⟨1, "1.2.3".toList, "x86_64-unknown-linux-gnu".toList, "supra.tar.gz".toList, 32, lowerHex sampleArchive,
    ⟨"bin/supra".toList, 32, lowerHex sampleExecutable⟩⟩

/-- One manifest is signed, and digests are the bytes themselves. -/
def sampleOutside : Outside Text Text Text where
  fromSlice bytes := if bytes = sampleManifest then .ok sampleWire else .error []
  parse raw := .ok raw
  display version := version
  fromBase64 text := .ok text
  decode text := .ok text
  verify _ data _ := if data = sampleManifest then .ok () else .error []
  sha256 bytes := bytes
  numbered _ := false

theorem exists_verify {outside : Outside ν κ ς} {data : Bytes} {publicKey signature : Text}
    (h : verify outside data publicKey signature = .ok ()) : ∃ key sig, outside.verify key data sig = .ok () := by
  rw [verify] at h
  split at h
  · obtain ⟨keyText, -, h⟩ := Results.bind_eq_ok.1 h
    obtain ⟨key, -, h⟩ := Results.bind_eq_ok.1 h
    obtain ⟨sig, -, h⟩ := Results.bind_eq_ok.1 h
    exact ⟨key, sig, Results.mapError_eq_ok.1 h⟩
  · obtain ⟨keyText, never, -⟩ := Results.bind_eq_ok.1 h
    cases never

def sampleFaults : Faults := ⟨none, none, none, none, fun _ => none, none, none, none, none, none, some (.other [])⟩

def sampleSystem : System := ⟨.ok .directory, 7, fun _ => (1, 2)⟩

def sampleLook (bytes : Bytes) : Look := ⟨.ok ⟨true, bytes.length⟩, .ok bytes⟩

/-- What is read again is the executable, but in other pieces. -/
def sampleUpdate : LocalUpdate where
  archive := "/tmp/supra.tar.gz".toList
  manifest := "/tmp/manifest".toList
  signature := "/tmp/signature".toList
  publicKey := "/tmp/key".toList
  expectedTarget := "x86_64-unknown-linux-gnu".toList
  manifestLook := sampleLook sampleManifest
  signatureLook := sampleLook []
  publicKeyLook := sampleLook (Utf8.encode "RWkey".toList)
  archiveMetadata := .ok ⟨true, 32⟩
  archiveLook := sampleLook sampleArchive
  checked := ⟨none, none, [.ok ⟨.ok (some "bin/supra".toList), .regular, 32, [.ok sampleExecutable]⟩]⟩
  applied := ⟨none, none, [.ok ⟨.ok (some "bin/supra".toList), .regular, 32, [.ok [7], .ok (List.replicate 31 7)]⟩]⟩

def sampleWorld : World :=
  ⟨fun name => if name = "supra".toList then some ⟨.file, (1, 1), [0], 0o755⟩ else none, []⟩

theorem update_is_whole_sample :
    (∀ path reading manifest output w,
      (inspectArchive sampleOutside sampleFaults path reading manifest output).run.run sampleWorld = (.ok (), w) →
        ∃ member, Sole sampleOutside manifest reading member ∧ w = sampleWorld.append output member) ∧
    (∀ outcome w, (applyLocal sampleOutside sampleSystem sampleFaults sampleUpdate "/usr/bin/supra".toList).run.run
        sampleWorld = (.ok outcome, w) →
      Replaced (destination "/usr/bin/supra".toList) sampleExecutable sampleWorld w) ∧
    (∀ error w, (applyLocal sampleOutside sampleSystem sampleFaults sampleUpdate "/usr/bin/supra".toList).run.run
        sampleWorld = (.error error, w) →
      (w.renames = sampleWorld.renames → Untouched (destination "/usr/bin/supra".toList) sampleWorld w ∧
          w.dir (destination "/usr/bin/supra".toList) = sampleWorld.dir (destination "/usr/bin/supra".toList)) ∧
        (w.renames ≠ sampleWorld.renames →
          Replaced (destination "/usr/bin/supra".toList) sampleExecutable sampleWorld w)) := by
  refine update_is_whole sampleOutside sampleSystem sampleFaults sampleUpdate "/usr/bin/supra".toList sampleWorld
    (fun bytes => bytes = sampleManifest) ?_ ?_ fun bytes same => same
  · intro bytes publicKey signature verified
    obtain ⟨key, sig, verified⟩ := exists_verify verified
    dsimp only [sampleOutside] at verified
    split_ifs at verified with same
    exact same
  · rintro bytes manifest rfl parsed
    have read : parseManifest sampleOutside sampleManifest = .ok ⟨"1.2.3".toList, "x86_64-unknown-linux-gnu".toList,
        "supra.tar.gz".toList, 32, lowerHex sampleArchive, "bin/supra".toList, 32, lowerHex sampleExecutable⟩ := rfl
    rw [read] at parsed
    cases parsed
    rfl

/-- When the directory cannot be synced the update fails, though the destination was replaced. -/
example : (match ((applyLocal sampleOutside sampleSystem sampleFaults sampleUpdate "/usr/bin/supra".toList).run.run
    sampleWorld).run with
    | (.error error, w) => decide (error = .io "/usr/bin".toList (.other []) ∧
      w.renames = [(".supra.update.7.0".toList, "supra".toList)])
    | _ => false) = true := by
  decide +kernel

end SupraHarness.Update
