import SupraHarness.Journal.Schema
import SupraHarness.Lib.Inodes
import SupraHarness.Lib.Run

/-!
# Snapshots and undos, one system call at a time

Snapshots read a file through a descriptor and check before and after the read
that the resolved path still names it. An undo holds the store's lock from the
read of its row to the commit of its mark; in between it writes the bytes to an
exclusively created sibling of the target and renames that over the target.
Other programs edit files between any two calls, except the private temporary
file of the undo under way. Every call can fail, and the process can be killed.
-/
namespace SupraHarness.Journal

open SupraHarness.Types SupraHarness.Store SupraHarness.Inodes

/-! ## Paths -/

abbrev Path := Bytes

def utf8 (text : String) : Bytes := text.toByteArray.data.toList

def separator : UInt8 := 47

/-- What stands after the last separator. -/
def lastName (path : Path) : Bytes := (path.reverse.takeWhile (· ≠ separator)).reverse

/-- `Path::parent` of a path as `canonicalize` answers it. -/
def parent (path : Path) : Option Path :=
  if path = [] ∨ path = [separator] then none
  else
    let lead := path.take (path.length - (lastName path).length)
    some (if lead = [separator] then lead else lead.dropLast)

/-- `Path::file_name` of a path as `canonicalize` answers it. -/
def fileName (path : Path) : Option Bytes :=
  if path = [] ∨ path = [separator] then none else some (lastName path)

def join (directory : Path) (name : Bytes) : Path :=
  if directory = [] ∨ directory.getLast? = some separator then directory ++ name
  else directory ++ separator :: name

/-- `path_text`: a path that is valid UTF-8, as text. -/
def pathText (path : Vec UInt8) : Option Str :=
  if h : (ByteArray.mk path.toList.toArray).IsValidUTF8 then some ⟨String.fromUTF8 _ h, path.fits⟩ else none

/-- The sibling an undo creates at one attempt. -/
def temporaryPath (target : Path) (snapshot : SnapshotId) (attempt : Nat) : Path :=
  join ((parent target).getD (utf8 "."))
    (utf8 ".supra-undo-" ++ utf8 snapshot.text ++ utf8 "-" ++ (fileName target).getD (utf8 "supra-restore") ++
      utf8 "-" ++ utf8 (toString attempt))

/-! ## Snapshots -/

/-- How far one call of `snapshot` has come. -/
inductive SnapshotCall where
  | idle
  | opened (path : Path) (ino : Nat)
  | resolved (path : Path) (ino : Nat) (resolvedPath : Vec UInt8)
  | identified (path : Path) (ino : Nat) (resolvedPath : Vec UInt8)
  | read (path : Path) (ino : Nat) (resolvedPath : Vec UInt8) (bytes : Bytes)
  | ready (path : Str) (bytes : Bytes)
  | answered (outcome : Except JournalError SnapshotId)
  | lost

/-- The system calls of `snapshot`, in order, with what the system answers them. -/
inductive SnapshotStep where
  | opens (path : Path) (found : Except IoError (Nat × Bool))
  | canonicalize (found : Except IoError (Vec UInt8))
  | symlinkMetadata (fault : Option IoError)
  | readToEnd (fault : Option IoError)
  | symlinkMetadataAfter (fault : Option IoError)
  | withTransaction (faults : Faults) (generated : SnapshotId)

def noSuchFile : IoError := ⟨.notFound, "No such file or directory (os error 2)"⟩

/-- The resolved path must name the inode that the descriptor was opened on. -/
def sameIdentity (fs : Fs Path Bytes) (path : Path) (ino : Nat) (resolvedPath : Vec UInt8)
    (fault : Option IoError) : Except JournalError Unit :=
  match fault with
  | some error => .error (.io error)
  | none =>
    match fs.names resolvedPath.toList with
    | none => .error (.io noSuchFile)
    | some entry => if entry = .file ino then .ok () else .error (.pathIdentityChanged path)

/-- A step of a snapshot that does not touch the store. -/
def SnapshotCall.step (fs : Fs Path Bytes) : SnapshotCall → SnapshotStep → Option SnapshotCall
  | .idle, .opens path found =>
    match found with
    | .error error => some (.answered (.error (.io error)))
    | .ok (ino, isFile) =>
      if isFile then if ino < fs.next then some (.opened path ino) else none
      else some (.answered (.error (.io ⟨.invalidInput, "journal snapshots require a regular file"⟩)))
  | .opened path ino, .canonicalize found =>
    match found with
    | .error error => some (.answered (.error (.io error)))
    | .ok resolvedPath => some (.resolved path ino resolvedPath)
  | .resolved path ino resolvedPath, .symlinkMetadata fault =>
    match sameIdentity fs path ino resolvedPath fault with
    | .error error => some (.answered (.error error))
    | .ok () => some (.identified path ino resolvedPath)
  | .identified path ino resolvedPath, .readToEnd fault =>
    match fault with
    | some error => some (.answered (.error (.io error)))
    | none => some (.read path ino resolvedPath (fs.content ino))
  | .read path ino resolvedPath bytes, .symlinkMetadataAfter fault =>
    match sameIdentity fs path ino resolvedPath fault with
    | .error error => some (.answered (.error error))
    | .ok () =>
      match pathText resolvedPath with
      | none => some (.answered (.error (.nonUtf8Path resolvedPath.toList)))
      | some text => some (.ready text bytes)
  | _, _ => none

/-! ## Undos -/

structure Temporary where
  path : Path
  ino : Nat
  deriving DecidableEq, Repr

inductive UndoPhase where
  | begun
  | creating (attempt : Nat)
  | writing
  | syncing
  | replacing
  | flushing
  | dropping (outcome : Except JournalError Unit)
  | marking
  | committing (changed : List Row)
  | done (outcome : Except JournalError Unit)

/-- The undo that holds the lock: its locals and how far it has come. `renamed` and `edited` record
that the target was replaced, and that another program changed it since. -/
structure Undo where
  call : Nat
  snapshot : SnapshotId
  bytes : Bytes
  target : Path
  temporary : Option Temporary
  phase : UndoPhase
  renamed : Bool
  edited : Bool

/-- The system calls of `undo`, in order, with the failure the system answers them, if any. -/
inductive UndoStep where
  | begins (snapshot : SnapshotId) (fault : Option RusqliteError)
  | readRow (fault : Option RusqliteError)
  | create (fault : Option IoError)
  | writeAll (fault : Option (Nat × IoError))
  | syncAll (fault : Option IoError)
  | rename (fault : Option IoError)
  | syncDirectory (fault : Option IoError)
  | removeFile (removed : Bool)
  | markUndone (fault : Option RusqliteError)
  | commit (fault : Option RusqliteError)
  | returns

/-- The row an undo works from. -/
def undoRow (blake3 : List UInt8 → ContentHash) (fault : Option RusqliteError) (rows : List Row)
    (snapshot : SnapshotId) : Except JournalError (Bytes × Path) :=
  match readRow fault rows snapshot with
  | .error error => .error (.store error)
  | .ok none => .error (.notFound snapshot)
  | .ok (some (bytes, storedDigest, undone, path)) =>
    if undone then .error (.alreadyUndone snapshot)
    else
      let computed := snapshotDigest blake3 bytes
      if computed ≠ storedDigest then .error (.corrupt snapshot storedDigest computed)
      else .ok (bytes, path.bytes)

def noUniqueTemporary : IoError := ⟨.alreadyExists, "could not allocate a unique undo temporary file"⟩

/-- One round of the loop that creates the temporary file. -/
def createTemporary (fs : Fs Path Bytes) (u : Undo) (attempt : Nat) (fault : Option IoError) :
    Fs Path Bytes × Undo :=
  let path := temporaryPath u.target u.snapshot attempt
  if 128 ≤ attempt then (fs, { u with phase := .done (.error (.io noUniqueTemporary)) })
  else
    match fault with
    | some error =>
      if error.kind = .alreadyExists then (fs, { u with phase := .creating (attempt + 1) })
      else (fs, { u with phase := .done (.error (.io error)) })
    | none =>
      if fs.names path = none then
        (fs.create path [], { u with temporary := some ⟨path, fs.next⟩, phase := .writing })
      else (fs, { u with phase := .creating (attempt + 1) })

/-- A step of the undo that holds the lock. -/
def Undo.step (blake3 : List UInt8 → ContentHash) (fs : Fs Path Bytes) (rows : List Row) (u : Undo) :
    UndoStep → Option (Fs Path Bytes × List Row × Undo)
  | .readRow fault =>
    match u.phase with
    | .begun =>
      match undoRow blake3 fault rows u.snapshot with
      | .error error => some (fs, rows, { u with phase := .done (.error error) })
      | .ok (bytes, target) => some (fs, rows, { u with bytes := bytes, target := target, phase := .creating 0 })
    | _ => none
  | .create fault =>
    match u.phase with
    | .creating attempt =>
      let (fs, u) := createTemporary fs u attempt fault
      some (fs, rows, u)
    | _ => none
  | .writeAll fault =>
    match u.phase, u.temporary with
    | .writing, some t =>
      match fault with
      | some (written, error) =>
        some (fs.write t.ino (u.bytes.take written), rows, { u with phase := .dropping (.error (.io error)) })
      | none => some (fs.write t.ino u.bytes, rows, { u with phase := .syncing })
    | _, _ => none
  | .syncAll fault =>
    match u.phase with
    | .syncing =>
      match fault with
      | some error => some (fs, rows, { u with phase := .dropping (.error (.io error)) })
      | none => some (fs, rows, { u with phase := .replacing })
    | _ => none
  | .rename fault =>
    match u.phase, u.temporary with
    | .replacing, some t =>
      match fault with
      | some error => some (fs, rows, { u with phase := .dropping (.error (.io error)) })
      | none =>
        if fs.names u.target = some (.special true) then
          some (fs, rows, { u with phase := .dropping (.error (.io ⟨.isADirectory, "Is a directory (os error 21)"⟩)) })
        else some (fs.rename t.path u.target, rows, { u with phase := .flushing, renamed := true })
    | _, _ => none
  | .syncDirectory fault =>
    match u.phase with
    | .flushing =>
      match fault with
      | some error => some (fs, rows, { u with phase := .dropping (.error (.io error)) })
      | none => some (fs, rows, { u with phase := .dropping (.ok ()) })
    | _ => none
  | .removeFile removed =>
    match u.phase, u.temporary with
    | .dropping outcome, some t =>
      let fs := if removed then fs.remove t.path else fs
      match outcome with
      | .error error => some (fs, rows, { u with phase := .done (.error error) })
      | .ok () => some (fs, rows, { u with phase := .marking })
    | _, _ => none
  | .markUndone fault =>
    match u.phase with
    | .marking =>
      match markUndone fault rows u.snapshot with
      | .error error => some (fs, rows, { u with phase := .done (.error (.store error)) })
      | .ok (changed, true) => some (fs, rows, { u with phase := .committing changed })
      | .ok (_, false) => some (fs, rows, { u with phase := .done (.error (.alreadyUndone u.snapshot)) })
    | _ => none
  | .commit fault =>
    match u.phase with
    | .committing changed =>
      match fault with
      | some error => some (fs, rows, { u with phase := .done (.error (.sqlite error)) })
      | none => some (fs, changed, { u with phase := .done (.ok ()) })
    | _ => none
  | _ => none

/-! ## The whole -/

structure World where
  fs : Fs Path Bytes
  rows : List Row
  calls : Nat → SnapshotCall
  undos : Nat
  undo : Option Undo

/-- A step of a snapshot, a step of an undo, an edit by another program, damage to a stored body of
the length it had, or the end of the process. -/
inductive Act where
  | snapshot (call : Nat) (s : SnapshotStep)
  | undo (s : UndoStep)
  | edit (e : Edit Path Bytes)
  | damage (snapshot : SnapshotId) (before : Bytes)
  | kill

def World.start (fs : Fs Path Bytes) : World := ⟨fs, [], fun _ => .idle, 0, none⟩

def World.setCall (w : World) (call : Nat) (c : SnapshotCall) : World :=
  { w with calls := Function.update w.calls call c }

/-- The temporary file an undo owns, while it does. -/
def Undo.owned (u : Undo) : Option Temporary :=
  match u.phase with
  | .writing | .syncing | .replacing | .flushing | .dropping _ => u.temporary
  | _ => none

/-- An undo notices no edit; the record of edits to a replaced target is kept beside it. -/
def Undo.afterEdit (u : Undo) (fs fs' : Fs Path Bytes) : Undo :=
  { u with edited := u.edited || (u.renamed && fs'.read u.target != fs.read u.target) }

def damaged (rows : List Row) (snapshot : SnapshotId) (before : Bytes) : List Row :=
  rows.map fun row =>
    if row.snapshot = snapshot ∧ row.before.length = before.length then { row with before := before } else row

def SnapshotCall.kill : SnapshotCall → SnapshotCall
  | .idle => .idle
  | .answered outcome => .answered outcome
  | _ => .lost

def step (blake3 : List UInt8 → ContentHash) (w : World) : Act → Option World
  | .snapshot call (.withTransaction faults generated) =>
    match w.calls call, w.undo with
    | .ready path bytes, none =>
      let (rows, outcome) := withTransaction faults JournalError.sqlite w.rows fun rows =>
        match insert faults rows generated path bytes (snapshotDigest blake3 bytes) with
        | .error error => .error (.store error)
        | .ok rows => .ok (rows, generated)
      some ({ w with rows := rows }.setCall call (.answered outcome))
    | _, _ => none
  | .snapshot call s => ((w.calls call).step w.fs s).map (w.setCall call)
  | .undo (.begins snapshot fault) =>
    match w.undo with
    | some _ => none
    | none =>
      let phase := match fault with
        | some error => .done (.error (.sqlite error))
        | none => .begun
      some { w with undo := some ⟨w.undos, snapshot, [], [], none, phase, false, false⟩, undos := w.undos + 1 }
  | .undo .returns =>
    match w.undo with
    | some ⟨_, _, _, _, _, .done _, _, _⟩ => some { w with undo := none }
    | _ => none
  | .undo s =>
    match w.undo with
    | some u => (u.step blake3 w.fs w.rows s).map fun (fs, rows, u) => { w with fs := fs, rows := rows, undo := some u }
    | none => none
  | .edit e =>
    if ∀ t, w.undo.bind (·.owned) = some t → t.path ∉ e.paths then
      some { w with fs := w.fs.edit e, undo := w.undo.map (·.afterEdit w.fs (w.fs.edit e)) }
    else none
  | .damage snapshot before =>
    match w.undo with
    | some _ => none
    | none => some { w with rows := damaged w.rows snapshot before }
  | .kill => some { w with calls := fun call => (w.calls call).kill, undo := none }

end SupraHarness.Journal
