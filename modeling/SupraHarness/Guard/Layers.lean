import SupraHarness.Ffi.Command
import SupraHarness.Lib.Str
import SupraHarness.Lib.Utf8
import SupraHarness.Llm.Value
import SupraHarness.Types.Id
import SupraHarness.Types.Lineage

/-!
# The environment marker

A marker is `version:nonce:tag`, where the tag authenticates the first two fields
under a key of this process.
-/
namespace SupraHarness.Guard

open Types

abbrev Text := List Char

/-- A refused spawn attempt, by layer. -/
inductive Refusal where
  | noIdentity (detail : String)
  | ownBinary (detail : String)
  | sameFile
  | badMarker (detail : String)
  | badLineage (detail : String)
  | selfVote (voter proposer : AgentId)
  deriving DecidableEq, Repr

def debug (text : Text) : String := Llm.debug (String.ofList text)

def markerEnv : String := "SUPRA_SPAWN"

def markerVersion : Text := "1".toList

/-- The process key. -/
structure Key where
  bytes : List UInt8
  size : bytes.length = 32

/-- What stands before the first colon and after it. -/
def cut (text : Text) : Option (Text × Text) :=
  match text.span (· ≠ ':') with
  | (_, []) => none
  | (before, _ :: after) => some (before, after)

/-- Split `version:nonce:tag`. -/
def split (marker : Text) : Option (Text × Text × Text) := do
  let (version, rest) ← cut marker
  let (nonce, tag) ← cut rest
  return (version, nonce, tag)

def hexVal (byte : UInt8) : Option UInt8 :=
  if '0'.toNat ≤ byte.toNat ∧ byte.toNat ≤ '9'.toNat then some (byte - '0'.toNat.toUInt8)
  else if 'a'.toNat ≤ byte.toNat ∧ byte.toNat ≤ 'f'.toNat then some (byte - 'a'.toNat.toUInt8 + 10)
  else if 'A'.toNat ≤ byte.toNat ∧ byte.toNat ≤ 'F'.toNat then some (byte - 'A'.toNat.toUInt8 + 10)
  else none

/-- Two digits a byte; the length is even. -/
def unhexPairs : List UInt8 → Except Refusal (List UInt8)
  | hi :: lo :: rest =>
    match hexVal hi, hexVal lo with
    | some hi, some lo => (unhexPairs rest).map ((hi <<< 4 ||| lo) :: ·)
    | _, _ => .error (.badMarker "the tag is not hex")
  | _ => .ok []

/-- Parse hex, rejecting anything malformed rather than truncating. -/
def unhex (text : Text) : Except Refusal (List UInt8) :=
  let bytes := Utf8.encode text
  if bytes.length % 2 ≠ 0 then .error (.badMarker "the tag is not even-length hex")
  else unhexPairs bytes

/-- The body of `verify`, with the key supplied. -/
def verifyWith (hmac : List UInt8 → List UInt8 → List UInt8) (key : Option Key)
    (marker : Option Text) : Except Refusal Unit :=
  match marker with
  | none => .error (.badMarker "no marker in the environment")
  | some marker =>
    match split marker with
    | none => .error (.badMarker "not shaped as version:nonce:tag")
    | some (version, nonce, presented) =>
      if version ≠ markerVersion then
        .error (.badMarker ("unknown marker version " ++ debug version ++ "; this build reads version "
          ++ debug markerVersion))
      else if (Utf8.encode nonce).length ≠ 32 ∨ ¬ (Utf8.encode nonce).all fun byte => (hexVal byte).isSome then
        .error (.badMarker "the nonce is not 16 hex bytes")
      else
        match key with
        | none => .error (.badMarker "this process holds no marker key")
        | some key =>
          match unhex presented with
          | .error refusal => .error refusal
          | .ok tag =>
            if hmac key.bytes (Utf8.encode (version ++ ':' :: nonce)) = tag then .ok ()
            else .error (.badMarker "the tag does not authenticate under this process key")

/-- Nothing is verified without a key. -/
theorem verifyWith_unkeyed (hmac : List UInt8 → List UInt8 → List UInt8) (marker : Option Text) :
    ¬ (verifyWith hmac none marker).isOk := by
  unfold verifyWith
  cases marker with
  | none => simp [Except.isOk, Except.toBool]
  | some marker =>
    simp only
    split
    · simp [Except.isOk, Except.toBool]
    · split
      · simp [Except.isOk, Except.toBool]
      · split <;> simp [Except.isOk, Except.toBool]

end SupraHarness.Guard

/-!
## The seven layers

Every layer runs, and the verdict holds every refusal in layer order. No refusal
means the spawn is allowed.
-/
namespace SupraHarness.Guard

open Types Ffi

/-- The last component of a path, unless it is the root or a parent directory. -/
def fileName (path : List UInt8) : Option (List UInt8) :=
  let parts := (path.splitOn '/'.toNat.toUInt8).filter fun part =>
    part ≠ [] ∧ part ≠ [ '.'.toNat.toUInt8]
  parts.getLast?.filter (· ≠ [ '.'.toNat.toUInt8, '.'.toNat.toUInt8])

/-- Identity established at startup. -/
structure ProcessIdentity where
  path : List UInt8
  file : FileIdentity
  deriving DecidableEq, Repr

/-- What the guard reads: the process identity and key, and the files commands resolve to. -/
structure State where
  identity : Option ProcessIdentity
  key : Option Key
  hmac : List UInt8 → List UInt8 → List UInt8
  canonicalize : Text → Option (List UInt8)
  identify : CString → Option FileIdentity

structure SpawnRequest where
  argv : List Text
  marker : Option Text
  lineage : Option Lineage
  child : Option AgentId
  claimProposer : Option AgentId
  voter : Option AgentId

namespace ProcessIdentity

def isOwnName (identity : ProcessIdentity) (name : Text) : Bool :=
  fileName identity.path = some (Utf8.encode name)

def isOwnFile (identity : ProcessIdentity) (guard : State) (path : Text) : Except Ffi.Error Bool := do
  let found ← fileIdentity guard.identify (Utf8.encode path)
  return found = some identity.file

end ProcessIdentity

/-- L3's comparison: the program as given, its final component, and the resolved file name. -/
def ownBinaryDetail (guard : State) (identity : ProcessIdentity) (argv : List Text) : Option String :=
  match argv.head? with
  | none => none
  | some program =>
    let base := (program.splitOn '/').getLast?.getD program
    if identity.isOwnName base then some ("argv[0] " ++ debug program ++ " names this binary")
    else
      match (guard.canonicalize program).bind fileName with
      | none => none
      | some resolved =>
        if identity.isOwnName (Str.fromUtf8Lossy resolved) then
          some ("argv[0] " ++ debug program ++ " resolves to this binary")
        else none

def identityLayer (guard : State) : List Refusal :=
  match guard.identity with
  | none => [.noIdentity "no process identity established"]
  | some _ => []

def keyLayer (guard : State) : List Refusal :=
  match guard.key with
  | none => [.noIdentity "no marker key generated"]
  | some _ => []

def nameLayer (guard : State) (request : SpawnRequest) : List Refusal :=
  match guard.identity with
  | none => []
  | some identity => ((ownBinaryDetail guard identity request.argv).map Refusal.ownBinary).toList

def fileLayer (guard : State) (request : SpawnRequest) : List Refusal :=
  match guard.identity, request.argv.head? with
  | some identity, some program =>
    match identity.isOwnFile guard program with
    | .ok true => [.sameFile]
    | .ok false => []
    | .error _ => [.ownBinary (debug program ++ " cannot be resolved")]
  | _, _ => []

def markerLayer (guard : State) (request : SpawnRequest) : List Refusal :=
  match verifyWith guard.hmac guard.key request.marker with
  | .ok _ => []
  | .error _ =>
    match request.marker with
    | none => [.badMarker ("no " ++ markerEnv ++ " in the environment")]
    | some _ => [.badMarker (markerEnv ++ " does not authenticate under this process key")]

def lineageLayer (request : SpawnRequest) : List Refusal :=
  match request.lineage, request.child with
  | some lineage, some child =>
    match lineage.child child with
    | .ok _ => []
    | .error (.selfSpawn id atDepth) =>
      [.badLineage ("a model may not spawn itself: " ++ (LineageError.selfSpawn id atDepth).text)]
    | .error (.maxDepthExceeded attempted) =>
      [.badLineage ("peers may not nest: " ++ (LineageError.maxDepthExceeded attempted).text)]
    | .error .empty => [.badLineage ("the lineage has no root: " ++ LineageError.empty.text)]
  | _, _ => []

def voteLayer (request : SpawnRequest) : List Refusal :=
  match request.claimProposer, request.voter with
  | some proposer, some voter => if proposer = voter then [.selfVote voter proposer] else []
  | _, _ => []

/-- Judge a spawn request through all seven layers. -/
def judge (guard : State) (request : SpawnRequest) : List Refusal :=
  identityLayer guard ++ keyLayer guard ++ nameLayer guard request ++ fileLayer guard request
    ++ markerLayer guard request ++ lineageLayer request ++ voteLayer request

/-- Whether every layer passed. -/
def Allowed (guard : State) (request : SpawnRequest) : Prop := judge guard request = []

instance (guard : State) (request : SpawnRequest) : Decidable (Allowed guard request) :=
  inferInstanceAs (Decidable (judge guard request = []))

/-- A guard that knows neither who it is nor its key refuses everything. -/
theorem Allowed.ready {guard : State} {request : SpawnRequest} (h : Allowed guard request) :
    guard.identity.isSome ∧ guard.key.isSome := by
  have hparts : identityLayer guard = [] ∧ keyLayer guard = [] := by
    simp only [Allowed, judge, List.append_eq_nil_iff] at h
    exact ⟨h.1.1.1.1.1.1, h.1.1.1.1.1.2⟩
  obtain ⟨hidentity, hkey⟩ := hparts
  constructor
  · cases hi : guard.identity with
    | none => simp [identityLayer, hi] at hidentity
    | some identity => rfl
  · cases hk : guard.key with
    | none => simp [keyLayer, hk] at hkey
    | some key => rfl

end SupraHarness.Guard
