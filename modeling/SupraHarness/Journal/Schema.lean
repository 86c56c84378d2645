import SupraHarness.Types.Hash
import SupraHarness.Store.Transaction

/-!
# The journal's table

One row per snapshot: the bytes a file held before an edit, the digest of these
bytes, and whether the snapshot has been undone. The digest is returned as it is
recorded; verifying it is the undo's decision.
-/
namespace SupraHarness.Journal

open SupraHarness.Types SupraHarness.Store

abbrev Bytes := List UInt8

/-- The bytes of a snapshotted file, for hashing. -/
structure SnapshotBody where
  bytes : Bytes

instance : Sealable SnapshotBody where
  canonicalKind := 0x11
  writeCanonical value writer := writer.bytes 1 value.bytes

def snapshotDigest (blake3 : List UInt8 → ContentHash) (bytes : Bytes) : ContentHash :=
  .of blake3 (SnapshotBody.mk bytes)

/-! ## Errors -/

inductive ErrorKind where
  | notFound | alreadyExists | invalidInput | isADirectory | other
  deriving DecidableEq, Repr

/-- `std::io::Error` -/
structure IoError where
  kind : ErrorKind
  message : String
  deriving DecidableEq, Repr

inductive JournalError where
  | store (source : StoreError)
  | sqlite (source : RusqliteError)
  | io (source : IoError)
  | nonUtf8Path (path : Bytes)
  | pathIdentityChanged (path : Bytes)
  | corrupt (snapshot : SnapshotId) (stored computed : ContentHash)
  | alreadyUndone (snapshot : SnapshotId)
  | notFound (snapshot : SnapshotId)
  deriving DecidableEq, Repr

/-! ## Rows -/

structure Row where
  snapshot : SnapshotId
  path : Str
  before : Bytes
  beforeHash : Bytes
  byteLen : Int
  createdAt : Int
  undone : Bool
  deriving DecidableEq, Repr

/-- `i64::try_from(n).unwrap_or(i64::MAX)` -/
def i64OrMax (n : Nat) : Int := if n ≤ 2 ^ 63 - 1 then n else 2 ^ 63 - 1

/-- The constraints of the table. -/
def insertRow (rows : List Row) (row : Row) : Except RusqliteError (List Row) := do
  check "length(path) > 0" (0 < sqlLength row.path)
  check "length(before_hash) = 32" (row.beforeHash.length = 32)
  check "byte_len = length(before) AND byte_len >= 0" (row.byteLen = row.before.length ∧ 0 ≤ row.byteLen)
  check "created_at >= 0" (0 ≤ row.createdAt)
  unique "journal_snapshot.snapshot_id" (row.snapshot ∉ rows.map (·.snapshot))
  pure (rows ++ [row])

/-- A failure of the database library inside a function of the schema. -/
def refused {α : Type} : Except RusqliteError α → Except StoreError α
  | .error error => .error (.sqlite error)
  | .ok a => .ok a

def insert (faults : Faults) (rows : List Row) (snapshot : SnapshotId) (path : Str) (before : Bytes)
    (digest : ContentHash) : Except StoreError (List Row) :=
  refused do
    faults.statement 0
    insertRow rows ⟨snapshot, path, before, digest.bytes.toList, i64OrMax before.length,
      i64OrMax snapshot.timestampMs.toNat, false⟩

def decodeDigest (bytes : Bytes) : Except StoreError ContentHash :=
  if h : bytes.length = 32 then .ok ⟨⟨bytes.toArray, by simpa using h⟩⟩
  else .error (.malformed s!"journal_snapshot records a {bytes.length}-byte digest, expected 32")

/-- A statement runs, or fails with the library's error. -/
def statement (fault : Option RusqliteError) : Except StoreError Unit :=
  match fault with
  | some error => .error (.sqlite error)
  | none => .ok ()

def readRow (fault : Option RusqliteError) (rows : List Row) (snapshot : SnapshotId) :
    Except StoreError (Option (Bytes × ContentHash × Bool × Str)) := do
  statement fault
  match rows.find? fun row => row.snapshot = snapshot with
  | none => pure none
  | some row =>
    let digest ← decodeDigest row.beforeHash
    pure (some (row.before, digest, row.undone, row.path))

/-- `UPDATE .. SET undone = 1 WHERE snapshot_id = ?1 AND undone = 0` -/
def marked (rows : List Row) (snapshot : SnapshotId) : List Row :=
  rows.map fun row => if row.snapshot = snapshot ∧ row.undone = false then { row with undone := true } else row

/-- The rows with one snapshot marked, and whether a row was updated. -/
def markUndone (fault : Option RusqliteError) (rows : List Row) (snapshot : SnapshotId) :
    Except StoreError (List Row × Bool) := do
  statement fault
  let updated := (rows.filter fun row => row.snapshot = snapshot ∧ row.undone = false).length
  pure (marked rows snapshot, updated = 1)

/-! ## What each function does -/

theorem insert_eq_ok {faults : Faults} {rows rows' : List Row} {snapshot : SnapshotId} {path : Str} {before : Bytes}
    {digest : ContentHash} (h : insert faults rows snapshot path before digest = .ok rows') :
    rows' = rows ++ [⟨snapshot, path, before, digest.bytes.toList, i64OrMax before.length,
      i64OrMax snapshot.timestampMs.toNat, false⟩] ∧ snapshot ∉ rows.map (·.snapshot) := by
  unfold insert at h
  cases hstmt : faults.statement 0 with
  | error e =>
    rw [hstmt] at h
    cases h
  | ok u =>
    cases hinsert : insertRow rows ⟨snapshot, path, before, digest.bytes.toList, i64OrMax before.length,
        i64OrMax snapshot.timestampMs.toNat, false⟩ with
    | error e =>
      rw [hstmt] at h
      simp only [bind, Except.bind, hinsert] at h
      cases h
    | ok inserted =>
      rw [hstmt] at h
      simp only [bind, Except.bind, hinsert] at h
      cases h
      unfold insertRow at hinsert
      obtain ⟨-, -, hinsert⟩ := bind_eq_ok.mp hinsert
      obtain ⟨-, -, hinsert⟩ := bind_eq_ok.mp hinsert
      obtain ⟨-, -, hinsert⟩ := bind_eq_ok.mp hinsert
      obtain ⟨-, -, hinsert⟩ := bind_eq_ok.mp hinsert
      obtain ⟨u, hunique, hrows⟩ := bind_eq_ok.mp hinsert
      cases hrows
      exact ⟨rfl, of_decide_eq_true (unique_eq_ok hunique)⟩

theorem decodeDigest_eq_ok {bytes : Bytes} {digest : ContentHash} (h : decodeDigest bytes = .ok digest) :
    digest.bytes.toList = bytes := by
  unfold decodeDigest at h
  split at h
  · cases h
    simp
  · cases h

theorem readRow_eq_some {fault : Option RusqliteError} {rows : List Row} {snapshot : SnapshotId} {before : Bytes}
    {digest : ContentHash} {undone : Bool} {path : Str}
    (h : readRow fault rows snapshot = .ok (some (before, digest, undone, path))) :
    ∃ row ∈ rows, row.snapshot = snapshot ∧ row.before = before ∧ row.beforeHash = digest.bytes.toList ∧
      row.undone = undone ∧ row.path = path := by
  unfold readRow at h
  obtain ⟨-, -, h⟩ := bind_eq_ok.mp h
  cases hfind : rows.find? fun row => row.snapshot = snapshot with
  | none =>
    rw [hfind] at h
    cases h
  | some row =>
    rw [hfind] at h
    obtain ⟨decoded, hdecoded, h⟩ := bind_eq_ok.mp h
    cases h
    exact ⟨row, List.mem_of_find?_eq_some hfind, by simpa using List.find?_some hfind, rfl,
      (decodeDigest_eq_ok hdecoded).symm, rfl, rfl⟩

theorem snapshots_marked (rows : List Row) (snapshot : SnapshotId) :
    (marked rows snapshot).map (·.snapshot) = rows.map (·.snapshot) := by
  rw [marked, List.map_map]
  apply List.map_congr_left
  intro row _
  simp only [Function.comp]
  split <;> rfl

theorem filter_live {rows : List Row} {row : Row} (hnodup : (rows.map (·.snapshot)).Nodup) (hrow : row ∈ rows)
    (hlive : row.undone = false) :
    rows.filter (fun r => r.snapshot = row.snapshot ∧ r.undone = false) = [row] := by
  induction rows with
  | nil => cases hrow
  | cons head tail ih =>
    rw [List.map_cons, List.nodup_cons] at hnodup
    rcases List.mem_cons.mp hrow with rfl | hrow
    · have htail : tail.filter (fun r => r.snapshot = row.snapshot ∧ r.undone = false) = [] := by
        rw [List.filter_eq_nil_iff]
        intro r hr hsame
        apply hnodup.1
        have hsame := of_decide_eq_true hsame
        rw [← hsame.1]
        exact List.mem_map_of_mem hr
      rw [List.filter_cons, htail]
      simp [hlive]
    · have hne : head.snapshot ≠ row.snapshot := by
        intro he
        apply hnodup.1
        rw [he]
        exact List.mem_map_of_mem hrow
      rw [List.filter_cons, ih hnodup.2 hrow]
      simp [hne]

/-- A live row is the one row the update finds. -/
theorem markUndone_live {fault : Option RusqliteError} {rows rows' : List Row} {row : Row} {updated : Bool}
    (hnodup : (rows.map (·.snapshot)).Nodup) (hrow : row ∈ rows) (hlive : row.undone = false)
    (h : markUndone fault rows row.snapshot = .ok (rows', updated)) :
    updated = true ∧ rows' = marked rows row.snapshot := by
  unfold markUndone at h
  obtain ⟨-, -, h⟩ := bind_eq_ok.mp h
  cases h
  rw [filter_live hnodup hrow hlive]
  exact ⟨rfl, rfl⟩

end SupraHarness.Journal
