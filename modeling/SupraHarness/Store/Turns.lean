import SupraHarness.Store.Transaction
import SupraHarness.Lib.Run

/-!
# Evicted turns

A turn is stored verbatim, beside a digest of its body. The first body of a turn
stays: the same bytes again are a retry, other bytes a conflict, and a row whose
body no longer matches its digest is neither returned nor certified. A digest
detects damage to a row; it cannot tell a row that was replaced by a matching
pair, nor one that was removed.
-/
namespace SupraHarness.Store.Turns

open SupraHarness.Types SupraHarness.Run

/-- The bytes of one evicted turn, for hashing. -/
structure TurnBody where
  bytes : List UInt8

instance : Sealable TurnBody where
  canonicalKind := 0x10
  writeCanonical value writer := writer.bytes 1 value.bytes

def bodyDigest (blake3 : List UInt8 → ContentHash) (body : List UInt8) : ContentHash :=
  .of blake3 (TurnBody.mk body)

/-- A row of `evicted_turn`. Its blobs are what reading the columns answers, since a damaged file can
hold anything there. -/
structure Row where
  turn : TurnId
  body : Except RusqliteError (List UInt8)
  bodyHash : Except RusqliteError (List UInt8)
  byteLen : Int
  storedAt : Int

def decodeDigest (bytes : List UInt8) (turn : TurnId) : Except StoreError ContentHash :=
  if h : bytes.length = 32 then .ok ⟨⟨bytes.toArray, by simpa using h⟩⟩
  else .error (.malformed s!"turn {turn.text} records a {bytes.length}-byte digest, expected 32")

/-- The body and the digest of one turn, if it has a row. -/
def queryRow (faults : Faults) (rows : List Row) (turn : TurnId) :
    Except StoreError (Option (List UInt8 × List UInt8)) :=
  match faults.statement 0, rows.find? fun row => row.turn = turn with
  | .error error, _ => .error (.sqlite error)
  | .ok (), none => .ok none
  | .ok (), some row =>
    match row.body, row.bodyHash with
    | .error error, _ => .error (.sqlite error)
    | .ok _, .error error => .error (.sqlite error)
    | .ok body, .ok digest => .ok (some (body, digest))

/-- The constraints of the table. -/
def insertRow (rows : List Row) (turn : TurnId) (body : List UInt8) (digest : ContentHash) (byteLen now : Int) :
    Except RusqliteError (List Row) := do
  check "length(body_hash) = 32" (digest.bytes.toList.length = 32)
  check "byte_len = length(body)" (byteLen = body.length)
  check "stored_at >= 0" (0 ≤ now)
  unique "evicted_turn.turn_id" (turn ∉ rows.map (·.turn))
  pure (rows ++ [⟨turn, .ok body, .ok digest.bytes.toList, byteLen, now⟩])

/-- What an eviction answers for a turn that has a row. -/
def existingTurn (blake3 : List UInt8 → ContentHash) (turn : TurnId) (digest : ContentHash)
    (storedBody storedBytes : List UInt8) : Except StoreError ContentHash := do
  let stored ← decodeDigest storedBytes turn
  if stored = digest then
    let computed := bodyDigest blake3 storedBody
    if computed = digest then .ok digest else .error (.corrupt turn stored computed)
  else .error (.conflict turn stored digest)

/-- `Store::evict_turn` -/
def evictTurn (blake3 : List UInt8 → ContentHash) (faults : Faults) (now : Int) (rows : List Row) (turn : TurnId)
    (body : List UInt8) : List Row × Except StoreError ContentHash :=
  let digest := bodyDigest blake3 body
  if 2 ^ 63 ≤ body.length then
    (rows, .error (.malformed s!"a turn body of {body.length} bytes is beyond what SQLite stores"))
  else
    match faults.onBegin with
    | some error => (rows, .error (.sqlite error))
    | none =>
      match queryRow faults rows turn with
      | .error error => (rows, .error error)
      | .ok (some (storedBody, storedBytes)) => (rows, existingTurn blake3 turn digest storedBody storedBytes)
      | .ok none =>
        match faults.statement 1, insertRow rows turn body digest body.length now, faults.onCommit with
        | .error error, _, _ => (rows, .error (.sqlite error))
        | .ok (), .error error, _ => (rows, .error (.sqlite error))
        | .ok (), .ok _, some error => (rows, .error (.sqlite error))
        | .ok (), .ok inserted, none => (inserted, .ok digest)

/-- `Store::recall_turn` -/
def recallTurn (blake3 : List UInt8 → ContentHash) (faults : Faults) (rows : List Row) (turn : TurnId) :
    Except StoreError (List UInt8) := do
  match ← queryRow faults rows turn with
  | none => .error (.notFound turn)
  | some (body, storedBytes) =>
    let stored ← decodeDigest storedBytes turn
    let computed := bodyDigest blake3 body
    if computed ≠ stored then .error (.corrupt turn stored computed) else .ok body

/-! ## Runs -/

/-- The rows, and the first body that each turn was successfully evicted with. -/
structure History where
  rows : List Row
  first : TurnId → Option (List UInt8)

/-- A call, or damage that leaves the file with any rows. -/
inductive Act where
  | evict (faults : Faults) (now : Int) (turn : TurnId) (body : List UInt8)
  | recall (faults : Faults) (turn : TurnId)
  | corrupt (rows : List Row)

def History.empty : History := ⟨[], fun _ => none⟩

/-- The first body of each turn, after an eviction that was answered so. -/
def noteEvicted (first : TurnId → Option (List UInt8)) (turn : TurnId) (body : List UInt8) :
    Except StoreError ContentHash → TurnId → Option (List UInt8)
  | .error _ => first
  | .ok _ => fun other => if other = turn then some ((first turn).getD body) else first other

def step (blake3 : List UInt8 → ContentHash) (s : History) : Act → Option History
  | .evict faults now turn body =>
    let (rows, answer) := evictTurn blake3 faults now s.rows turn body
    some ⟨rows, noteEvicted s.first turn body answer⟩
  | .recall _ _ => some s
  | .corrupt rows => some { s with rows := rows }

/-- A row whose digest is the digest of the body. -/
def Matches (blake3 : List UInt8 → ContentHash) (row : Row) (body : List UInt8) : Prop :=
  row.body = .ok body ∧ row.bodyHash = .ok (bodyDigest blake3 body).bytes.toList

/-- No matching row holds other bytes than the first ones of its turn, and no evicted turn is without a
row. -/
def Detectable (blake3 : List UInt8 → ContentHash) (first : TurnId → Option (List UInt8)) (rows : List Row) :
    Prop :=
  (∀ row ∈ rows, ∀ body, Matches blake3 row body → first row.turn = some body) ∧
    ∀ turn, first turn ≠ none → turn ∈ rows.map (·.turn)

variable {blake3 : List UInt8 → ContentHash} {rows : List Row} {turn : TurnId} {faults : Faults}

theorem decodeDigest_eq_ok {bytes : List UInt8} {digest : ContentHash} (h : decodeDigest bytes turn = .ok digest) :
    bytes = digest.bytes.toList := by
  unfold decodeDigest at h
  split at h
  · cases h
    simp
  · cases h

theorem queryRow_eq_some {body digest : List UInt8} (h : queryRow faults rows turn = .ok (some (body, digest))) :
    ∃ row ∈ rows, row.turn = turn ∧ row.body = .ok body ∧ row.bodyHash = .ok digest := by
  unfold queryRow at h
  cases hstmt : faults.statement 0 with
  | error e =>
    rw [hstmt] at h
    cases h
  | ok done =>
    cases hfind : rows.find? fun row => row.turn = turn with
    | none =>
      rw [hstmt, hfind] at h
      cases h
    | some row =>
      rw [hstmt, hfind] at h
      dsimp only at h
      split at h
      · cases h
      · cases h
      · rename_i hbody hhash
        cases h
        exact ⟨row, List.mem_of_find?_eq_some hfind, by simpa using List.find?_some hfind, hbody, hhash⟩

theorem queryRow_eq_none (h : queryRow faults rows turn = .ok none) : turn ∉ rows.map (·.turn) := by
  unfold queryRow at h
  cases hstmt : faults.statement 0 with
  | error e =>
    rw [hstmt] at h
    cases h
  | ok done =>
    cases hfind : rows.find? fun row => row.turn = turn with
    | none =>
      intro hmem
      obtain ⟨row, hrow, hturn⟩ := List.mem_map.mp hmem
      exact absurd hturn (by simpa using List.find?_eq_none.mp hfind row hrow)
    | some row =>
      rw [hstmt, hfind] at h
      dsimp only at h
      split at h <;> cases h

theorem existingTurn_eq_ok {digest answer : ContentHash} {body bytes : List UInt8}
    (h : existingTurn blake3 turn digest body bytes = .ok answer) :
    answer = digest ∧ bytes = digest.bytes.toList ∧ bodyDigest blake3 body = digest := by
  unfold existingTurn at h
  obtain ⟨stored, hstored, h⟩ := bind_eq_ok.mp h
  dsimp only at h
  split at h
  · rename_i hsame
    split at h
    · rename_i hcomputed
      cases h
      rw [decodeDigest_eq_ok hstored, hsame]
      exact ⟨rfl, rfl, hcomputed⟩
    · cases h
  · cases h

theorem insertRow_eq_ok {body : List UInt8} {digest : ContentHash} {byteLen now : Int} {inserted : List Row}
    (h : insertRow rows turn body digest byteLen now = .ok inserted) :
    inserted = rows ++ [⟨turn, .ok body, .ok digest.bytes.toList, byteLen, now⟩] := by
  unfold insertRow at h
  obtain ⟨-, -, h⟩ := bind_eq_ok.mp h
  obtain ⟨-, -, h⟩ := bind_eq_ok.mp h
  obtain ⟨-, -, h⟩ := bind_eq_ok.mp h
  obtain ⟨-, -, h⟩ := bind_eq_ok.mp h
  cases h
  rfl

/-- An eviction is refused and changes nothing, finds a matching row with the digest of its body, or
adds the row. -/
theorem evictTurn_cases {now : Int} {body : List UInt8} {rows' : List Row} {answer : Except StoreError ContentHash}
    (h : evictTurn blake3 faults now rows turn body = (rows', answer)) :
    (rows' = rows ∧ ∃ e, answer = .error e) ∨
    (rows' = rows ∧ answer = .ok (bodyDigest blake3 body) ∧
      ∃ row ∈ rows, row.turn = turn ∧ ∃ stored, Matches blake3 row stored) ∨
    (turn ∉ rows.map (·.turn) ∧ answer = .ok (bodyDigest blake3 body) ∧
      ∃ row, rows' = rows ++ [row] ∧ row.turn = turn ∧ Matches blake3 row body) := by
  unfold evictTurn at h
  dsimp only at h
  split at h
  · cases h
    exact .inl ⟨rfl, _, rfl⟩
  · cases hbegin : faults.onBegin with
    | some e =>
      rw [hbegin] at h
      cases h
      exact .inl ⟨rfl, _, rfl⟩
    | none =>
      rw [hbegin] at h
      dsimp only at h
      cases hquery : queryRow faults rows turn with
      | error e =>
        rw [hquery] at h
        cases h
        exact .inl ⟨rfl, _, rfl⟩
      | ok found =>
        cases found with
        | some found =>
          obtain ⟨stored, bytes⟩ := found
          rw [hquery] at h
          cases h
          cases hexisting : existingTurn blake3 turn (bodyDigest blake3 body) stored bytes with
          | error e => exact .inl ⟨rfl, e, rfl⟩
          | ok answer =>
            obtain ⟨hanswer, hbytes, hdigest⟩ := existingTurn_eq_ok hexisting
            obtain ⟨row, hrow, hturn, hbody, hhash⟩ := queryRow_eq_some hquery
            refine .inr (.inl ⟨rfl, by rw [hanswer], row, hrow, hturn, stored, hbody, ?_⟩)
            rw [hhash, hbytes, hdigest]
        | none =>
          rw [hquery] at h
          dsimp only at h
          split at h
          · cases h
            exact .inl ⟨rfl, _, rfl⟩
          · cases h
            exact .inl ⟨rfl, _, rfl⟩
          · cases h
            exact .inl ⟨rfl, _, rfl⟩
          · rename_i hinsert _
            cases h
            exact .inr (.inr ⟨queryRow_eq_none hquery, rfl, _, insertRow_eq_ok hinsert, rfl, rfl, rfl⟩)

/-- A recall that returns bytes returns those of a matching row. -/
theorem recallTurn_eq_ok {body : List UInt8} (h : recallTurn blake3 faults rows turn = .ok body) :
    ∃ row ∈ rows, row.turn = turn ∧ Matches blake3 row body := by
  unfold recallTurn at h
  obtain ⟨found, hfound, h⟩ := bind_eq_ok.mp h
  cases found with
  | none => cases h
  | some found =>
    obtain ⟨stored, bytes⟩ := found
    obtain ⟨digest, hdigest, h⟩ := bind_eq_ok.mp h
    dsimp only at h
    split at h
    · cases h
    · rename_i hcomputed
      cases h
      obtain ⟨row, hrow, hturn, hbody, hhash⟩ := queryRow_eq_some hfound
      refine ⟨row, hrow, hturn, hbody, ?_⟩
      rw [hhash, decodeDigest_eq_ok hdigest, not_not.mp hcomputed]

theorem decodeDigest_bytes (digest : ContentHash) (turn : TurnId) :
    decodeDigest digest.bytes.toList turn = .ok digest := by
  rw [decodeDigest, dif_pos (by simp)]
  rfl

theorem noteEvicted_ne_none {first : TurnId → Option (List UInt8)} {body : List UInt8}
    {answer : Except StoreError ContentHash} {other : TurnId}
    (h : noteEvicted first turn body answer other ≠ none) : first other ≠ none ∨ other = turn := by
  cases answer with
  | error e => exact .inl h
  | ok digest =>
    by_cases he : other = turn
    · exact .inr he
    · left
      simpa [noteEvicted, he] using h

/-- An eviction keeps what the digests can detect. -/
theorem evict_detectable {s : History} {now : Int} {body : List UInt8}
    (h : Detectable blake3 s.first s.rows) :
    Detectable blake3 (noteEvicted s.first turn body (evictTurn blake3 faults now s.rows turn body).2)
      (evictTurn blake3 faults now s.rows turn body).1 := by
  cases hrun : evictTurn blake3 faults now s.rows turn body with
  | mk rows' answer =>
    rcases evictTurn_cases hrun with ⟨rfl, e, rfl⟩ | ⟨rfl, rfl, row, hrow, hturn, stored, hmatch⟩ |
      ⟨hfresh, rfl, row, rfl, hturn, hmatch⟩
    · exact h
    · -- the turn was evicted before, so that its first body is noted already
      have hfirst := h.1 row hrow stored hmatch
      rw [hturn] at hfirst
      have hsame : noteEvicted s.first turn body (.ok (bodyDigest blake3 body)) = s.first := by
        funext other
        simp only [noteEvicted]
        split
        · rename_i he
          rw [he, hfirst]
          rfl
        · rfl
      rw [hsame]
      exact h
    · have hnone : s.first turn = none := by
        by_contra hne
        exact hfresh (h.2 turn hne)
      constructor
      · intro other hother stored hstored
        rcases List.mem_append.mp hother with hother | hother
        · have hne : other.turn ≠ turn := by
            intro he
            exact hfresh (he ▸ List.mem_map_of_mem hother)
          simp only [noteEvicted]
          rw [if_neg hne]
          exact h.1 other hother stored hstored
        · rw [List.mem_singleton] at hother
          subst hother
          have hbody : body = stored := by
            have := hmatch.1.symm.trans hstored.1
            cases this
            rfl
          simp [noteEvicted, hturn, hnone, hbody]
      · intro other hother
        rw [List.map_append, List.mem_append]
        by_cases he : other = turn
        · right
          simp [he, hturn]
        · left
          apply h.2
          simpa [noteEvicted, he] using hother

theorem step_detectable (s : History) (a : Act) (s' : History) (h : Detectable blake3 s.first s.rows)
    (hkeeps : ∀ rows, a = .corrupt rows → Detectable blake3 s.first rows) (hstep : step blake3 s a = some s') :
    Detectable blake3 s'.first s'.rows := by
  cases a with
  | evict faults now turn body =>
    cases hstep
    exact evict_detectable h
  | «recall» faults turn =>
    cases hstep
    exact h
  | corrupt rows =>
    cases hstep
    exact hkeeps rows rfl

theorem detectable_empty : Detectable blake3 History.empty.first History.empty.rows := by
  constructor
  · intro row hrow
    cases hrow
  · intro turn h
    exact absurd rfl h

/-- Whatever is evicted, again or otherwise, recalled, or damaged in a way that a digest can detect: a
recall answers an error or the first body of its turn, and an eviction answered with an error leaves the
rows as they were. -/
theorem recall_first_or_refused (blake3 : List UInt8 → ContentHash) (acts : List Act)
    (hdamage : ∀ s ∈ trace (step blake3) History.empty acts, ∀ rows, s.2.1 = .corrupt rows →
      Detectable blake3 s.1.first rows) :
    ∀ s ∈ trace (step blake3) History.empty acts,
      (∀ faults turn body, s.2.1 = .recall faults turn → recallTurn blake3 faults s.1.rows turn = .ok body →
        s.1.first turn = some body) ∧
      ∀ faults now turn body e, s.2.1 = .evict faults now turn body →
        (evictTurn blake3 faults now s.1.rows turn body).2 = .error e → s.2.2.rows = s.1.rows := by
  intro s hs
  obtain ⟨hinv, hstep⟩ := trace_invariant_of
    (fun (s : History) (a : Act) => ∀ rows, a = .corrupt rows → Detectable blake3 s.first rows) step_detectable
    acts (s := History.empty) detectable_empty hdamage hs
  constructor
  · intro faults turn body _ hrecall
    obtain ⟨row, hrow, hturn, hmatch⟩ := recallTurn_eq_ok hrecall
    rw [← hturn]
    exact hinv.1 row hrow body hmatch
  · intro faults now turn body e hact herror
    rw [hact] at hstep
    cases hrun : evictTurn blake3 faults now s.1.rows turn body with
    | mk rows' answer =>
      have hrows : s.2.2.rows = rows' := by
        simp only [step, hrun] at hstep
        rw [← Option.some.inj hstep]
      rw [hrun] at herror
      cases herror
      rw [hrows]
      rcases evictTurn_cases hrun with ⟨hsame, -⟩ | ⟨-, hok, -⟩ | ⟨-, hok, -⟩
      · exact hsame
      · cases hok
      · cases hok

/-- A stand-in for the hash that tells the bodies of the examples apart. -/
def byteSum (message : List UInt8) : ContentHash := ⟨Vector.replicate 32 (message.foldl (· + ·) 0)⟩

/-- An eviction, a forged body beside the old digest, and a recall. -/
def forgedBody : List Act :=
  [.evict .none 0 ⟨1⟩ [97], .corrupt [⟨⟨1⟩, .ok [98], .ok (List.replicate 32 0x73), 1, 0⟩], .recall .none ⟨1⟩]

theorem recall_first_or_refused_forged_body :
    (trace (step byteSum) History.empty forgedBody).length = 3 ∧
      ∀ s ∈ trace (step byteSum) History.empty forgedBody, ∀ body,
        s.2.1 = .recall .none ⟨1⟩ → recallTurn byteSum .none s.1.rows ⟨1⟩ = .ok body →
          s.1.first ⟨1⟩ = some body := by
  refine ⟨rfl, fun s hs body hact hrecall => ?_⟩
  refine (recall_first_or_refused byteSum forgedBody ?_ s hs).1 .none ⟨1⟩ body hact hrecall
  intro s hs rows hrows
  simp only [forgedBody, trace, step, List.mem_cons, List.not_mem_nil, or_false] at hs
  rcases hs with rfl | rfl | rfl
  · cases hrows
  · cases hrows
    constructor
    · intro row hrow body hmatch
      rw [List.mem_singleton] at hrow
      subst hrow
      cases hmatch.1
      exact absurd hmatch.2 (by decide +kernel)
    · intro turn hturn
      have hnoted : noteEvicted (fun _ => none) ⟨1⟩ [97] (evictTurn byteSum .none 0 [] ⟨1⟩ [97]).2 turn ≠ none := hturn
      rcases noteEvicted_ne_none hnoted with hnone | rfl
      · exact absurd rfl hnone
      · exact List.mem_singleton_self _
  · cases hrows

/-- An eviction, a row replaced by a matching pair, and a recall. -/
def forgedPair (blake3 : List UInt8 → ContentHash) : List Act :=
  [.evict .none 0 ⟨1⟩ [97], .corrupt [⟨⟨1⟩, .ok [98], .ok (bodyDigest blake3 [98]).bytes.toList, 1, 0⟩],
    .recall .none ⟨1⟩]

/-- An eviction, the loss of its row, an eviction of other bytes, and a recall. -/
def lostRow : List Act :=
  [.evict .none 0 ⟨1⟩ [97], .corrupt [], .evict .none 0 ⟨1⟩ [98], .recall .none ⟨1⟩]

/-- Both recalls return other bytes than the first ones, whatever the hash. -/
theorem recall_other_bytes (blake3 : List UInt8 → ContentHash) :
    (∃ s ∈ trace (step blake3) History.empty (forgedPair blake3), s.2.1 = .recall .none ⟨1⟩ ∧
      recallTurn blake3 .none s.1.rows ⟨1⟩ = .ok [98] ∧ s.1.first ⟨1⟩ = some [97]) ∧
    ∃ s ∈ trace (step blake3) History.empty lostRow, s.2.1 = .recall .none ⟨1⟩ ∧
      recallTurn blake3 .none s.1.rows ⟨1⟩ = .ok [98] ∧ s.1.first ⟨1⟩ = some [97] := by
  have hevict : ∀ byte, evictTurn blake3 .none 0 [] ⟨1⟩ [byte] =
      ([⟨⟨1⟩, .ok [byte], .ok (bodyDigest blake3 [byte]).bytes.toList, 1, 0⟩], .ok (bodyDigest blake3 [byte])) := by
    intro byte
    simp [evictTurn, queryRow, insertRow, check, unique, Faults.statement, Faults.none, bind, Except.bind, pure,
      Except.pure]
  have hrecall : recallTurn blake3 .none [⟨⟨1⟩, .ok [98], .ok (bodyDigest blake3 [98]).bytes.toList, 1, 0⟩] ⟨1⟩ =
      .ok [98] := by
    simp [recallTurn, queryRow, Faults.statement, Faults.none, decodeDigest_bytes, bind, Except.bind]
  have hfirst : noteEvicted (fun _ => none) ⟨1⟩ [97] (evictTurn blake3 .none 0 [] ⟨1⟩ [97]).2 ⟨1⟩ = some [97] := by
    rw [hevict]
    rfl
  constructor
  · exact ⟨_, List.mem_of_getElem? (i := 2) rfl, rfl, hrecall, hfirst⟩
  · refine ⟨_, List.mem_of_getElem? (i := 3) rfl, rfl, ?_, ?_⟩
    · change recallTurn blake3 .none (evictTurn blake3 .none 0 [] ⟨1⟩ [98]).1 ⟨1⟩ = .ok [98]
      rw [hevict]
      exact hrecall
    · change noteEvicted (noteEvicted (fun _ => none) ⟨1⟩ [97] (evictTurn blake3 .none 0 [] ⟨1⟩ [97]).2) ⟨1⟩ [98]
        (evictTurn blake3 .none 0 [] ⟨1⟩ [98]).2 ⟨1⟩ = some [97]
      rw [hevict 98, hevict 97]
      rfl

theorem recall_returns_other_bytes :
    (∃ s ∈ trace (step byteSum) History.empty (forgedPair byteSum), s.2.1 = .recall .none ⟨1⟩ ∧
      recallTurn byteSum .none s.1.rows ⟨1⟩ = .ok [98] ∧ s.1.first ⟨1⟩ = some [97]) ∧
    ∃ s ∈ trace (step byteSum) History.empty lostRow, s.2.1 = .recall .none ⟨1⟩ ∧
      recallTurn byteSum .none s.1.rows ⟨1⟩ = .ok [98] ∧ s.1.first ⟨1⟩ = some [97] :=
  recall_other_bytes byteSum

end SupraHarness.Store.Turns
