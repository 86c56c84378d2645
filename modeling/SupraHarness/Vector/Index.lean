import SupraHarness.Lib.Replica
import SupraHarness.Store.Transaction
import SupraHarness.Vector.CodeTable
import Mathlib.Logic.Function.Basic

/-!
# The vector index over one store

The entries live in the store, one row for each locator, with a revision that
every upsert and every remove bumps in the transaction of its own write. A
handle keeps the codes of all entries resident, with the revision it takes them
for. A write reaches the resident codes only after its commit; a search loads
all codes again when the store's revision is not the one the handle recorded.
-/
namespace SupraHarness.Vector

open SupraHarness.Types SupraHarness.Store

/-- The operations of `f32` that decide what is stored. -/
class F32 (F : Type) where
  gt : F → F → Bool
  leBytes : F → Vector UInt8 4
  /-- What makes a vector unusable: a component that is not finite, or a length that is not one. -/
  fault : List F → Option String

inductive VectorError where
  | wrongWidth (expected found : Nat)
  | degenerate (detail : String)
  | malformed (detail : String)
  | sqlite (source : RusqliteError)
  deriving DecidableEq, Repr

/-- The frozen configuration of an index. -/
structure Meta (F : Type) where
  dims : Nat
  threshold : List F
  usable : 0 < dims ∧ dims % 8 = 0 ∧ dims ≤ 4096
  frozen : threshold.length = dims

section

variable {F : Type}

def Meta.codeBytes (config : Meta F) : Nat := config.dims / 8

def validate [F32 F] (vector : List F) (dims : Nat) : Except VectorError Unit :=
  if vector.length ≠ dims then .error (.wrongWidth dims vector.length)
  else
    match F32.fault vector with
    | some detail => .error (.degenerate detail)
    | none => .ok ()

/-- `code[dimension / 8] |= 1 << (dimension % 8)` -/
def setBit (code : List UInt8) (dimension : Nat) : List UInt8 :=
  code.modify (dimension / 8) fun byte => byte ||| (1 <<< UInt8.ofNat (dimension % 8))

/-- One bit for each dimension whose value is above its threshold. -/
def encode [F32 F] (vector threshold : List F) : Except VectorError (List UInt8) :=
  if vector.length ≠ threshold.length then .error (.wrongWidth threshold.length vector.length)
  else .ok ((vector.zip threshold).zipIdx.foldl
    (fun code entry => if F32.gt entry.1.1 entry.1.2 then setBit code entry.2 else code)
    (List.replicate ((vector.length + 7) / 8) 0))

def encodeEmbedding [F32 F] (vector : List F) : List UInt8 :=
  vector.flatMap fun value => (F32.leBytes value).toList

/-! ## The tables -/

structure EntryRow where
  slot : Int
  locator : Str
  embedding : List UInt8
  code : List UInt8
  updatedAt : Nat
  deriving DecidableEq, Repr

/-- `vector_entry`, `vector_text` and the revision of `vector_meta`. -/
structure Tables where
  entries : List EntryRow
  texts : List (Int × Str)
  revision : Nat
  deriving DecidableEq, Repr

/-- The tables of a new index. -/
def Tables.empty : Tables := ⟨[], [], 0⟩

/-- The `rowid` of a new row: one past the largest. -/
def newSlot (entries : List EntryRow) : Except RusqliteError Int :=
  let largest := (entries.map (·.slot)).foldl max 0
  if largest < 2 ^ 63 - 1 then .ok (largest + 1) else .error ⟨"database or disk is full"⟩

/-- `INSERT … ON CONFLICT (locator) DO UPDATE … RETURNING slot` -/
def upsertEntry (tables : Tables) (locator : Str) (embedding code : List UInt8) (stamp : Nat) :
    Except RusqliteError (Tables × Int) := do
  check "length(locator) > 0" (0 < sqlLength locator)
  check "length(code) > 0" (0 < code.length)
  check "length(embedding) = length(code) * 32" (embedding.length = code.length * 32)
  match tables.entries.find? fun row => row.locator = locator with
  | some found =>
    let row : EntryRow := ⟨found.slot, locator, embedding, code, stamp⟩
    .ok ({ tables with entries := tables.entries.map fun old => if old.slot = found.slot then row else old },
      found.slot)
  | none => do
    let slot ← newSlot tables.entries
    .ok ({ tables with entries := tables.entries ++ [⟨slot, locator, embedding, code, stamp⟩] }, slot)

/-- The text of a slot is deleted before it is inserted again. -/
def replaceText (tables : Tables) (slot : Int) (body : Str) : Tables :=
  { tables with texts := (tables.texts.filter fun text => text.1 ≠ slot) ++ [(slot, body)] }

/-- Bump the revision inside a write transaction; the column holds a 64-bit integer. -/
def bumpRevision (tables : Tables) : Except RusqliteError (Tables × Nat) :=
  if tables.revision + 1 < 2 ^ 63 then
    .ok ({ tables with revision := tables.revision + 1 }, tables.revision + 1)
  else .error ⟨"cannot store REAL value in INTEGER column vector_meta.revision"⟩

/-! ## Writing -/

/-- A committed write: what it does to the resident codes, and the revision it made. -/
structure Write where
  slot : Int
  code : Option (List UInt8)
  revision : Nat
  deriving DecidableEq, Repr

/-- The library's failures in the index's own vocabulary. -/
def sqlite {α : Type} : Except RusqliteError α → Except VectorError α
  | .ok a => .ok a
  | .error e => .error (.sqlite e)

/-- The transaction of `upsert`. -/
def upsertWork (faults : Faults) (locator body : Str) (embedding code : List UInt8) (stamp : Nat)
    (tables : Tables) : Except RusqliteError (Tables × Write) := do
  faults.statement 0
  let (tables, slot) ← upsertEntry tables locator embedding code stamp
  faults.statement 1
  faults.statement 2
  let tables := replaceText tables slot body
  faults.statement 3
  let (tables, revision) ← bumpRevision tables
  .ok (tables, ⟨slot, some code, revision⟩)

/-- `upsert` up to its commit. -/
def commitUpsert [F32 F] (config : Meta F) (faults : Faults) (stamp : Nat) (tables : Tables)
    (locator body : Str) (embedding : List F) : Tables × Except VectorError Write :=
  if locator.text = "" then (tables, .error (.degenerate "an empty locator cannot name an entry"))
  else
    match validate embedding config.dims with
    | .error e => (tables, .error e)
    | .ok () =>
      match encode embedding config.threshold with
      | .error e => (tables, .error e)
      | .ok code =>
        withTransaction faults .sqlite tables fun tables =>
          sqlite (upsertWork faults locator body (encodeEmbedding embedding) code stamp tables)

/-- The transaction of `remove`; `none` when no entry has the locator. -/
def removeWork (faults : Faults) (locator : Str) (tables : Tables) :
    Except RusqliteError (Tables × Option Write) := do
  faults.statement 0
  match tables.entries.find? fun row => row.locator = locator with
  | none => .ok (tables, none)
  | some found => do
    let tables := { tables with entries := tables.entries.filter fun row => row.slot ≠ found.slot }
    faults.statement 1
    let tables := { tables with texts := tables.texts.filter fun text => text.1 ≠ found.slot }
    faults.statement 2
    let (tables, revision) ← bumpRevision tables
    .ok (tables, some ⟨found.slot, none, revision⟩)

/-- `remove` up to its commit. -/
def commitRemove (faults : Faults) (tables : Tables) (locator : Str) :
    Tables × Except VectorError (Option Write) :=
  withTransaction faults .sqlite tables fun tables => sqlite (removeWork faults locator tables)

/-! ## The resident codes -/

/-- One row of `load_codes`. -/
def loadRow (config : Meta F) (table : CodeTable) (row : EntryRow) : Except VectorError CodeTable :=
  match table.upsert row.slot row.code with
  | (table, true) => .ok table
  | (_, false) => .error (.malformed
      s!"slot {row.slot} holds a {row.code.length}-byte code where this index uses {config.codeBytes}")

/-- Read every code, in the order of the slots. -/
def loadCodes (config : Meta F) (tables : Tables) : Except VectorError CodeTable :=
  (tables.entries.mergeSort fun a b => a.slot ≤ b.slot).foldlM (loadRow config)
    (CodeTable.new config.codeBytes)

/-- The resident state of a handle. -/
structure State where
  codes : CodeTable
  revision : Nat

/-- What a committed write does to the resident state. -/
def State.apply (state : State) (write : Write) : State :=
  match write.code with
  | some code => ⟨(state.codes.upsert write.slot code).1, write.revision⟩
  | none => ⟨(state.codes.remove write.slot).1, write.revision⟩

/-- The end of `sync_if_stale`: the codes that were loaded, unless the revision is there already. -/
def State.install (state : State) (codes : CodeTable) (current : Nat) : State :=
  if state.revision = current then state else ⟨codes, current⟩

/-! ## What the transactions do -/

/-- The committed code of a slot. -/
def lookup (entries : List EntryRow) (slot : Int) : Option (List UInt8) :=
  (entries.find? fun row => row.slot = slot).map (·.code)

/-- The rows of an index: one for each slot, with codes of the index's width. -/
structure Tables.Sound (config : Meta F) (tables : Tables) : Prop where
  slots : (tables.entries.map (·.slot)).Nodup
  widths : ∀ row ∈ tables.entries, row.code.length = config.codeBytes

/-- The codes are what a write leaves of them. -/
def Write.act (write : Write) (codes : Int → Option (List UInt8)) : Int → Option (List UInt8) :=
  Function.update codes write.slot write.code

theorem Write.act_act (write : Write) (codes : Int → Option (List UInt8)) :
    write.act (write.act codes) = write.act codes := by
  simp [Write.act]

theorem code_apply {state : State} {write : Write}
    (hwidth : ∀ code ∈ write.code, code.length = state.codes.stride) :
    (state.apply write).codes.code = write.act state.codes.code := by
  funext slot
  cases hcode : write.code with
  | none =>
    simp only [State.apply, hcode, CodeTable.code_remove, Write.act, Function.update_apply]
  | some code =>
    have hlength : code.length = state.codes.stride := hwidth code hcode
    simp only [State.apply, hcode, CodeTable.code_upsert hlength, Write.act, Function.update_apply]

theorem revision_apply (state : State) (write : Write) : (state.apply write).revision = write.revision := by
  unfold State.apply
  split <;> rfl

theorem stride_apply (state : State) (write : Write) :
    (state.apply write).codes.stride = state.codes.stride := by
  unfold State.apply
  split
  · exact CodeTable.stride_upsert ..
  · exact CodeTable.stride_remove ..

@[simp] theorem length_setBit (code : List UInt8) (dimension : Nat) :
    (setBit code dimension).length = code.length := by
  simp [setBit]

theorem length_encode [F32 F] {config : Meta F} {vector : List F} {code : List UInt8}
    (h : encode vector config.threshold = .ok code) : code.length = config.codeBytes := by
  have hfold : ∀ (l : List ((F × F) × Nat)) (init : List UInt8),
      (l.foldl (fun code entry => if F32.gt entry.1.1 entry.1.2 then setBit code entry.2 else code)
        init).length = init.length := by
    intro l init
    induction l generalizing init with
    | nil => rfl
    | cons entry l ih =>
      rw [List.foldl_cons, ih]
      split
      · exact length_setBit ..
      · rfl
  have hdims := config.usable
  unfold encode at h
  split at h
  · cases h
  · rename_i hlength
    cases h
    rw [hfold, List.length_replicate, Meta.codeBytes]
    rw [config.frozen] at hlength
    omega

theorem le_foldl_max (l : List Int) (a : Int) : a ≤ l.foldl max a ∧ ∀ x ∈ l, x ≤ l.foldl max a := by
  induction l generalizing a with
  | nil => simp
  | cons b l ih =>
    obtain ⟨hmax, hrest⟩ := ih (max a b)
    refine ⟨by rw [List.foldl_cons]; omega, ?_⟩
    intro x hx
    rcases List.mem_cons.mp hx with rfl | hx
    · rw [List.foldl_cons]
      omega
    · exact hrest x hx

theorem newSlot_fresh {entries : List EntryRow} {slot : Int} (h : newSlot entries = .ok slot) :
    slot ∉ entries.map (·.slot) := by
  simp only [newSlot] at h
  split at h
  · cases h
    intro hmem
    have hle := (le_foldl_max (entries.map (·.slot)) 0).2 _ hmem
    omega
  · cases h

theorem slot_of_find {entries : List EntryRow} {slot : Int} {row : EntryRow}
    (h : entries.find? (fun row => row.slot = slot) = some row) : row.slot = slot := by
  simpa using List.find?_some h

theorem lookup_append {entries : List EntryRow} {row : EntryRow} (h : row.slot ∉ entries.map (·.slot)) :
    lookup (entries ++ [row]) = Function.update (lookup entries) row.slot (some row.code) := by
  funext slot
  rw [lookup, List.find?_append]
  by_cases hs : slot = row.slot
  · have hnone : entries.find? (fun r => r.slot = row.slot) = none := by
      rw [List.find?_eq_none]
      intro r hr heq
      exact h (of_decide_eq_true heq ▸ List.mem_map_of_mem hr)
    rw [hs, Function.update_self, hnone]
    simp
  · have hs' : ¬ row.slot = slot := fun he => hs he.symm
    rw [Function.update_of_ne hs, lookup]
    simp [hs']

theorem lookup_replace {entries : List EntryRow} {found row : EntryRow} (hfound : found ∈ entries)
    (hslot : row.slot = found.slot) :
    lookup (entries.map fun old => if old.slot = found.slot then row else old) =
      Function.update (lookup entries) found.slot (some row.code) := by
  funext slot
  have hkeep : ((fun r : EntryRow => decide (r.slot = slot)) ∘
      fun old => if old.slot = found.slot then row else old) = fun r => decide (r.slot = slot) := by
    funext old
    by_cases ho : old.slot = found.slot
    · simp [ho, hslot]
    · simp [ho]
  rw [lookup, List.find?_map, hkeep]
  by_cases hs : slot = found.slot
  · rw [hs, Function.update_self]
    cases hfind : entries.find? fun r => decide (r.slot = found.slot) with
    | none =>
      rw [List.find?_eq_none] at hfind
      exact absurd (decide_eq_true rfl) (hfind found hfound)
    | some r =>
      simp [slot_of_find hfind]
  · rw [Function.update_of_ne hs, lookup]
    cases hfind : entries.find? fun r => decide (r.slot = slot) with
    | none => rfl
    | some r =>
      have hne : ¬ r.slot = found.slot := by
        rw [slot_of_find hfind]
        exact hs
      simp [hne]

theorem lookup_filter (entries : List EntryRow) (gone : Int) :
    lookup (entries.filter fun row => row.slot ≠ gone) = Function.update (lookup entries) gone none := by
  funext slot
  rw [lookup, List.find?_filter]
  by_cases hs : slot = gone
  · rw [hs, Function.update_self, Option.map_eq_none_iff, List.find?_eq_none]
    intro row _
    by_cases hr : row.slot = gone <;> simp [hr]
  · rw [Function.update_of_ne hs, lookup]
    congr 2
    funext row
    by_cases hr : row.slot = slot
    · simp [hr, hs]
    · simp [hr]

/-- An upsert puts its row in the place of the one with its locator, or behind the others under a new slot. -/
theorem upsertWork_cases {faults : Faults} {locator body : Str} {embedding code : List UInt8} {stamp : Nat}
    {tables t' : Tables} {write : Write}
    (h : upsertWork faults locator body embedding code stamp tables = .ok (t', write)) :
    t'.revision = tables.revision + 1 ∧ write.revision = t'.revision ∧ write.code = some code ∧
      ((∃ found ∈ tables.entries, write.slot = found.slot ∧ t'.entries = tables.entries.map fun old =>
          if old.slot = found.slot then ⟨found.slot, locator, embedding, code, stamp⟩ else old) ∨
        (write.slot ∉ tables.entries.map (·.slot) ∧
          t'.entries = tables.entries ++ [⟨write.slot, locator, embedding, code, stamp⟩])) := by
  simp only [upsertWork, upsertEntry, bind_eq_ok] at h
  obtain ⟨_, -, ⟨t₁, slot⟩, ⟨_, -, _, -, _, -, hentry⟩, _, -, _, -, _, -, ⟨t₂, revision⟩, hbump, h⟩ := h
  cases h
  unfold bumpRevision at hbump
  split at hbump
  · cases hbump
    cases hfind : tables.entries.find? fun row => row.locator = locator with
    | some found =>
      rw [hfind] at hentry
      cases hentry
      exact ⟨rfl, rfl, rfl, Or.inl ⟨found, List.mem_of_find?_eq_some hfind, rfl, rfl⟩⟩
    | none =>
      rw [hfind] at hentry
      simp only [bind_eq_ok] at hentry
      obtain ⟨new, hnew, hentry⟩ := hentry
      cases hentry
      exact ⟨rfl, rfl, rfl, Or.inr ⟨newSlot_fresh hnew, rfl⟩⟩
  · cases hbump

/-- An upsert leaves one row for its slot, with the new code, and the next revision. -/
theorem upsertWork_ok {config : Meta F} {faults : Faults} {locator body : Str} {embedding code : List UInt8}
    {stamp : Nat} {tables t' : Tables} {write : Write} (hs : tables.Sound config)
    (hcode : code.length = config.codeBytes)
    (h : upsertWork faults locator body embedding code stamp tables = .ok (t', write)) :
    t'.Sound config ∧ t'.revision = tables.revision + 1 ∧ write.revision = t'.revision ∧
      write.code = some code ∧ lookup t'.entries = write.act (lookup tables.entries) := by
  obtain ⟨hnext, hrevision, hset, ⟨found, hfound, hslot, hentries⟩ | ⟨hfresh, hentries⟩⟩ := upsertWork_cases h
  · refine ⟨⟨?_, ?_⟩, hnext, hrevision, hset, ?_⟩
    · have hslots : (tables.entries.map fun old => if old.slot = found.slot then
          (⟨found.slot, locator, embedding, code, stamp⟩ : EntryRow) else old).map (·.slot) =
          tables.entries.map (·.slot) := by
        rw [List.map_map]
        apply List.map_congr_left
        intro old _
        by_cases ho : old.slot = found.slot <;> simp [ho]
      rw [hentries, hslots]
      exact hs.slots
    · intro row hrow
      rw [hentries] at hrow
      obtain ⟨old, hold, rfl⟩ := List.mem_map.mp hrow
      split
      · exact hcode
      · exact hs.widths old hold
    · rw [hentries, Write.act, hslot, hset]
      exact lookup_replace hfound rfl
  · refine ⟨⟨?_, ?_⟩, hnext, hrevision, hset, ?_⟩
    · rw [hentries, List.map_append, List.map_cons, List.map_nil]
      exact List.nodup_append.mpr ⟨hs.slots, List.nodup_singleton _, by
        intro a ha b hb hab
        rw [List.mem_singleton.mp hb] at hab
        have hslot : a = write.slot := hab
        exact hfresh (hslot ▸ ha)⟩
    · intro row hrow
      rw [hentries] at hrow
      rcases List.mem_append.mp hrow with hrow | hrow
      · exact hs.widths row hrow
      · rw [List.mem_singleton.mp hrow]
        exact hcode
    · rw [hentries, Write.act, hset]
      exact lookup_append hfresh

/-- A removal takes the row with its locator out, or finds none. -/
theorem removeWork_cases {faults : Faults} {locator : Str} {tables t' : Tables} {removed : Option Write}
    (h : removeWork faults locator tables = .ok (t', removed)) :
    (removed = none ∧ t' = tables) ∨
    ∃ write, removed = some write ∧ t'.revision = tables.revision + 1 ∧ write.revision = t'.revision ∧
      write.code = none ∧ t'.entries = tables.entries.filter fun row => row.slot ≠ write.slot := by
  simp only [removeWork, bind_eq_ok] at h
  obtain ⟨_, -, h⟩ := h
  cases hfind : tables.entries.find? fun row => row.locator = locator with
  | none =>
    rw [hfind] at h
    cases h
    exact Or.inl ⟨rfl, rfl⟩
  | some found =>
    rw [hfind] at h
    simp only [bind_eq_ok] at h
    obtain ⟨_, -, _, -, ⟨t₂, revision⟩, hbump, h⟩ := h
    cases h
    unfold bumpRevision at hbump
    split at hbump
    · cases hbump
      exact Or.inr ⟨_, rfl, rfl, rfl, rfl, rfl⟩
    · cases hbump

/-- A removal leaves no row for its slot, and the next revision; or nothing was there to remove. -/
theorem removeWork_ok {config : Meta F} {faults : Faults} {locator : Str} {tables t' : Tables}
    {removed : Option Write} (hs : tables.Sound config)
    (h : removeWork faults locator tables = .ok (t', removed)) :
    (removed = none ∧ t' = tables) ∨
    ∃ write, removed = some write ∧ t'.Sound config ∧ t'.revision = tables.revision + 1 ∧
      write.revision = t'.revision ∧ write.code = none ∧
      lookup t'.entries = write.act (lookup tables.entries) := by
  rcases removeWork_cases h with hnone | ⟨write, hremoved, hnext, hrevision, hset, hentries⟩
  · exact Or.inl hnone
  · refine Or.inr ⟨write, hremoved, ⟨?_, ?_⟩, hnext, hrevision, hset, ?_⟩
    · rw [hentries]
      exact hs.slots.sublist (List.filter_sublist.map _)
    · intro row hrow
      rw [hentries] at hrow
      exact hs.widths row (List.mem_of_mem_filter hrow)
    · rw [hentries, Write.act, hset]
      exact lookup_filter ..

theorem sqlite_eq_ok {α : Type} {x : Except RusqliteError α} {a : α} (h : sqlite x = .ok a) : x = .ok a := by
  cases x with
  | error e => cases h
  | ok b =>
    cases h
    rfl

theorem commitUpsert_error [F32 F] {config : Meta F} {faults : Faults} {stamp : Nat} {tables t' : Tables}
    {locator body : Str} {embedding : List F} {e : VectorError}
    (h : commitUpsert config faults stamp tables locator body embedding = (t', .error e)) : t' = tables := by
  unfold commitUpsert at h
  split at h
  · exact (Prod.mk.inj h).1.symm
  · split at h
    · exact (Prod.mk.inj h).1.symm
    · split at h
      · exact (Prod.mk.inj h).1.symm
      · exact withTransaction_error h

/-- What was committed is the row of a usable vector with its code. -/
theorem commitUpsert_cases [F32 F] {config : Meta F} {faults : Faults} {stamp : Nat} {tables t' : Tables}
    {locator body : Str} {embedding : List F} {write : Write}
    (h : commitUpsert config faults stamp tables locator body embedding = (t', .ok write)) :
    validate embedding config.dims = .ok () ∧ ∃ code, encode embedding config.threshold = .ok code ∧
      upsertWork faults locator body (encodeEmbedding embedding) code stamp tables = .ok (t', write) := by
  unfold commitUpsert at h
  split at h
  · cases h
  · split at h
    · cases h
    · rename_i hvalid
      split at h
      · cases h
      · rename_i code hcode
        exact ⟨hvalid, code, hcode, sqlite_eq_ok (withTransaction_ok h)⟩

theorem commitUpsert_ok [F32 F] {config : Meta F} {faults : Faults} {stamp : Nat} {tables t' : Tables}
    {locator body : Str} {embedding : List F} {write : Write} (hs : tables.Sound config)
    (h : commitUpsert config faults stamp tables locator body embedding = (t', .ok write)) :
    t'.Sound config ∧ t'.revision = tables.revision + 1 ∧ write.revision = t'.revision ∧
      (∀ code ∈ write.code, code.length = config.codeBytes) ∧
      lookup t'.entries = write.act (lookup tables.entries) := by
  obtain ⟨-, code, hcode, hwork⟩ := commitUpsert_cases h
  obtain ⟨hsound, hrevision, hwrite, hset, hlookup⟩ := upsertWork_ok hs (length_encode hcode) hwork
  refine ⟨hsound, hrevision, hwrite, ?_, hlookup⟩
  intro other hother
  rw [hset] at hother
  exact Option.some.inj hother ▸ length_encode hcode

/-! ## Loading -/

theorem lookup_eq_some {entries : List EntryRow} (hnodup : (entries.map (·.slot)).Nodup) {slot : Int}
    {code : List UInt8} :
    lookup entries slot = some code ↔ ∃ row ∈ entries, row.slot = slot ∧ row.code = code := by
  rw [lookup, Option.map_eq_some_iff]
  constructor
  · rintro ⟨row, hfind, hcode⟩
    exact ⟨row, List.mem_of_find?_eq_some hfind, slot_of_find hfind, hcode⟩
  · rintro ⟨row, hrow, hslot, hcode⟩
    cases hfind : entries.find? fun r => decide (r.slot = slot) with
    | none =>
      rw [List.find?_eq_none] at hfind
      exact absurd (decide_eq_true hslot) (hfind row hrow)
    | some found =>
      have hsame : found = row := List.inj_on_of_nodup_map hnodup (List.mem_of_find?_eq_some hfind) hrow
        ((slot_of_find hfind).trans hslot.symm)
      exact ⟨found, rfl, hsame ▸ hcode⟩

theorem lookup_perm {entries other : List EntryRow} (hperm : entries.Perm other)
    (hnodup : (entries.map (·.slot)).Nodup) : lookup entries = lookup other := by
  have hnodup' := (hperm.map fun row : EntryRow => row.slot).nodup_iff.mp hnodup
  funext slot
  apply Option.ext
  intro code
  rw [lookup_eq_some hnodup, lookup_eq_some hnodup']
  simp only [hperm.mem_iff]

/-- Loading rows sets the code of every row's slot. -/
theorem loadRows {config : Meta F} {rows : List EntryRow} (hnodup : (rows.map (·.slot)).Nodup)
    (hwidths : ∀ row ∈ rows, row.code.length = config.codeBytes) {table : CodeTable}
    (hstride : table.stride = config.codeBytes) :
    ∃ table', rows.foldlM (loadRow config) table = .ok table' ∧ table'.stride = config.codeBytes ∧
      ∀ slot, table'.code slot = (lookup rows slot).or (table.code slot) := by
  induction rows generalizing table with
  | nil => exact ⟨table, rfl, hstride, fun slot => rfl⟩
  | cons row rows ih =>
    rw [List.map_cons, List.nodup_cons] at hnodup
    have hwidth : row.code.length = table.stride := by
      rw [hstride]
      exact hwidths row List.mem_cons_self
    have hload : loadRow config table row = .ok (table.upsert row.slot row.code).1 := by
      rw [loadRow, CodeTable.upsert_ok hwidth]
    obtain ⟨table', hfold, hstride', hcodes⟩ := ih hnodup.2 (fun r hr => hwidths r (List.mem_cons_of_mem _ hr))
      ((CodeTable.stride_upsert ..).trans hstride)
    refine ⟨table', by rw [List.foldlM_cons, hload]; exact hfold, hstride', ?_⟩
    intro slot
    rw [hcodes, CodeTable.code_upsert hwidth, lookup, lookup, List.find?_cons]
    by_cases hs : slot = row.slot
    · have hnone : rows.find? (fun r => decide (r.slot = slot)) = none := by
        rw [List.find?_eq_none]
        intro r hr heq
        exact hnodup.1 ((of_decide_eq_true heq).trans hs ▸ List.mem_map_of_mem hr)
      rw [hnone, if_pos hs, decide_eq_true hs.symm]
      rfl
    · rw [if_neg hs, decide_eq_false fun he => hs he.symm]

theorem loadCodes_sound {config : Meta F} {tables : Tables} (hs : tables.Sound config) :
    ∃ codes, loadCodes config tables = .ok codes ∧ codes.stride = config.codeBytes ∧
      codes.code = lookup tables.entries := by
  have hperm := List.mergeSort_perm tables.entries fun a b => decide (a.slot ≤ b.slot)
  have hnodup := (hperm.map fun row : EntryRow => row.slot).nodup_iff.mpr hs.slots
  obtain ⟨codes, hload, hstride, hcodes⟩ := loadRows hnodup (fun row hrow => hs.widths row (hperm.mem_iff.mp hrow))
    (rfl : (CodeTable.new config.codeBytes).stride = config.codeBytes)
  refine ⟨codes, hload, hstride, ?_⟩
  funext slot
  rw [hcodes, CodeTable.code_new, Option.or_none, lookup_perm hperm hnodup]

/-- One code for each committed row, and no other. -/
def Resident (codes : CodeTable) (tables : Tables) : Prop :=
  codes.entries.Perm (tables.entries.map fun row => (row.slot, row.code))

theorem resident_of_code {config : Meta F} {tables : Tables} (hs : tables.Sound config) {codes : CodeTable}
    (h : codes.code = lookup tables.entries) : Resident codes tables := by
  have hnodup : (tables.entries.map fun row => (row.slot, row.code)).Nodup := by
    apply List.Nodup.of_map Prod.fst
    rw [List.map_map]
    exact hs.slots
  apply (List.perm_ext_iff_of_nodup codes.nodup_entries hnodup).mpr
  rintro ⟨slot, code⟩
  rw [CodeTable.mem_entries, h, lookup_eq_some hs.slots]
  simp [Prod.ext_iff]

end

end SupraHarness.Vector
