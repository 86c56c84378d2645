import SupraHarness.Vector.Cache
import SupraHarness.Vector.Handles
import SupraHarness.Vector.Nearest

/-!
# Search by meaning

A search scans the resident codes for the nearest ones, reads the exact vectors of what it found,
from the cache or from the store, orders them by their similarity to the query and cuts the list.
The answer is the exact ranking of the nearest codes' entries, and when all entries are among these
it is the exact ranking of the table.
-/
namespace SupraHarness.Vector

open SupraHarness.Types SupraHarness.Store Selection

/-- The operations of `f32` that decide what is read back and how it ranks. -/
class StoredF32 (F : Type) extends F32 F where
  ofLeBytes : Vector UInt8 4 → F
  partialCmp : F → F → Option Ordering
  /-- What makes a stored vector unusable: a component that is not finite. -/
  storedFault : List F → Option String
  ofLeBytes_leBytes : ∀ value, ofLeBytes (leBytes value) = value
  storedFault_none : ∀ vector, fault vector = none → storedFault vector = none

structure IndexOptions where
  rerankWidth : Nat
  cacheBytes : Nat

/-- One entry with its exact similarity. -/
structure Scored (F : Type) where
  slot : Int
  similarity : F

/-- One retrieved entry; `D` are the 64-bit floats of the lexical lane. -/
structure Hit (F D : Type) where
  slot : Int
  locator : Str
  similarity : Option F
  bm25 : Option D

/-- The resident tiers of a handle. -/
structure Tiers (F : Type) where
  state : State
  cache : ExactCache F

section

variable {F D : Type} [StoredF32 F]

def ofChunk (chunk : List UInt8) : F :=
  StoredF32.ofLeBytes #v[chunk.getD 0 0, chunk.getD 1 0, chunk.getD 2 0, chunk.getD 3 0]

/-- Read a vector back. -/
def decodeEmbedding (bytes : List UInt8) (dims : Nat) : Except VectorError (List F) :=
  if bytes.length ≠ dims * 4 then
    .error (.malformed s!"an embedding blob of {bytes.length} bytes cannot hold {dims} f32 values")
  else
    let vector := (chunksExact 4 bytes).map ofChunk
    match StoredF32.storedFault vector with
    | some detail => .error (.malformed detail)
    | none => .ok vector

/-- `right.similarity.partial_cmp(&left.similarity).unwrap_or(Equal)` -/
def moreSimilar (left right : F) : Ordering := (StoredF32.partialCmp right left).getD .eq

/-- The comparison of `order_exact`: highest similarity first, then the slot. -/
def compareScored (left right : Scored F) : Ordering :=
  (moreSimilar left.similarity right.similarity).then (compare left.slot right.slot)

/-- Order candidates by their exact vectors. -/
def orderExact (scored : List (Scored F)) : List (Scored F) :=
  scored.mergeSort fun a b => compareScored a b != .gt

def rowMissing (slot : Int) : VectorError := .malformed s!"slot {slot} is in the resident tier but has no row"

/-- `SELECT … FROM vector_entry WHERE slot = ?1` -/
def rowOf (tables : Tables) (slot : Int) : Option EntryRow := tables.entries.find? fun row => row.slot = slot

variable (config : Meta F) (options : IndexOptions)

/-- Load the codes and an empty cache. -/
def openTiers (tables : Tables) : Except VectorError (Tiers F) := do
  let codes ← loadCodes config tables
  .ok ⟨⟨codes, tables.revision⟩, ExactCache.new options.cacheBytes⟩

/-- What a committed write does to the resident tiers. -/
def Tiers.apply (tiers : Tiers F) (write : Write) : Tiers F :=
  ⟨tiers.state.apply write, (tiers.cache.invalidate write.slot).1⟩

/-- Load the codes again, with an empty cache, when another handle has written. -/
def syncIfStale (faults : Faults) (tables : Tables) (tiers : Tiers F) : Except VectorError (Tiers F) := do
  sqlite (faults.statement 0)
  if tiers.state.revision = tables.revision then .ok tiers
  else do
    sqlite (faults.statement 1)
    let codes ← loadCodes config tables
    .ok ⟨⟨codes, tables.revision⟩, ExactCache.new options.cacheBytes⟩

/-- Read one exact vector, through the cache. -/
def exact (read : Except RusqliteError Unit) (tables : Tables) (cache : ExactCache F) (slot : Int) :
    ExactCache F × Except VectorError (List F) :=
  match cache.get slot with
  | (cache, some cached) => (cache, .ok cached)
  | (cache, none) =>
    match read with
    | .error e => (cache, .error (.sqlite e))
    | .ok () =>
      match rowOf tables slot with
      | none => (cache, .error (rowMissing slot))
      | some row =>
        match decodeEmbedding row.embedding config.dims with
        | .error e => (cache, .error e)
        | .ok vector => (cache.put slot vector, .ok vector)

variable (similarity : List F → List F → F)

/-- Score the candidates, the first of them with the `n`-th statement. -/
def scoreAll (faults : Faults) (tables : Tables) (query : List F) (n : Nat) (cache : ExactCache F) :
    List Candidate → ExactCache F × Except VectorError (List (Scored F))
  | [] => (cache, .ok [])
  | candidate :: candidates =>
    match exact config (faults.statement n) tables cache candidate.slot with
    | (cache, .error e) => (cache, .error e)
    | (cache, .ok vector) =>
      match scoreAll faults tables query (n + 1) cache candidates with
      | (cache, .error e) => (cache, .error e)
      | (cache, .ok scored) => (cache, .ok (⟨candidate.slot, similarity query vector⟩ :: scored))

/-- Attach locators to scored slots. -/
def nameHits (faults : Faults) (tables : Tables) (n : Nat) : List (Scored F) → Except VectorError (List (Hit F D))
  | [] => .ok []
  | entry :: scored => do
    sqlite (faults.statement n)
    match rowOf tables entry.slot with
    | none => .error (rowMissing entry.slot)
    | some row => do
      let hits ← nameHits faults tables (n + 1) scored
      .ok (⟨entry.slot, row.locator, some entry.similarity, none⟩ :: hits)

variable (selector : Selector Candidate.le)

/-- The transaction of a search. -/
def searchWork (faults : Faults) (tables : Tables) (tiers : Tiers F) (query : List F) (queryCode : List UInt8)
    (limit : Nat) : Tiers F × Except VectorError (List (Hit F D)) :=
  match syncIfStale config options faults tables tiers with
  | .error e => (tiers, .error e)
  | .ok tiers =>
    let width := max options.rerankWidth limit
    let candidates := tiers.state.codes.nearest selector queryCode width
    if candidates = [] then (tiers, .ok [])
    else
      match scoreAll config similarity faults tables query 2 tiers.cache candidates with
      | (cache, .error e) => ({ tiers with cache := cache }, .error e)
      | (cache, .ok scored) =>
        ({ tiers with cache := cache },
          nameHits faults tables (2 + candidates.length) ((orderExact scored).take limit))

/-- Nearest by meaning: scan the codes, then order the candidates by their exact vectors. -/
def searchSemantic (faults : Faults) (tables : Tables) (tiers : Tiers F) (query : List F) (limit : Nat) :
    Tiers F × Except VectorError (List (Hit F D)) :=
  match validate query config.dims with
  | .error e => (tiers, .error e)
  | .ok () =>
    if limit = 0 then (tiers, .ok [])
    else
      match encode query config.threshold with
      | .error e => (tiers, .error e)
      | .ok queryCode =>
        match faults.onBegin with
        | some e => (tiers, .error (.sqlite e))
        | none =>
          match searchWork config options similarity selector faults tables tiers query queryCode limit with
          | (tiers, .error e) => (tiers, .error e)
          | (tiers, .ok hits) =>
            match faults.onCommit with
            | some e => (tiers, .error (.sqlite e))
            | none => (tiers, .ok hits)

/-! ## Exhaustive search -/

def candidateOf (queryCode : List UInt8) (row : EntryRow) : Candidate := ⟨Hamming.hamming queryCode row.code, row.slot⟩

/-- The rows of the nearest codes, by distance and slot. -/
def shortlist (tables : Tables) (queryCode : List UInt8) (width : Nat) : List EntryRow :=
  (tables.entries.mergeSort fun a b => (candidateOf queryCode a).le (candidateOf queryCode b)).take width

/-- The hit of a row: its exact similarity to the query. -/
def hitOf (query : List F) (row : EntryRow) : Except VectorError (Hit F D) := do
  let vector ← decodeEmbedding row.embedding config.dims
  .ok ⟨row.slot, row.locator, some (similarity query vector), none⟩

/-- The most similar first, and of equally similar ones the smaller slot. -/
def Hit.before (a b : Hit F D) : Bool :=
  match a.similarity, b.similarity with
  | some x, some y => compareScored ⟨a.slot, x⟩ ⟨b.slot, y⟩ != .gt
  | _, _ => true

/-- The exact ranking of some rows, cut. -/
def ranking (rows : List EntryRow) (query : List F) (limit : Nat) : Except VectorError (List (Hit F D)) := do
  let hits ← rows.mapM (hitOf config similarity query)
  .ok ((hits.mergeSort Hit.before).take limit)

/-- Search the whole table by the exact vectors. -/
def exhaustive (tables : Tables) (query : List F) (limit : Nat) : Except VectorError (List (Hit F D)) := do
  validate query config.dims
  ranking config similarity tables.entries query limit

/-- Search the rows of the `width` nearest codes by their exact vectors. -/
def shortlisted (tables : Tables) (query : List F) (width limit : Nat) : Except VectorError (List (Hit F D)) := do
  validate query config.dims
  let queryCode ← encode query config.threshold
  ranking config similarity (shortlist tables queryCode width) query limit

/-! ## Reading back -/

theorem ofChunk_leBytes (value : F) : ofChunk (F32.leBytes value).toList = value := by
  have hbytes : ∀ bytes : Vector UInt8 4, #v[bytes.toList.getD 0 0, bytes.toList.getD 1 0, bytes.toList.getD 2 0,
      bytes.toList.getD 3 0] = bytes := by
    intro bytes
    apply Vector.ext
    intro i hi
    rcases i with _ | _ | _ | _ | i
    · simp
    · simp
    · simp
    · simp
    · omega
  rw [ofChunk, hbytes, StoredF32.ofLeBytes_leBytes]

omit [StoredF32 F] in
theorem length_encodeEmbedding [F32 F] (vector : List F) : (encodeEmbedding vector).length = vector.length * 4 := by
  induction vector with
  | nil => rfl
  | cons value vector ih =>
    rw [encodeEmbedding, List.flatMap_cons, List.length_append, List.length_cons, Nat.succ_mul]
    rw [encodeEmbedding] at ih
    simp only [ih, Vector.length_toList]
    omega

theorem chunks_encodeEmbedding (vector : List F) :
    (chunksExact 4 (encodeEmbedding vector)).map ofChunk = vector := by
  induction vector with
  | nil =>
    rw [encodeEmbedding, List.flatMap_nil, chunksExact_short (by decide)]
    rfl
  | cons value vector ih =>
    rw [encodeEmbedding, List.flatMap_cons, chunksExact_append (by simp) (by decide), List.map_cons, ofChunk_leBytes]
    exact congrArg (value :: ·) ih

/-- What was stored of a usable vector is read back. -/
theorem decode_encodeEmbedding {vector : List F} {dims : Nat} (h : validate vector dims = .ok ()) :
    decodeEmbedding (encodeEmbedding vector) dims = .ok vector := by
  unfold validate at h
  split at h
  · cases h
  · rename_i hlength
    split at h
    · cases h
    · rename_i hfault
      have hbytes : (encodeEmbedding vector).length = dims * 4 := by
        rw [length_encodeEmbedding, not_not.mp hlength]
      rw [decodeEmbedding, if_neg (not_not.mpr hbytes)]
      simp only [chunks_encodeEmbedding, StoredF32.storedFault_none vector hfault]

/-- The rows of an index, with vectors that can be read back. -/
structure Tables.Committed (config : Meta F) (tables : Tables) : Prop extends tables.Sound config where
  readable : ∀ row ∈ tables.entries, ∃ vector, decodeEmbedding row.embedding config.dims = .ok (vector : List F)

/-- The vector of a row. -/
def vectorOf (config : Meta F) (row : EntryRow) : List F :=
  match decodeEmbedding row.embedding config.dims with
  | .ok vector => vector
  | .error _ => []

variable {config : Meta F} {options : IndexOptions} {similarity : List F → List F → F}
  {selector : Selector Candidate.le} {tables : Tables} {tiers : Tiers F}

theorem Tables.Committed.decode (h : tables.Committed config) {row : EntryRow} (hrow : row ∈ tables.entries) :
    decodeEmbedding row.embedding config.dims = .ok (vectorOf config row) := by
  obtain ⟨vector, hvector⟩ := h.readable row hrow
  rw [vectorOf, hvector]

omit [StoredF32 F] in
theorem rowOf_mem (hs : (tables.entries.map (·.slot)).Nodup) {row : EntryRow} (hrow : row ∈ tables.entries) :
    rowOf tables row.slot = some row := by
  cases hfind : rowOf tables row.slot with
  | none =>
    rw [rowOf, List.find?_eq_none] at hfind
    exact absurd (decide_eq_true rfl) (hfind row hrow)
  | some found =>
    have hslot := slot_of_find hfind
    exact congrArg some (List.inj_on_of_nodup_map hs (List.mem_of_find?_eq_some hfind) hrow hslot)

/-! ## What the writes leave -/

/-- The rows after a write: those of the other slots, and for its own slot none or one that is new. -/
structure Keeps (tables t' : Tables) (slot : Int) (new : List UInt8 → Prop) : Prop where
  rows : ∀ row ∈ t'.entries, (row ∈ tables.entries ∧ row.slot ≠ slot) ∨ (row.slot = slot ∧ new row.embedding)
  others : ∀ row ∈ tables.entries, row.slot ≠ slot → row ∈ t'.entries

omit [StoredF32 F] in
theorem upsertWork_keeps {faults : Faults} {locator body : Str} {embedding code : List UInt8} {stamp : Nat}
    {t' : Tables} {write : Write} (h : upsertWork faults locator body embedding code stamp tables = .ok (t', write)) :
    Keeps tables t' write.slot (· = embedding) := by
  obtain ⟨-, -, -, ⟨found, -, hslot, hentries⟩ | ⟨hfresh, hentries⟩⟩ := upsertWork_cases h
  · constructor
    · intro row hrow
      rw [hentries] at hrow
      obtain ⟨old, hold, rfl⟩ := List.mem_map.mp hrow
      by_cases ho : old.slot = found.slot
      · rw [if_pos ho]
        exact Or.inr ⟨hslot.symm, rfl⟩
      · rw [if_neg ho]
        exact Or.inl ⟨hold, hslot.symm ▸ ho⟩
    · intro row hrow hother
      rw [hentries]
      exact List.mem_map.mpr ⟨row, hrow, if_neg (hslot ▸ hother)⟩
  · constructor
    · intro row hrow
      rw [hentries] at hrow
      rcases List.mem_append.mp hrow with hrow | hrow
      · refine Or.inl ⟨hrow, ?_⟩
        intro heq
        exact hfresh (heq ▸ List.mem_map_of_mem hrow)
      · rw [List.mem_singleton.mp hrow]
        exact Or.inr ⟨rfl, rfl⟩
    · intro row hrow _
      rw [hentries]
      exact List.mem_append_left _ hrow

omit [StoredF32 F] in
theorem removeWork_keeps {faults : Faults} {locator : Str} {t' : Tables} {write : Write}
    (h : removeWork faults locator tables = .ok (t', some write)) :
    Keeps tables t' write.slot fun _ => False := by
  rcases removeWork_cases h with ⟨hnone, -⟩ | ⟨found, hremoved, -, -, -, hentries⟩
  · cases hnone
  · cases hremoved
    constructor
    · intro row hrow
      rw [hentries] at hrow
      obtain ⟨hold, hslot⟩ := List.mem_filter.mp hrow
      exact Or.inl ⟨hold, by simpa using hslot⟩
    · intro row hrow hslot
      rw [hentries]
      exact List.mem_filter.mpr ⟨hrow, by simpa using hslot⟩

/-- A write keeps the rows readable when the one it adds is. -/
theorem Keeps.committed {t' : Tables} {slot : Int} {new : List UInt8 → Prop} (h : Keeps tables t' slot new)
    (hc : tables.Committed config) (hs : t'.Sound config)
    (hnew : ∀ bytes, new bytes → ∃ vector : List F, decodeEmbedding bytes config.dims = .ok vector) :
    t'.Committed config := by
  refine ⟨hs, ?_⟩
  intro row hrow
  rcases h.rows row hrow with ⟨hold, -⟩ | ⟨-, hadded⟩
  · exact hc.readable row hold
  · exact hnew _ hadded

/-! ## The tiers follow the table -/

/-- What the cache holds are the vectors of rows. -/
def CacheOf (config : Meta F) (tables : Tables) (cache : ExactCache F) : Prop :=
  ∀ slot vector, cache.held slot = some vector →
    ∃ row ∈ tables.entries, row.slot = slot ∧ vectorOf config row = vector

/-- The tiers show the table as it is: its revision, one code for each row, vectors of rows. -/
structure Mirrors (config : Meta F) (tables : Tables) (tiers : Tiers F) : Prop where
  committed : tables.Committed config
  revision : tiers.state.revision = tables.revision
  stride : tiers.state.codes.stride = config.codeBytes
  codes : tiers.state.codes.code = lookup tables.entries
  cache : CacheOf config tables tiers.cache

theorem Keeps.cacheOf {t' : Tables} {slot : Int} {new : List UInt8 → Prop} (h : Keeps tables t' slot new)
    {cache : ExactCache F} (hc : CacheOf config tables cache) : CacheOf config t' (cache.invalidate slot).1 := by
  intro other vector hheld
  obtain ⟨hother, hheld⟩ := ExactCache.held_invalidate hheld
  obtain ⟨row, hrow, rfl, hvector⟩ := hc other vector hheld
  exact ⟨row, h.others row hrow hother, rfl, hvector⟩

/-- A write that was committed and applied. -/
theorem Mirrors.apply (h : Mirrors config tables tiers) {t' : Tables} {write : Write} {new : List UInt8 → Prop}
    (hkeeps : Keeps tables t' write.slot new)
    (hnew : ∀ bytes, new bytes → ∃ vector : List F, decodeEmbedding bytes config.dims = .ok vector)
    (hsound : t'.Sound config) (hwrite : write.revision = t'.revision)
    (hwidth : ∀ code ∈ write.code, code.length = config.codeBytes)
    (hlookup : lookup t'.entries = write.act (lookup tables.entries)) : Mirrors config t' (tiers.apply write) := by
  have hwidth' : ∀ code ∈ write.code, code.length = tiers.state.codes.stride := by
    rw [h.stride]
    exact hwidth
  refine ⟨hkeeps.committed h.committed hsound hnew, ?_, ?_, ?_, hkeeps.cacheOf h.cache⟩
  · exact (revision_apply _ _).trans hwrite
  · exact (stride_apply _ _).trans h.stride
  · rw [hlookup, ← h.codes]
    exact code_apply hwidth'

theorem openTiers_mirrors (hc : tables.Committed config) :
    ∃ tiers : Tiers F, openTiers config options tables = .ok tiers ∧ Mirrors config tables tiers := by
  obtain ⟨codes, hload, hstride, hcodes⟩ := loadCodes_sound hc.toSound
  refine ⟨⟨⟨codes, tables.revision⟩, ExactCache.new options.cacheBytes⟩, ?_, hc, rfl, hstride, hcodes, ?_⟩
  · rw [openTiers, hload]
    rfl
  · intro slot vector hheld
    cases hheld

/-- The handle recorded another revision than the table's. -/
def Behind (config : Meta F) (tables : Tables) (tiers : Tiers F) : Prop :=
  tables.Committed config ∧ tiers.state.revision ≠ tables.revision

theorem statement_error {faults : Faults} {n : Nat} {e : RusqliteError} (h : faults.statement n = .error e) :
    faults.onStatement n = some e := by
  unfold Faults.statement at h
  cases hfault : faults.onStatement n with
  | none =>
    rw [hfault] at h
    cases h
  | some error =>
    rw [hfault] at h
    cases h
    rfl

variable (options) in
/-- Synchronised tiers show the table; nothing but a failing statement keeps them from it. -/
theorem syncIfStale_cases (h : Mirrors config tables tiers ∨ Behind config tables tiers) (faults : Faults) :
    (∃ tiers', syncIfStale config options faults tables tiers = .ok tiers' ∧ Mirrors config tables tiers') ∨
      ∃ i e, faults.statement i = .error e ∧ syncIfStale config options faults tables tiers = .error (.sqlite e) := by
  unfold syncIfStale
  cases hread : faults.statement 0 with
  | error e => exact Or.inr ⟨0, e, hread, rfl⟩
  | ok _ =>
    by_cases hsame : tiers.state.revision = tables.revision
    · refine Or.inl ⟨tiers, ?_, h.resolve_right fun hbehind => hbehind.2 hsame⟩
      rw [if_pos hsame]
      rfl
    · have hc : tables.Committed config := h.elim (fun hm => hm.committed) And.left
      obtain ⟨codes, hload, hstride, hcodes⟩ := loadCodes_sound hc.toSound
      rw [if_neg hsame]
      cases hload' : faults.statement 1 with
      | error e => exact Or.inr ⟨1, e, hload', rfl⟩
      | ok _ =>
        rw [hload]
        refine Or.inl ⟨_, rfl, hc, rfl, hstride, hcodes, ?_⟩
        intro slot vector hheld
        cases hheld

/-! ## The stages of a search -/

variable (options) (similarity) (selector)

/-- The exact score of a row. -/
def scoredOf (config : Meta F) (similarity : List F → List F → F) (query : List F) (row : EntryRow) : Scored F :=
  ⟨row.slot, similarity query (vectorOf config row)⟩

/-- The hit of a row that can be read. -/
def hitRow (config : Meta F) (similarity : List F → List F → F) (query : List F) (row : EntryRow) : Hit F D :=
  ⟨row.slot, row.locator, some (similarity query (vectorOf config row)), none⟩

/-- The order of the rows by their exact scores. -/
def rowBefore (config : Meta F) (similarity : List F → List F → F) (query : List F) (a b : EntryRow) : Bool :=
  compareScored (scoredOf config similarity query a) (scoredOf config similarity query b) != .gt

/-- The rows in the order of their exact scores. -/
def rankedRows (config : Meta F) (similarity : List F → List F → F) (query : List F) (rows : List EntryRow) :
    List EntryRow := rows.mergeSort (rowBefore config similarity query)

/-- A row's exact vector is found, unless the statement that reads it fails. -/
theorem exact_row (hc : tables.Committed config) {cache : ExactCache F} (hcache : CacheOf config tables cache)
    {row : EntryRow} (hrow : row ∈ tables.entries) (read : Except RusqliteError Unit) :
    CacheOf config tables (exact config read tables cache row.slot).1 ∧
      ((exact config read tables cache row.slot).2 = .ok (vectorOf config row) ∨
        ∃ e, read = .error e ∧ (exact config read tables cache row.slot).2 = .error (.sqlite e)) := by
  have hget : CacheOf config tables (cache.get row.slot).1 := by
    intro slot vector hheld
    rw [ExactCache.held_get] at hheld
    exact hcache slot vector hheld
  have hheld := ExactCache.get_snd cache row.slot
  unfold exact
  generalize hlooked : cache.get row.slot = looked at hget hheld ⊢
  obtain ⟨cache', found⟩ := looked
  cases found with
  | some vector =>
    obtain ⟨other, hother, hslot, hvector⟩ := hcache row.slot vector hheld.symm
    obtain rfl := List.inj_on_of_nodup_map hc.slots hother hrow hslot
    exact ⟨hget, Or.inl (congrArg Except.ok hvector.symm)⟩
  | none =>
    cases read with
    | error e => exact ⟨hget, Or.inr ⟨e, rfl, rfl⟩⟩
    | ok _ =>
      simp only [rowOf_mem hc.slots hrow, hc.decode hrow]
      refine ⟨?_, Or.inl trivial⟩
      intro slot vector hput
      rcases ExactCache.held_put hput with ⟨rfl, rfl⟩ | hold
      · exact ⟨row, hrow, rfl, rfl⟩
      · exact hget slot vector hold

/-- The candidates of some rows are scored as these rows. -/
theorem scoreAll_rows (hc : tables.Committed config) (faults : Faults) (query : List F) {rows : List EntryRow}
    (hrows : rows ⊆ tables.entries) {candidates : List Candidate}
    (hcandidates : candidates.map (·.slot) = rows.map (·.slot)) (n : Nat) {cache : ExactCache F}
    (hcache : CacheOf config tables cache) :
    CacheOf config tables (scoreAll config similarity faults tables query n cache candidates).1 ∧
      ((scoreAll config similarity faults tables query n cache candidates).2 =
          .ok (rows.map (scoredOf config similarity query)) ∨
        ∃ i e, faults.statement i = .error e ∧
          (scoreAll config similarity faults tables query n cache candidates).2 = .error (.sqlite e)) := by
  induction rows generalizing candidates n cache with
  | nil =>
    obtain rfl := List.map_eq_nil_iff.mp hcandidates
    exact ⟨hcache, Or.inl rfl⟩
  | cons row rows ih =>
    cases candidates with
    | nil => cases hcandidates
    | cons candidate candidates =>
      obtain ⟨hhead, hrest⟩ := List.cons.inj hcandidates
      have hslot : candidate.slot = row.slot := hhead
      obtain ⟨hrow, hrows⟩ := List.cons_subset.mp hrows
      have hexact := exact_row hc hcache hrow (faults.statement n)
      rw [← hslot] at hexact
      unfold scoreAll
      generalize exact config (faults.statement n) tables cache candidate.slot = looked at hexact ⊢
      obtain ⟨cache', found⟩ := looked
      obtain ⟨hcache', hfound | ⟨e, hfault, hfound⟩⟩ := hexact
      · obtain rfl : found = .ok (vectorOf config row) := hfound
        have hmore := ih hrows hrest (n + 1) hcache'
        simp only
        generalize scoreAll config similarity faults tables query (n + 1) cache' candidates = scanned at hmore ⊢
        obtain ⟨cache'', others⟩ := scanned
        obtain ⟨hcache'', hothers | ⟨i, e, hfault, hothers⟩⟩ := hmore
        · obtain rfl : others = .ok (rows.map (scoredOf config similarity query)) := hothers
          refine ⟨hcache'', Or.inl ?_⟩
          simp only [hslot]
          rfl
        · obtain rfl : others = .error (.sqlite e) := hothers
          exact ⟨hcache'', Or.inr ⟨i, e, hfault, rfl⟩⟩
      · obtain rfl : found = .error (.sqlite e) := hfound
        exact ⟨hcache', Or.inr ⟨n, e, hfault, rfl⟩⟩

/-- Scored rows are named by their locators. -/
theorem nameHits_rows (hc : tables.Committed config) (faults : Faults) (query : List F) {rows : List EntryRow}
    (hrows : rows ⊆ tables.entries) (n : Nat) :
    nameHits faults tables n (rows.map (scoredOf config similarity query)) =
        .ok (rows.map (hitRow (D := D) config similarity query)) ∨
      ∃ i e, faults.statement i = .error e ∧
        nameHits (D := D) faults tables n (rows.map (scoredOf config similarity query)) = .error (.sqlite e) := by
  induction rows generalizing n with
  | nil => exact Or.inl rfl
  | cons row rows ih =>
    obtain ⟨hrow, hrows⟩ := List.cons_subset.mp hrows
    rw [List.map_cons, nameHits]
    cases hfault : faults.statement n with
    | error e => exact Or.inr ⟨n, e, hfault, rfl⟩
    | ok _ =>
      have hfound : rowOf tables (scoredOf config similarity query row).slot = some row := rowOf_mem hc.slots hrow
      rw [hfound]
      rcases ih hrows (n + 1) with hmore | ⟨i, e, hfault', hmore⟩
      · rw [hmore]
        exact Or.inl rfl
      · rw [hmore]
        exact Or.inr ⟨i, e, hfault', rfl⟩

/-- Scoring and ordering commute. -/
theorem orderExact_rows (query : List F) (rows : List EntryRow) :
    orderExact (rows.map (scoredOf config similarity query)) =
      (rankedRows config similarity query rows).map (scoredOf config similarity query) := by
  rw [orderExact, rankedRows, List.map_mergeSort]
  intro a _ b _
  rfl

/-- The ranking of rows of the table, cut. -/
theorem ranking_rows (hc : tables.Committed config) (query : List F) {rows : List EntryRow}
    (hrows : rows ⊆ tables.entries) (limit : Nat) :
    ranking config similarity rows query limit =
      .ok (((rankedRows config similarity query rows).take limit).map (hitRow (D := D) config similarity query)) := by
  have hhits : rows.mapM (hitOf config similarity query) =
      .ok (rows.map (hitRow (D := D) config similarity query)) := by
    apply mapM_eq_ok
    intro row hrow
    rw [hitOf, hc.decode (hrows hrow)]
    rfl
  have hsort : (rows.map (hitRow (D := D) config similarity query)).mergeSort Hit.before =
      (rankedRows config similarity query rows).map (hitRow config similarity query) := by
    rw [rankedRows, List.map_mergeSort]
    intro a _ b _
    rfl
  rw [ranking, hhits, List.map_take, ← hsort]
  rfl

/-- The nearest codes are those of the shortlist. -/
theorem nearest_shortlist (h : Mirrors config tables tiers) {queryCode : List UInt8}
    (hcode : queryCode.length = config.codeBytes) (width : Nat) :
    tiers.state.codes.nearest selector queryCode width =
      (shortlist tables queryCode width).map (candidateOf queryCode) := by
  have husable := config.usable
  have hpos : 0 < tiers.state.codes.stride := by
    rw [h.stride, Meta.codeBytes]
    omega
  have hlength := hcode.trans h.stride.symm
  have hentries := (resident_of_code h.committed.toSound h.codes).map fun entry =>
    (⟨Hamming.hamming queryCode entry.2, entry.1⟩ : Candidate)
  have hmap : (tables.entries.mergeSort fun a b => (candidateOf queryCode a).le (candidateOf queryCode b)).map
      (candidateOf queryCode) = (tables.entries.map (candidateOf queryCode)).mergeSort Candidate.le :=
    List.map_mergeSort fun _ _ _ _ => rfl
  rw [List.map_map] at hentries
  rw [CodeTable.nearest_eq_take selector hpos hlength, CodeTable.scored_hamming hpos hlength,
    sort_perm linear_le hentries, shortlist, List.map_take, hmap]
  rfl

theorem shortlist_subset (tables : Tables) (queryCode : List UInt8) (width : Nat) :
    shortlist tables queryCode width ⊆ tables.entries :=
  fun _ hrow => List.mem_mergeSort.mp (List.mem_of_mem_take hrow)

/-! ## The search -/

/-- A call of the database library in a transaction fails with this error. -/
def Failing (faults : Faults) (e : RusqliteError) : Prop :=
  faults.onBegin = some e ∨ (∃ n, faults.onStatement n = some e) ∨ faults.onCommit = some e

theorem encode_valid {query : List F} (h : validate query config.dims = .ok ()) :
    ∃ code, encode query config.threshold = .ok code := by
  have hlength : query.length = config.threshold.length := by
    unfold validate at h
    split at h
    · cases h
    · rename_i hlength
      rw [not_not.mp hlength, config.frozen]
  exact ⟨_, by rw [encode, if_neg (not_not.mpr hlength)]⟩

/-- The transaction of a search ranks the shortlist, or a statement fails. -/
theorem searchWork_ranks (h : Mirrors config tables tiers ∨ Behind config tables tiers) (faults : Faults)
    (query : List F) {queryCode : List UInt8} (hcode : queryCode.length = config.codeBytes) (limit : Nat) :
    (Mirrors config tables tiers →
        Mirrors config tables (searchWork (D := D) config options similarity selector faults tables tiers query queryCode
          limit).1) ∧
      ((searchWork config options similarity selector faults tables tiers query queryCode limit).2 =
          ranking (D := D) config similarity (shortlist tables queryCode (max options.rerankWidth limit)) query limit ∨
        ∃ i e, faults.statement i = .error e ∧
          (searchWork (D := D) config options similarity selector faults tables tiers query queryCode limit).2 =
            .error (.sqlite e)) := by
  unfold searchWork
  rcases syncIfStale_cases options h faults with ⟨synced, hsync, hm⟩ | ⟨i, e, hfault, hsync⟩
  · rw [hsync]
    simp only
    have hnearest := nearest_shortlist selector hm hcode (max options.rerankWidth limit)
    have hsubset := shortlist_subset tables queryCode (max options.rerankWidth limit)
    rw [hnearest, ranking_rows similarity hm.committed query hsubset]
    generalize shortlist tables queryCode (max options.rerankWidth limit) = rows at hsubset ⊢
    by_cases hnone : rows.map (candidateOf queryCode) = []
    · rw [if_pos hnone]
      obtain rfl := List.map_eq_nil_iff.mp hnone
      refine ⟨fun _ => hm, Or.inl ?_⟩
      rw [rankedRows, List.mergeSort_nil, List.take_nil, List.map_nil]
    · rw [if_neg hnone]
      have hslots : (rows.map (candidateOf queryCode)).map (·.slot) = rows.map (·.slot) := List.map_map
      have hscore := scoreAll_rows similarity hm.committed faults query hsubset hslots 2 hm.cache
      generalize scoreAll config similarity faults tables query 2 synced.cache (rows.map (candidateOf queryCode)) =
        scanned at hscore ⊢
      obtain ⟨cache, found⟩ := scanned
      obtain ⟨hcache, hfound | ⟨i, e, hfault, hfound⟩⟩ := hscore
      · obtain rfl : found = .ok (rows.map (scoredOf config similarity query)) := hfound
        refine ⟨fun _ => ⟨hm.committed, hm.revision, hm.stride, hm.codes, hcache⟩, ?_⟩
        simp only
        rw [orderExact_rows, ← List.map_take]
        apply nameHits_rows similarity hm.committed faults query
        intro row hrow
        exact hsubset (List.mem_mergeSort.mp (List.mem_of_mem_take hrow))
      · obtain rfl : found = .error (.sqlite e) := hfound
        exact ⟨fun _ => ⟨hm.committed, hm.revision, hm.stride, hm.codes, hcache⟩, Or.inr ⟨i, e, hfault, rfl⟩⟩
  · rw [hsync]
    exact ⟨id, Or.inr ⟨i, e, hfault, rfl⟩⟩

/-- A search ranks the rows of the nearest codes, or a call of the library fails. -/
theorem searchSemantic_ranks (h : Mirrors config tables tiers ∨ Behind config tables tiers) (faults : Faults)
    (query : List F) (limit : Nat) :
    (Mirrors config tables tiers →
        Mirrors config tables (searchSemantic (D := D) config options similarity selector faults tables tiers query
          limit).1) ∧
      ((searchSemantic config options similarity selector faults tables tiers query limit).2 =
          shortlisted (D := D) config similarity tables query (max options.rerankWidth limit) limit ∨
        ∃ e, Failing faults e ∧
          (searchSemantic (D := D) config options similarity selector faults tables tiers query limit).2 =
            .error (.sqlite e)) := by
  unfold searchSemantic shortlisted
  cases hvalid : validate query config.dims with
  | error e => exact ⟨id, Or.inl rfl⟩
  | ok _ =>
    have hc : tables.Committed config := h.elim (fun hm => hm.committed) And.left
    obtain ⟨queryCode, hencode⟩ := encode_valid hvalid
    have hcode := length_encode hencode
    simp only [hencode]
    by_cases hlimit : limit = 0
    · rw [if_pos hlimit]
      refine ⟨id, Or.inl ?_⟩
      have hranking := ranking_rows (D := D) similarity hc query
        (shortlist_subset tables queryCode (max options.rerankWidth limit)) limit
      rw [hlimit, List.take_zero, List.map_nil] at hranking
      rw [hlimit]
      exact hranking.symm
    · rw [if_neg hlimit]
      cases hbegin : faults.onBegin with
      | some e => exact ⟨id, Or.inr ⟨e, Or.inl hbegin, rfl⟩⟩
      | none =>
        have hwork := searchWork_ranks (D := D) options similarity selector h
          faults query hcode limit
        simp only
        generalize searchWork (D := D) config options similarity selector faults tables tiers query queryCode limit =
          worked at hwork ⊢
        obtain ⟨tiers', result⟩ := worked
        obtain ⟨hkeeps, hresult⟩ := hwork
        cases result with
        | error e =>
          refine ⟨hkeeps, ?_⟩
          rcases hresult with hresult | ⟨i, e', hfault, hresult⟩
          · exact Or.inl hresult
          · cases hresult
            exact Or.inr ⟨e', Or.inr (Or.inl ⟨i, statement_error hfault⟩), rfl⟩
        | ok hits =>
          cases hcommit : faults.onCommit with
          | some e => exact ⟨hkeeps, Or.inr ⟨e, Or.inr (Or.inr hcommit), rfl⟩⟩
          | none =>
            refine ⟨hkeeps, Or.inl ?_⟩
            rcases hresult with hresult | ⟨i, e', hfault, hresult⟩
            · exact hresult
            · cases hresult

/-! ## Runs of a handle -/

/-- A table and the tiers of a handle on it. -/
structure Indexed (F : Type) where
  tables : Tables
  tiers : Tiers F

inductive IndexOp (F : Type) where
  | upsert (faults : Faults) (stamp : Nat) (locator body : Str) (embedding : List F)
  | remove (faults : Faults) (locator : Str)
  | search (faults : Faults) (query : List F) (limit : Nat)

variable (config)

def Indexed.apply (w : Indexed F) : IndexOp F → Indexed F
  | .upsert faults stamp locator body embedding =>
    match commitUpsert config faults stamp w.tables locator body embedding with
    | (tables, .ok write) => ⟨tables, w.tiers.apply write⟩
    | (tables, .error _) => ⟨tables, w.tiers⟩
  | .remove faults locator =>
    match commitRemove faults w.tables locator with
    | (tables, .ok (some write)) => ⟨tables, w.tiers.apply write⟩
    | (tables, _) => ⟨tables, w.tiers⟩
  | .search faults query limit =>
    ⟨w.tables,
      (searchSemantic (D := Unit) config options similarity selector faults w.tables w.tiers query limit).1⟩

/-- The states in which a search can start: a handle is opened on a committed table and has done anything since, or
the table was committed behind its back. -/
inductive Reached : Indexed F → Prop
  | opened {tables : Tables} {tiers : Tiers F} (hc : tables.Committed config)
      (h : openTiers config options tables = .ok tiers) : Reached ⟨tables, tiers⟩
  | next {w : Indexed F} (op : IndexOp F) (h : Reached w) : Reached (w.apply config options similarity selector op)

variable {config options similarity selector}

theorem Reached.foldl {w : Indexed F} (h : Reached config options similarity selector w) (ops : List (IndexOp F)) :
    Reached config options similarity selector
      (ops.foldl (Indexed.apply config options similarity selector) w) := by
  induction ops generalizing w with
  | nil => exact h
  | cons op ops ih => exact ih (h.next op)

theorem Mirrors.next {w : Indexed F} (h : Mirrors config w.tables w.tiers) (op : IndexOp F) :
    Mirrors config (w.apply config options similarity selector op).tables
      (w.apply config options similarity selector op).tiers := by
  cases op with
  | upsert faults stamp locator body embedding =>
    cases hcommit : commitUpsert config faults stamp w.tables locator body embedding with
    | mk tables result =>
      simp only [Indexed.apply, hcommit]
      cases result with
      | error e =>
        obtain rfl := commitUpsert_error hcommit
        exact h
      | ok write =>
        obtain ⟨hvalid, code, hcode, hwork⟩ := commitUpsert_cases hcommit
        obtain ⟨hsound, -, hwrite, hwidth, hlookup⟩ := commitUpsert_ok h.committed.toSound hcommit
        refine h.apply (upsertWork_keeps hwork) ?_ hsound hwrite hwidth hlookup
        rintro bytes rfl
        exact ⟨embedding, decode_encodeEmbedding hvalid⟩
  | remove faults locator =>
    cases hcommit : commitRemove faults w.tables locator with
    | mk tables result =>
      simp only [Indexed.apply, hcommit]
      cases result with
      | error e =>
        obtain rfl : tables = w.tables := withTransaction_error hcommit
        exact h
      | ok removed =>
        have hwork := sqlite_eq_ok (withTransaction_ok hcommit)
        rcases removeWork_ok h.committed.toSound hwork with
          ⟨rfl, rfl⟩ | ⟨write, rfl, hsound, -, hwrite, hset, hlookup⟩
        · exact h
        · refine h.apply (removeWork_keeps hwork) (fun _ => False.elim) hsound hwrite ?_ hlookup
          intro code hcode
          rw [hset] at hcode
          cases hcode
  | search faults query limit => exact (searchSemantic_ranks options similarity selector (Or.inl h) faults query limit).1 h

theorem Reached.mirrors {w : Indexed F} (h : Reached config options similarity selector w) :
    Mirrors config w.tables w.tiers := by
  induction h with
  | @opened tables tiers hc h =>
    obtain ⟨tiers', hopen, hm⟩ := @openTiers_mirrors F _ config options tables hc
    rw [h] at hopen
    cases hopen
    exact hm
  | next op _ ih => exact ih.next op

/-! ## Nothing is left out -/

/-- The similarity to the query is a total preorder of the entries. -/
structure PreorderOn (config : Meta F) (similarity : List F → List F → F) (query : List F) (rows : List EntryRow) :
    Prop where
  swap : ∀ a ∈ rows, ∀ b ∈ rows,
    moreSimilar (similarity query (vectorOf config b)) (similarity query (vectorOf config a)) =
      (moreSimilar (similarity query (vectorOf config a)) (similarity query (vectorOf config b))).swap
  trans : ∀ a ∈ rows, ∀ b ∈ rows, ∀ c ∈ rows,
    moreSimilar (similarity query (vectorOf config a)) (similarity query (vectorOf config b)) ≠ .gt →
    moreSimilar (similarity query (vectorOf config b)) (similarity query (vectorOf config c)) ≠ .gt →
      moreSimilar (similarity query (vectorOf config a)) (similarity query (vectorOf config c)) ≠ .gt

theorem rowBefore_iff (query : List F) (a b : EntryRow) :
    rowBefore config similarity query a b = true ↔
      moreSimilar (similarity query (vectorOf config a)) (similarity query (vectorOf config b)) = .lt ∨
      moreSimilar (similarity query (vectorOf config a)) (similarity query (vectorOf config b)) = .eq ∧
        a.slot ≤ b.slot := by
  simp only [rowBefore, compareScored, scoredOf, bne_iff_ne]
  cases moreSimilar (similarity query (vectorOf config a)) (similarity query (vectorOf config b)) with
  | lt => simp
  | eq => simp [compare_gt_iff_gt]
  | gt => simp

/-- With the slots to break ties, the ranking is a linear order of the rows. -/
theorem PreorderOn.linear {query : List F} (h : PreorderOn config similarity query tables.entries)
    (hslots : (tables.entries.map (·.slot)).Nodup) :
    LinearOn (rowBefore config similarity query) tables.entries := by
  refine ⟨?_, ?_, ?_⟩
  · intro a ha b hb c hc hab hbc
    have htrans := h.trans a ha b hb c hc
    have hback := h.trans c hc a ha b hb
    have hback' := h.trans b hb c hc a ha
    rw [rowBefore_iff] at hab hbc ⊢
    rw [h.swap b hb c hc] at hback
    rw [h.swap a ha b hb] at hback'
    rw [h.swap a ha c hc] at hback hback'
    rcases hab with hab | ⟨hab, hle⟩ <;> rcases hbc with hbc | ⟨hbc, hle'⟩ <;>
      cases hac : moreSimilar (similarity query (vectorOf config a)) (similarity query (vectorOf config c)) <;>
      simp [hab, hbc, hac] at htrans hback hback' ⊢
    omega
  · intro a ha b hb
    have hswap := h.swap a ha b hb
    rw [Bool.or_eq_true, rowBefore_iff, rowBefore_iff, hswap]
    cases moreSimilar (similarity query (vectorOf config a)) (similarity query (vectorOf config b)) with
    | lt => simp
    | eq =>
      simp
      omega
    | gt => simp
  · intro a ha b hb hab hba
    have hswap := h.swap a ha b hb
    rw [rowBefore_iff] at hab hba
    apply List.inj_on_of_nodup_map hslots ha hb
    rw [hswap] at hba
    rcases hab with hab | ⟨hab, hle⟩
    · simp [hab] at hba
    · simp [hab] at hba
      omega

/-- A shortlist of everything is ranked as the table is. -/
theorem shortlisted_all (hc : tables.Committed config) {query : List F}
    (h : PreorderOn config similarity query tables.entries) {width : Nat} (hwidth : tables.entries.length ≤ width)
    (limit : Nat) :
    shortlisted (D := D) config similarity tables query width limit = exhaustive config similarity tables query limit := by
  unfold shortlisted exhaustive
  cases hvalid : validate query config.dims with
  | error e => rfl
  | ok _ =>
    obtain ⟨queryCode, hencode⟩ := encode_valid hvalid
    have hperm : (shortlist tables queryCode width).Perm tables.entries := by
      rw [shortlist, List.take_of_length_le]
      · exact List.mergeSort_perm _ _
      · rwa [List.length_mergeSort]
    have hsame : rankedRows config similarity query (shortlist tables queryCode width) =
        rankedRows config similarity query tables.entries :=
      ((h.linear hc.slots).sort_perm hperm.symm).symm
    rw [hencode]
    simp only [bind, Except.bind]
    rw [ranking_rows similarity hc query hperm.subset, ranking_rows similarity hc query (fun _ hrow => hrow), hsame]

/-- A search of a handle that has been doing anything on a committed table, or that the table has moved away from,
answers with the exact ranking of the nearest codes' rows, unless a call of the library fails; when the rerank width
covers the table, and the similarities are a total preorder of its entries, that is the exact ranking of the table. -/
theorem search_exact {w : Indexed F}
    (h : Reached config options similarity selector w ∨ Behind config w.tables w.tiers) (faults : Faults)
    (query : List F) (limit : Nat) (hpreorder : PreorderOn config similarity query w.tables.entries) :
    ((searchSemantic config options similarity selector faults w.tables w.tiers query limit).2 =
        shortlisted (D := D) config similarity w.tables query (max options.rerankWidth limit) limit ∨
      ∃ e, Failing faults e ∧
        (searchSemantic (D := D) config options similarity selector faults w.tables w.tiers query limit).2 =
          .error (.sqlite e)) ∧
    (w.tables.entries.length ≤ options.rerankWidth →
      shortlisted (D := D) config similarity w.tables query (max options.rerankWidth limit) limit =
        exhaustive config similarity w.tables query limit) := by
  have hfollows := h.imp_left Reached.mirrors
  refine ⟨(searchSemantic_ranks options similarity selector hfollows faults query limit).2, ?_⟩
  intro hwidth
  have hc : w.tables.Committed config := hfollows.elim (fun hm => hm.committed) And.left
  exact shortlisted_all hc hpreorder (hwidth.trans (le_max_left _ _)) limit

end

/-! ## Two axes -/

theorem fault_of_none {vector : List Component} (_ : F32.fault vector = none) : (none : Option String) = none := rfl

instance : StoredF32 Component where
  ofLeBytes bytes := if bytes.toList = [0, 0, 0x80, 0x3F] then .one else .zero
  partialCmp a b := if a = b then some .eq else if a = .zero then some .lt else some .gt
  storedFault _ := none
  ofLeBytes_leBytes value := by cases value <;> decide
  storedFault_none := @fault_of_none

/-- The dot product of vectors along axes. -/
def axesProduct (a b : List Component) : Component :=
  if (a.zip b).any fun pair => pair.1 = .one ∧ pair.2 = .one then .one else .zero

def twoWide : IndexOptions := ⟨2, 64⟩

def newTiers : Tiers Component := ⟨⟨CodeTable.new 1, 0⟩, ExactCache.new 64⟩

theorem x_fits : "x".utf8ByteSize < 2 ^ 63 := by decide

theorem first_fits : "first".utf8ByteSize < 2 ^ 63 := by decide

theorem y_fits : "y".utf8ByteSize < 2 ^ 63 := by decide

theorem second_fits : "second".utf8ByteSize < 2 ^ 63 := by decide

/-- A handle has written `x` and `y` and searched for the second one. -/
def axesIndexed : Indexed Component :=
  [IndexOp.upsert Faults.none 0 ⟨"x", x_fits⟩ ⟨"first", first_fits⟩ (axis 0),
    .upsert Faults.none 0 ⟨"y", y_fits⟩ ⟨"second", second_fits⟩ (axis 1), .search Faults.none (axis 1) 1].foldl
    (Indexed.apply eightDims twoWide axesProduct (Selector.sorting linear_le)) ⟨Tables.empty, newTiers⟩

theorem preorder_component (similarity : List Component → List Component → Component) (query : List Component)
    (rows : List EntryRow) : PreorderOn eightDims similarity query rows := by
  have hswap : ∀ x y : Component, moreSimilar y x = (moreSimilar x y).swap := by
    intro x y
    cases x <;> cases y <;> decide
  have htrans : ∀ x y z : Component, moreSimilar x y ≠ .gt → moreSimilar y z ≠ .gt → moreSimilar x z ≠ .gt := by
    intro x y z
    cases x <;> cases y <;> cases z <;> decide
  exact ⟨fun _ _ _ _ => hswap _ _, fun _ _ _ _ _ _ => htrans _ _ _⟩

theorem search_exact_axes :
    Reached eightDims twoWide axesProduct (Selector.sorting linear_le) axesIndexed ∧
      PreorderOn eightDims axesProduct (axis 0) axesIndexed.tables.entries ∧
      axesIndexed.tables.entries.length ≤ twoWide.rerankWidth ∧
      (searchSemantic (D := Unit) eightDims twoWide axesProduct (Selector.sorting linear_le) Faults.none
        axesIndexed.tables axesIndexed.tiers (axis 0) 2).2 =
        exhaustive eightDims axesProduct axesIndexed.tables (axis 0) 2 := by
  have hempty : Tables.empty.Committed eightDims :=
    ⟨⟨List.nodup_nil, fun row hrow => by cases hrow⟩, fun row hrow => by cases hrow⟩
  have hopened : Reached eightDims twoWide axesProduct (Selector.sorting linear_le) ⟨Tables.empty, newTiers⟩ :=
    .opened hempty (by rw [openTiers, loadCodes, Tables.empty, List.mergeSort_nil]; rfl)
  have hreached : Reached eightDims twoWide axesProduct (Selector.sorting linear_le) axesIndexed :=
    hopened.foldl _
  have hpreorder := preorder_component axesProduct (axis 0) axesIndexed.tables.entries
  have hwidth : axesIndexed.tables.entries.length ≤ twoWide.rerankWidth := by decide +kernel
  refine ⟨hreached, hpreorder, hwidth, ?_⟩
  obtain ⟨hresult, hall⟩ := search_exact (D := Unit) (Or.inl hreached) Faults.none (axis 0) 2 hpreorder
  rcases hresult with hresult | ⟨e, hfault, -⟩
  · exact hresult.trans (hall hwidth)
  · rcases hfault with hbegin | ⟨n, hstatement⟩ | hcommit
    · cases hbegin
    · cases hstatement
    · cases hcommit

end SupraHarness.Vector
