import Mathlib.Data.List.SplitOn
import SupraHarness.Digest.Index
import SupraHarness.Lib.Passes
import SupraHarness.Vector.Entries

/-!
# Retrieval

The anchors for a task. The symbols that share a term with the task are put into the shared vector
index for one search and taken out again; where the task has no vector, or nothing is found, they are
ranked by their terms instead. The anchors have a budget, and a set that exceeds it is refused.
-/
namespace SupraHarness.Digest

open Scan

/-- The character functions of the standard library that follow the Unicode tables. -/
structure Unicode where
  isAlphanumeric : Char → Bool
  toLowercase : Text → Text

inductive DigestError where
  | badRoot (detail : String)
  | unreadable (path : Path) (detail : String)
  | overBudget (tokens budget : Nat)
  | vector (source : Vector.VectorError)
  deriving DecidableEq, Repr

def Language.name : Language → String
  | .rust => "rust"
  | .typeScript => "typescript"
  | .python => "python"
  | .javaScript => "javascript"
  | .go => "go"
  | .c => "c"
  | .cpp => "cpp"

def SymbolKind.name : SymbolKind → String
  | .function => "function"
  | .type => "type"
  | .module => "module"
  | .constant => "constant"
  | .import_ => "import"

/-- The length of a text in bytes. -/
def byteLen (text : Text) : Nat := (Utf8.encode text).length

/-- `path:start-end`. -/
def Symbol.locator (symbol : Symbol) : Text :=
  ['/'].intercalate symbol.path ++ ':' :: Nat.toDigits 10 symbol.startByte ++ '-' ::
    Nat.toDigits 10 symbol.endByte

/-- Build a deterministic gist from a symbol record, without its first line. -/
def gistForSymbol (symbol : Symbol) : Text :=
  symbol.name ++ " (".toList ++ symbol.kind.name.toList ++
    (match symbol.parent with
    | some parent => " of ".toList ++ parent
    | none => []) ++
    ", ".toList ++ symbol.language.name.toList ++ ")".toList

/-! ## Anchors and their budget -/

structure Anchor where
  locator : Text
  gist : Text
  kind : SymbolKind
  rank : Option Nat
  deriving DecidableEq, Repr

def maxAnchors : Nat := 10

def suffixTokens : Nat := 300

def bytesPerToken : Nat := 3

/-- Estimated tokens: locator plus gist, rounded up. -/
def Anchor.tokens (anchor : Anchor) : Nat :=
  (byteLen anchor.locator + byteLen anchor.gist + bytesPerToken - 1) / bytesPerToken

/-- Check an anchor set against both budgets. -/
def checkBudget (anchors : List Anchor) : Except DigestError Unit :=
  let tokens := (anchors.map Anchor.tokens).sum
  if maxAnchors < anchors.length then .error (.overBudget tokens suffixTokens)
  else if suffixTokens < tokens then .error (.overBudget tokens suffixTokens)
  else .ok ()

/-- Both budgets hold. -/
def WithinBudget (anchors : List Anchor) : Prop :=
  anchors.length ≤ maxAnchors ∧ (anchors.map Anchor.tokens).sum ≤ suffixTokens

theorem checkBudget_eq_ok {anchors : List Anchor} : checkBudget anchors = .ok () ↔ WithinBudget anchors := by
  rw [checkBudget, WithinBudget]
  split_ifs with many long
  · exact iff_of_false nofun fun both => absurd both.1 (Nat.not_le.2 many)
  · exact iff_of_false nofun fun both => absurd both.2 (Nat.not_le.2 long)
  · exact iff_of_true rfl ⟨Nat.not_lt.1 many, Nat.not_lt.1 long⟩

/-! ## The pool -/

section Retrieve
variable (unicode : Unicode)

/-- Split a task description into lowercase identifier terms. -/
def taskTerms (task : Text) : List Text :=
  ((task.splitOnP fun c => !unicode.isAlphanumeric c && c ≠ '_').filter (· ≠ [])).map unicode.toLowercase

def contains (text term : Text) : Bool := (find term text).isSome

/-- Symbols whose names, or the names of whose parents, contain a term of the task, with their gists. -/
def candidatePool {Δ : Type} (index : SymbolIndex Δ) (terms : List Text) : List (Symbol × Text) :=
  (SymbolIndex.indexedPaths index).flatMap fun path =>
    (SymbolIndex.symbolsIn index path).filterMap fun symbol =>
      let nameLower := unicode.toLowercase symbol.name
      let parentLower := unicode.toLowercase (symbol.parent.getD [])
      if terms.any fun term => contains nameLower term || contains parentLower term then
        some (symbol, gistForSymbol symbol)
      else none

/-- `matches(term).count()`: the occurrences that do not overlap. -/
def countMatches (term : Text) : Nat → Text → Nat
  | 0, _ => 0
  | fuel + 1, text =>
    match find term text with
    | none => 0
    | some before => countMatches term fuel (text.drop (before + term.length)) + 1

/-- The score of a gist: its hits of each term, the more the fewer gists of the pool have the term. -/
def score (candidates : List (Symbol × Text)) (terms : List Text) (gist : Text) : Nat :=
  let gistLower := unicode.toLowercase gist
  (terms.map fun term =>
    let hits := countMatches term (gistLower.length + 1) gistLower
    let docs := max (candidates.countP fun other => contains (unicode.toLowercase other.2) term) 1
    hits * candidates.length / docs).sum

def anchorOf (candidate : Symbol × Text) (rank : Nat) : Anchor :=
  ⟨candidate.1.locator, candidate.2, candidate.1.kind, some rank⟩

/-- Pool-local lexical ranking, when the semantic lane is absent. -/
def lexicalFallback (candidates : List (Symbol × Text)) (terms : List Text) (limit : Nat) : List Anchor :=
  let scored := (candidates.map fun candidate => (score unicode candidates terms candidate.2, candidate)).filter
    fun scored => 0 < scored.1
  ((scored.insertionSort fun left right => right.1 ≤ left.1).take limit).zipIdx.map fun (scored, rank) =>
    anchorOf scored.2 rank

/-- The locator of an entry of the pool. -/
def poolLocator (position : Nat) : Text := "digest#".toList ++ Nat.toDigits 10 position

theorem poolLocator_injective {m n : Nat} (same : poolLocator m = poolLocator n) : m = n := by
  have digits : Nat.toDigits 10 m = Nat.toDigits 10 n := List.append_cancel_left same
  rw [← Nat.ofDigitChars_ten_toDigits (n := m), digits, Nat.ofDigitChars_ten_toDigits]

/-! ## The retrieval -/

/-- How the shared index answers the calls of one retrieval: the entry it makes of a gist and its vector,
if it takes them; the locators that its search finds; and whether a removal succeeds, by the draining
and the position in the pool. -/
structure Answers (E F : Type) where
  takes : Nat → List F → Option E
  found : List F → Except Vector.VectorError (List Text)
  removes : Nat → Nat → Bool

variable {E F : Type} (answers : Answers E F) (embed : Text → Option (List F))

/-- The entries of the index, by locator. -/
abbrev Entries (E : Type) := Text → Option E

/-- The store answers so: where it takes an upsert, its entries are changed under the locator as by
`fillPool`, where a removal succeeds as by `drainPool`, and a call that fails changes nothing. -/
theorem store_answers [Vector.F32 F] {config : Vector.Meta F} {faults : Store.Faults} {stamp : Nat}
    {tables : Vector.Tables} (hk : tables.Keyed) (locator body : Types.Str) (vector : List F) :
    (match Vector.commitUpsert config faults stamp tables locator body vector with
      | (tables', .ok _) => ∃ entry,
          Vector.contents tables' = Function.update (Vector.contents tables) locator.text.toList (some entry)
      | (tables', .error _) => tables' = tables) ∧
    (match Vector.commitRemove faults tables locator with
      | (tables', .ok _) =>
          Vector.contents tables' = Function.update (Vector.contents tables) locator.text.toList none
      | (tables', .error _) => tables' = tables) := by
  constructor
  · cases h : Vector.commitUpsert config faults stamp tables locator body vector with
    | mk tables' result =>
      cases result with
      | ok write =>
        obtain ⟨-, code, -, changed⟩ := Vector.contents_upsert hk h
        exact ⟨_, changed⟩
      | error e => exact Vector.commitUpsert_error h
  · cases h : Vector.commitRemove faults tables locator with
    | mk tables' result =>
      cases result with
      | ok removed => exact (Vector.contents_remove hk h).2
      | error e => exact Vector.commitRemove_error h

/-- Put a gist that has a vector into the index, and remember its position if the index took it. -/
def putGist (state : Entries E × List Nat) (item : (Symbol × Text) × Nat) : Entries E × List Nat :=
  match embed item.1.2 with
  | none => state
  | some vector =>
    match answers.takes item.2 vector with
    | none => state
    | some entry => (Function.update state.1 (poolLocator item.2) (some entry), state.2 ++ [item.2])

/-- Put the candidates into the index; the positions that it took. -/
def fillPool (candidates : List (Symbol × Text)) (entries : Entries E) : Entries E × List Nat :=
  candidates.zipIdx.foldl (putGist answers embed) (entries, [])

/-- Remove scratch pool entries from the shared index; a removal that fails is ignored. -/
def drainPool (draining : Nat) (pool : List Nat) (entries : Entries E) : Entries E :=
  pool.foldl (fun entries position =>
    if answers.removes draining position then Function.update entries (poolLocator position) none
    else entries) entries

/-- The anchors of the hits that are entries of the pool. -/
def anchorsOf (candidates : List (Symbol × Text)) (pool : List Nat) (hits : List Text) : List Anchor :=
  hits.zipIdx.filterMap fun (locator, rank) =>
    (pool.find? fun position => poolLocator position = locator).bind fun position =>
      (candidates[position]?).map fun candidate => anchorOf candidate rank

/-- The end of `rank_pool`, with the anchors that the search gave. -/
def finish (candidates : List (Symbol × Text)) (terms : List Text) (pool : List Nat) (anchors : List Anchor)
    (entries : Entries E) : Entries E × Except DigestError (List Anchor) :=
  let anchors := if anchors.isEmpty then lexicalFallback unicode candidates terms maxAnchors else anchors
  match checkBudget anchors with
  | .error error => (entries, .error error)
  | .ok () => (drainPool answers 1 pool entries, .ok anchors)

/-- Rank the candidate pool through the hybrid lanes, with lexical fallback. -/
def rankPool (candidates : List (Symbol × Text)) (terms : List Text) (task : Text) (entries : Entries E) :
    Entries E × Except DigestError (List Anchor) :=
  let (entries, pool) := fillPool answers embed candidates entries
  match embed task with
  | some query =>
    let hits := answers.found query
    let entries := drainPool answers 0 pool entries
    match hits with
    | .error error => (entries, .error (.vector error))
    | .ok hits => finish unicode answers candidates terms pool (anchorsOf candidates pool hits) entries
  | none => finish unicode answers candidates terms pool [] entries

/-- Retrieve anchors for a task, from what the rescan left of the symbol index. -/
def retrieve {Δ : Type} (rescanned : Except DigestError (SymbolIndex Δ)) (task : Text) (entries : Entries E) :
    Entries E × Except DigestError (List Anchor) :=
  match rescanned with
  | .error error => (entries, .error error)
  | .ok index =>
    let terms := taskTerms unicode task
    if terms.isEmpty then (entries, .ok [])
    else
      let candidates := candidatePool unicode index terms
      if candidates.isEmpty then (entries, .ok [])
      else rankPool unicode answers embed candidates terms task entries

/-! ## What is left in the index -/

/-- The candidates of a retrieval; none where it does not come to rank them. -/
def candidatesOf {Δ : Type} (rescanned : Except DigestError (SymbolIndex Δ)) (task : Text) :
    List (Symbol × Text) :=
  match rescanned with
  | .error _ => []
  | .ok index => candidatePool unicode index (taskTerms unicode task)

/-- The position of a candidate whose gist has a vector that the index takes, with the entry. -/
def takenAt (item : (Symbol × Text) × Nat) : Option (Nat × E) :=
  (embed item.1.2).bind fun vector => (answers.takes item.2 vector).map fun entry => (item.2, entry)

def taken (candidates : List (Symbol × Text)) : List (Nat × E) :=
  candidates.zipIdx.filterMap (takenAt answers embed)

/-- The retrieval gets past the check of the budget: the search of a task that has a vector does not fail,
and the anchors, ranked by their terms where there are none from a search, are within the budget. -/
def Finishes (candidates : List (Symbol × Text)) (terms : List Text) (task : Text) : Prop :=
  ∃ anchors : List Anchor,
    (match embed task with
      | none => anchors = []
      | some query => ∃ hits, answers.found query = .ok hits ∧
          anchors = anchorsOf candidates ((taken answers embed candidates).map Prod.fst) hits) ∧
    WithinBudget (if anchors.isEmpty then lexicalFallback unicode candidates terms maxAnchors else anchors)

/-- A draining that the retrieval comes to removes the entry of a position: the one after the search of
a task that has a vector, or the one at the end. -/
def Drained (candidates : List (Symbol × Text)) (terms : List Text) (task : Text) (position : Nat) : Prop :=
  ((embed task).isSome = true ∧ answers.removes 0 position = true) ∨
    (Finishes unicode answers embed candidates terms task ∧ answers.removes 1 position = true)

/-- Every entry of the pool is removed and had nothing in its place, or stays and was there already. -/
def Restores (candidates : List (Symbol × Text)) (terms : List Text) (task : Text) (entries : Entries E) : Prop :=
  ∀ item ∈ taken answers embed candidates,
    (Drained unicode answers embed candidates terms task item.1 → entries (poolLocator item.1) = none) ∧
      (¬ Drained unicode answers embed candidates terms task item.1 →
        entries (poolLocator item.1) = some item.2)

section Passes
variable {candidates : List (Symbol × Text)} {terms : List Text} {task : Text} {entries : Entries E}

/-- The locator of an item of the pool. -/
abbrev itemLocator (item : Nat × E) : Text := poolLocator item.1

theorem takenAt_fst {item : (Symbol × Text) × Nat} {found : Nat × E}
    (h : takenAt answers embed item = some found) : found.1 = item.2 := by
  simp only [takenAt, Option.bind_eq_some_iff, Option.map_eq_some_iff] at h
  obtain ⟨_, -, _, -, rfl⟩ := h
  rfl

theorem sublist_taken (items : List ((Symbol × Text) × Nat)) :
    ((items.filterMap (takenAt answers embed)).map Prod.fst).Sublist (items.map Prod.snd) := by
  induction items with
  | nil => exact List.Sublist.refl _
  | cons item items ih =>
    rw [List.filterMap_cons]
    cases found : takenAt answers embed item with
    | none => exact ih.cons _
    | some entry =>
      rw [List.map_cons, List.map_cons, takenAt_fst answers embed found]
      exact ih.cons_cons _

theorem nodup_taken : ((taken answers embed candidates).map itemLocator).Nodup := by
  have positions := (sublist_taken answers embed candidates.zipIdx).nodup
    (by rw [List.zipIdx_map_snd]; exact List.nodup_range')
  have distinct := positions.map fun m n => poolLocator_injective
  rwa [List.map_map] at distinct

theorem putGist_eq (state : Entries E × List Nat) (item : (Symbol × Text) × Nat) :
    putGist answers embed state item =
      match takenAt answers embed item with
      | none => state
      | some found => (Function.update state.1 (itemLocator found) (some found.2), state.2 ++ [found.1]) := by
  rw [putGist, takenAt]
  cases embed item.1.2 with
  | none => rfl
  | some vector =>
    simp only [Option.bind_some]
    cases answers.takes item.2 vector <;> rfl

theorem foldl_putGist (items : List ((Symbol × Text) × Nat)) (entries : Entries E) (pool : List Nat) :
    items.foldl (putGist answers embed) (entries, pool) =
      (Passes.pass itemLocator (fun item _ => some item.2) (items.filterMap (takenAt answers embed)) entries,
        pool ++ (items.filterMap (takenAt answers embed)).map Prod.fst) := by
  induction items generalizing entries pool with
  | nil => simp [Passes.pass]
  | cons item items ih =>
    rw [List.foldl_cons, List.filterMap_cons, putGist_eq]
    cases takenAt answers embed item with
    | none => exact ih entries pool
    | some found => simpa [Passes.pass] using ih _ (pool ++ [found.1])

theorem fillPool_eq :
    fillPool answers embed candidates entries =
      (Passes.pass itemLocator (fun item _ => some item.2) (taken answers embed candidates) entries,
        (taken answers embed candidates).map Prod.fst) :=
  foldl_putGist answers embed candidates.zipIdx entries []

theorem drainPool_eq (draining : Nat) (items : List (Nat × E)) :
    drainPool answers draining (items.map Prod.fst) entries =
      Passes.pass itemLocator (fun item old => if answers.removes draining item.1 then none else old) items
        entries := by
  rw [drainPool, List.foldl_map, Passes.pass]
  congr 1
  funext entries item
  by_cases removed : answers.removes draining item.1 = true
  · rw [if_pos removed, if_pos removed]
  · rw [if_neg removed, if_neg removed, Function.update_eq_self]

/-- What becomes of the entries of the pool, some of which go, and of the others. -/
structure Left (candidates : List (Symbol × Text)) (goes : Nat → Prop) (entries entries' : Entries E) : Prop where
  gone : ∀ item ∈ taken answers embed candidates, goes item.1 → entries' (itemLocator item) = none
  kept : ∀ item ∈ taken answers embed candidates, ¬ goes item.1 →
    entries' (itemLocator item) = entries (itemLocator item)
  away : ∀ locator ∉ (taken answers embed candidates).map itemLocator, entries' locator = entries locator

theorem Left.none_gone (entries : Entries E) : Left answers embed candidates (fun _ => False) entries entries :=
  ⟨fun _ _ => False.elim, fun _ _ _ => rfl, fun _ _ => rfl⟩

variable {answers embed}

theorem Left.trans {first second : Nat → Prop} {entries entries' entries'' : Entries E}
    (before : Left answers embed candidates first entries entries')
    (after : Left answers embed candidates second entries' entries'') :
    Left answers embed candidates (fun position => first position ∨ second position) entries entries'' := by
  refine ⟨?_, ?_, ?_⟩
  · intro item mem out
    by_cases later : second item.1
    · exact after.gone item mem later
    · rw [after.kept item mem later]
      exact before.gone item mem (out.resolve_right later)
  · intro item mem stays
    rw [not_or] at stays
    rw [after.kept item mem stays.2, before.kept item mem stays.1]
  · intro locator absent
    rw [after.away locator absent, before.away locator absent]

theorem Left.congr {goes goes' : Nat → Prop} {entries entries' : Entries E}
    (h : Left answers embed candidates goes entries entries') (same : ∀ position, goes' position ↔ goes position) :
    Left answers embed candidates goes' entries entries' :=
  ⟨fun item mem out => h.gone item mem ((same _).1 out),
    fun item mem stays => h.kept item mem fun out => stays ((same _).2 out), h.away⟩

theorem left_drainPool (entries : Entries E) (draining : Nat) :
    Left answers embed candidates (fun position => answers.removes draining position = true) entries
      (drainPool answers draining ((taken answers embed candidates).map Prod.fst) entries) := by
  rw [drainPool_eq]
  refine ⟨?_, ?_, ?_⟩
  · intro item mem out
    rw [Passes.pass_of_mem (nodup_taken answers embed) mem, if_pos out]
  · intro item mem stays
    rw [Passes.pass_of_mem (nodup_taken answers embed) mem, if_neg stays]
  · intro locator absent
    exact Passes.pass_of_notMem absent

/-- The end of the retrieval drains the pool if the anchors are within the budget. -/
theorem left_finish (entries : Entries E) (anchors : List Anchor) :
    Left answers embed candidates
      (fun position =>
        WithinBudget (if anchors.isEmpty then lexicalFallback unicode candidates terms maxAnchors else anchors) ∧
          answers.removes 1 position = true) entries
      (finish unicode answers candidates terms ((taken answers embed candidates).map Prod.fst) anchors entries).1 := by
  rw [finish]
  cases checked : checkBudget
      (if anchors.isEmpty then lexicalFallback unicode candidates terms maxAnchors else anchors) with
  | ok _ =>
    have within := checkBudget_eq_ok.1 checked
    exact (left_drainPool entries 1).congr fun position => and_iff_right within
  | error error =>
    refine (Left.none_gone answers embed entries).congr fun position => ?_
    simp only [iff_false, ← checkBudget_eq_ok, checked]
    exact nofun

/-- A retrieval that ranks its candidates leaves of the filled index what its drainings leave. -/
theorem left_rankPool (candidates : List (Symbol × Text)) (terms : List Text) (task : Text) (entries : Entries E) :
    Left answers embed candidates (Drained unicode answers embed candidates terms task)
      (fillPool answers embed candidates entries).1
      (rankPool unicode answers embed candidates terms task entries).1 := by
  have pool : (fillPool answers embed candidates entries).2 = (taken answers embed candidates).map Prod.fst := by
    rw [fillPool_eq]
  simp only [rankPool, pool]
  cases vector : embed task with
  | none =>
    apply (left_finish unicode _ []).congr
    intro position
    simp [Drained, Finishes, vector]
  | some query =>
    have searched : Left answers embed candidates (fun position => answers.removes 0 position = true)
        (fillPool answers embed candidates entries).1 _ := left_drainPool _ 0
    cases found : answers.found query with
    | error error =>
      simp only [found]
      apply searched.congr
      intro position
      simp [Drained, Finishes, vector, found]
    | ok hits =>
      simp only [found]
      apply (searched.trans (left_finish unicode _ _)).congr
      intro position
      simp [Drained, Finishes, vector, found]

theorem filled_taken {entries : Entries E} {item : Nat × E} (mem : item ∈ taken answers embed candidates) :
    (fillPool answers embed candidates entries).1 (itemLocator item) = some item.2 := by
  rw [fillPool_eq]
  dsimp only
  rw [Passes.pass_of_mem (nodup_taken answers embed) mem]

theorem filled_away {entries : Entries E} {locator : Text}
    (absent : locator ∉ (taken answers embed candidates).map itemLocator) :
    (fillPool answers embed candidates entries).1 locator = entries locator := by
  rw [fillPool_eq]
  dsimp only
  rw [Passes.pass_of_notMem absent]

theorem rankPool_restores_iff :
    (rankPool unicode answers embed candidates terms task entries).1 = entries ↔
      Restores unicode answers embed candidates terms task entries := by
  have left : Left answers embed candidates _ _ (rankPool unicode answers embed candidates terms task entries).1 :=
    left_rankPool unicode candidates terms task entries
  rw [Passes.eq_iff_of_away fun locator absent => (left.away locator absent).trans (filled_away absent)]
  constructor
  · intro same item mem
    constructor
    · intro out
      rw [← same item mem, left.gone item mem out]
    · intro stays
      rw [← same item mem, left.kept item mem stays, filled_taken mem]
  · intro restores item mem
    by_cases out : Drained unicode answers embed candidates terms task item.1
    · rw [left.gone item mem out, (restores item mem).1 out]
    · rw [left.kept item mem out, filled_taken mem, (restores item mem).2 out]

end Passes

theorem restores_nil (terms : List Text) (task : Text) (entries : Entries E) :
    Restores unicode answers embed [] terms task entries := nofun

/-- A retrieval leaves the index as it was exactly where each entry of its pool is removed, and nothing
was in its place, or stays and was there already. -/
theorem retrieve_restores_iff {Δ : Type} (rescanned : Except DigestError (SymbolIndex Δ)) (task : Text)
    (entries : Entries E) :
    (retrieve unicode answers embed rescanned task entries).1 = entries ↔
      Restores unicode answers embed (candidatesOf unicode rescanned task) (taskTerms unicode task) task
        entries := by
  cases rescanned with
  | error error => exact iff_of_true rfl (restores_nil unicode answers embed _ task entries)
  | ok index =>
    rw [retrieve, candidatesOf]
    by_cases terms : (taskTerms unicode task).isEmpty = true
    · have none : candidatePool unicode index (taskTerms unicode task) = [] := by
        rw [List.isEmpty_iff.1 terms]
        simp [candidatePool]
      rw [if_pos terms, none]
      exact iff_of_true rfl (restores_nil unicode answers embed _ task entries)
    · rw [if_neg terms]
      by_cases pool : (candidatePool unicode index (taskTerms unicode task)).isEmpty = true
      · rw [if_pos pool, List.isEmpty_iff.1 pool]
        exact iff_of_true rfl (restores_nil unicode answers embed _ task entries)
      · rw [if_neg pool]
        exact rankPool_restores_iff unicode

end Retrieve

/-- Letters, and the ASCII case. -/
def asciiUnicode : Unicode := ⟨Char.isAlphanum, List.map Char.toLower⟩

/-- A function far down in the tree. -/
def deepSymbol : Symbol where
  kind := .function
  name := "a".toList
  parent := none
  startByte := 0
  endByte := 9
  startLine := 1
  path := List.replicate 5 (List.replicate 200 'd') ++ ["a.rs".toList]
  language := .rust

def deepIndex : SymbolIndex Unit := OrdMap.empty.insert deepSymbol.path ⟨(), [deepSymbol]⟩

/-- The task has no vector and its anchor is over the budget: the gist stays in the index. -/
theorem retrieve_leaks :
    let answers : Answers Unit Unit := ⟨fun _ _ => some (), fun _ => .ok [], fun _ _ => true⟩
    let embed : Text → Option (List Unit) := fun text => if text = "a".toList then none else some [()]
    (retrieve asciiUnicode answers embed (.ok deepIndex) "a".toList fun _ => none).1 ≠ fun _ => none := by
  intro answers embed same
  have left := congrFun same (poolLocator 0)
  revert left
  decide +kernel

end SupraHarness.Digest
