import SupraHarness.Journal.History
import Mathlib.Data.Char
import Mathlib.Data.List.Lex
import Mathlib.Data.List.MinMax
import Mathlib.Data.Prod.Lex

/-!
# The newest snapshot of a path

The report orders the live rows of a path by the timestamp in their identifiers
and, within a millisecond, by the identifiers themselves. An identifier is a
clock reading followed by random bits, so this is the order in which the
snapshots were taken only while every snapshot gets a greater identifier than
the ones of its path that still stand.
-/
namespace SupraHarness.Journal

open SupraHarness.Types SupraHarness.Store SupraHarness.Inodes SupraHarness.Run

/-! ## The report -/

/-- One stored snapshot, as a report reads it. -/
structure SnapshotRow where
  snapshot : SnapshotId
  path : Str
  digest : ContentHash
  byteLen : Int
  createdAt : Int
  undone : Bool
  deriving DecidableEq, Repr

def wrongWidth : RusqliteError :=
  ⟨"Conversion error from type Blob at index: 2, wrong digest width"⟩

def decodeRow (row : Row) : Except RusqliteError SnapshotRow :=
  if h : row.beforeHash.length = 32 then
    .ok ⟨row.snapshot, row.path, ⟨⟨row.beforeHash.toArray, by simpa using h⟩⟩, row.byteLen, row.createdAt,
      row.undone⟩
  else .error wrongWidth

instance sortKeyLinearOrder : LinearOrder (Int ×ₗ List Char) := @Prod.Lex.instLinearOrder Int (List Char) Int.instLinearOrder _

instance sortKeyPreorder : Preorder (Int ×ₗ List Char) := inferInstanceAs (Preorder (Int ×ₗ List Char))

/-- `created_at`, then `snapshot_id`: texts compare by their code points. -/
def sortKey (row : Row) : Int ×ₗ List Char := toLex (row.createdAt, row.snapshot.text.toList)

/-- The rows of a path that are not undone. -/
def live (rows : List Row) (path : Str) : List Row :=
  rows.filter fun row => row.path = path ∧ row.undone = false

/-- `.. WHERE path = ?1 AND undone = 0 ORDER BY created_at DESC, snapshot_id DESC LIMIT 1` -/
def newestRow (rows : List Row) (path : Str) : Option Row := (live rows path).argmax sortKey

def selectNewest (fault : Option RusqliteError) (rows : List Row) (path : Str) :
    Except StoreError (Option SnapshotRow) := do
  statement fault
  match newestRow rows path with
  | none => pure none
  | some row => (refused (decodeRow row)).map some

/-- `newest_for_path`, with what the path resolves to. -/
def newestForPath (canonical : Except IoError (Vec UInt8)) (faults : Faults) (rows : List Row) :
    Except JournalError (Option SnapshotRow) :=
  match canonical with
  | .error error => .error (.io error)
  | .ok resolvedPath =>
    match pathText resolvedPath with
    | none => .error (.nonUtf8Path resolvedPath.toList)
    | some path =>
      (withTransaction faults JournalError.sqlite rows fun rows =>
        match selectNewest (faults.onStatement 0) rows path with
        | .error error => .error (.store error)
        | .ok found => .ok (rows, found)).2

/-- The snapshots that a number of undos mark, each of the newest one. -/
def undoNewest : Nat → List Row → Str → List SnapshotId
  | 0, _, _ => []
  | n + 1, rows, path =>
    match newestRow rows path with
    | none => []
    | some row => row.snapshot :: undoNewest n (marked rows row.snapshot) path

/-! ## What was taken and what was undone -/

/-- The snapshot that a step takes, and its path. -/
def taken (s : Step) : Option (SnapshotId × Str) :=
  match s.2.1 with
  | .snapshot call (.withTransaction _ generated) =>
    match s.1.calls call, s.2.2.calls call with
    | .ready path _, .answered (.ok _) => some (generated, path)
    | _, _ => none
  | _ => none

/-- The snapshot that a step marks undone. -/
def unmade (s : Step) : Option SnapshotId :=
  match s.2.1, s.2.2.undo with
  | .undo (.commit _), some ⟨_, snapshot, _, _, _, .done (.ok ()), _, _⟩ => some snapshot
  | _, _ => none

/-- The snapshots of a path that are not undone, in the order they were taken. -/
def standing (hist : List Step) (path : Str) : List SnapshotId :=
  ((hist.filterMap taken).filter fun t => t.2 = path ∧ t.1 ∉ hist.filterMap unmade).map (·.1)

/-- The report names the snapshot taken last of those that stand, and undos of the newest go back from it. -/
structure WalksBack (rows : List Row) (standing : Str → List SnapshotId) : Prop where
  newest : ∀ resolved path, pathText resolved = some path →
    (newestForPath (.ok resolved) .none rows).map (Option.map (·.snapshot)) = .ok (standing path).getLast?
  undone : ∀ path n, undoNewest n rows path = (standing path).reverse.take n

/-- The snapshot that a step takes has an identifier above those of its path that stand. -/
def InOrder (hist : List Step) (s : Step) : Prop :=
  ∀ snapshot path, taken s = some (snapshot, path) →
    ∀ earlier ∈ standing hist path, earlier.toU128 < snapshot.toU128

/-! ## Rows and history -/

variable {blake3 : List UInt8 → ContentHash} {w w' : World} {hist : List Step} {rows : List Row} {path : Str}

/-- What every row of the journal has. -/
structure Row.Kept (row : Row) : Prop where
  dated : row.createdAt = i64OrMax row.snapshot.timestampMs.toNat
  hashed : row.beforeHash.length = 32

/-- The rows are what was taken, in order, and marked what was undone. -/
structure Recorded (rows : List Row) (hist : List Step) : Prop where
  taken : rows.map (fun row => (row.snapshot, row.path)) = hist.filterMap taken
  undone : ∀ row ∈ rows, row.undone = true ↔ row.snapshot ∈ hist.filterMap unmade
  kept : ∀ row ∈ rows, row.Kept
  past : ∀ snapshot ∈ hist.filterMap unmade, snapshot ∈ rows.map (·.snapshot)

theorem Recorded.live_eq (h : Recorded rows hist) (path : Str) :
    (live rows path).map (·.snapshot) = standing hist path := by
  rw [standing, ← h.taken, List.filter_map, List.map_map, live]
  congr 1
  apply List.filter_congr
  intro row hrow
  have hmark := h.undone row hrow
  cases hundone : row.undone with
  | false =>
    rw [hundone] at hmark
    have hnot : row.snapshot ∉ hist.filterMap unmade := fun hmem => by simpa using hmark.mpr hmem
    simp [hnot]
  | true =>
    rw [hundone] at hmark
    have hmem : row.snapshot ∈ hist.filterMap unmade := hmark.mp rfl
    simp [hmem]

/-- All of a row but its bytes. -/
def Row.facts (row : Row) : SnapshotId × Str × Bytes × Int × Bool :=
  (row.snapshot, row.path, row.beforeHash, row.createdAt, row.undone)

/-- Rows that differ in their bytes only. -/
theorem exists_of_facts {rows' : List Row} {row : Row} (h : rows'.map Row.facts = rows.map Row.facts)
    (hrow : row ∈ rows') :
    ∃ old ∈ rows, row.snapshot = old.snapshot ∧ row.undone = old.undone ∧ (old.Kept → row.Kept) := by
  have hmem := List.mem_map_of_mem (f := Row.facts) hrow
  rw [h, List.mem_map] at hmem
  obtain ⟨old, hold, hsame⟩ := hmem
  simp only [Row.facts, Prod.mk.injEq] at hsame
  obtain ⟨hid, -, hhash, hdate, hundone⟩ := hsame
  refine ⟨old, hold, hid.symm, hundone.symm, ?_⟩
  intro hkept
  exact ⟨by rw [← hdate, ← hid, hkept.dated], by rw [← hhash, hkept.hashed]⟩

/-- What a step does to the rows, with the snapshot it takes and the one it marks. -/
inductive Moves (rows : List Row) : List Row → Option (SnapshotId × Str) → Option SnapshotId → Prop where
  | quiet {rows' : List Row} (h : rows'.map Row.facts = rows.map Row.facts) : Moves rows rows' none none
  | takes {row : Row} (hkept : row.Kept) (hlive : row.undone = false)
      (hfresh : row.snapshot ∉ rows.map (·.snapshot)) :
      Moves rows (rows ++ [row]) (some (row.snapshot, row.path)) none
  | marks {snapshot : SnapshotId} (hrow : snapshot ∈ rows.map (·.snapshot)) :
      Moves rows (marked rows snapshot) none (some snapshot)

theorem facts_damaged (rows : List Row) (snapshot : SnapshotId) (before : Bytes) :
    (damaged rows snapshot before).map Row.facts = rows.map Row.facts := by
  rw [damaged, List.map_map]
  apply List.map_congr_left
  intro row _
  simp only [Function.comp]
  split <;> rfl

/-- Before its commit an undo has changed no row. -/
theorem Undo.step_rows {fs fs' : Fs Path Bytes} {rows rows' : List Row} {u u' : Undo} {s : UndoStep}
    (hs : ∀ fault, s ≠ .commit fault) (h : u.step blake3 fs rows s = some (fs', rows', u')) : rows' = rows := by
  cases s with
  | commit fault => exact absurd rfl (hs fault)
  | begins snapshot fault => cases h
  | returns => cases h
  | _ =>
    simp only [Undo.step] at h
    repeat' split at h
    all_goals cases h
    all_goals rfl

theorem commit_moves {fault : Option RusqliteError} {u u' : Undo} {fs : Fs Path Bytes} {rows : List Row}
    (h : Inv blake3 w hist) (hu : w.undo = some u)
    (hstep : u.step blake3 w.fs w.rows (.commit fault) = some (fs, rows, u')) :
    Moves w.rows rows none
      (unmade (w, .undo (.commit fault), { w with fs := fs, rows := rows, undo := some u' })) := by
  have hstage := (h.good u hu).stage
  unfold Undo.step at hstep
  unfold Undo.Stage at hstage
  cases hphase : u.phase with
  | committing changed =>
    rw [hphase] at hstep hstage
    obtain ⟨-, ⟨row, hrow, hid, -⟩, rfl⟩ := hstage
    cases fault with
    | some error =>
      cases hstep
      exact .quiet rfl
    | none =>
      cases hstep
      exact .marks (hid ▸ List.mem_map_of_mem hrow)
  | _ =>
    rw [hphase] at hstep
    cases hstep

theorem undo_moves {s : UndoStep} {u u' : Undo} {fs : Fs Path Bytes} {rows : List Row}
    (h : Inv blake3 w hist) (hu : w.undo = some u) (hstep : u.step blake3 w.fs w.rows s = some (fs, rows, u')) :
    Moves w.rows rows none (unmade (w, .undo s, { w with fs := fs, rows := rows, undo := some u' })) := by
  cases s with
  | commit fault => exact commit_moves h hu hstep
  | _ =>
    obtain rfl := Undo.step_rows (by simp) hstep
    exact .quiet rfl

theorem step_moves {a : Act} (h : Inv blake3 w hist) (hstep : step blake3 w a = some w') :
    Moves w.rows w'.rows (taken (w, a, w')) (unmade (w, a, w')) := by
  cases step_cases hstep with
  | @snapshot call s c hc =>
    cases s with
    | withTransaction faults generated => cases hcall : w.calls call <;> rw [hcall] at hc <;> cases hc
    | _ => exact .quiet rfl
  | @refused call faults generated e hidle =>
    have htaken : taken (w, .snapshot call (.withTransaction faults generated),
        w.setCall call (.answered (.error e))) = none := by
      simp [taken, World.setCall]
    rw [htaken]
    exact .quiet rfl
  | @inserted call faults row hcall hidle hfresh hhash hdate hlive =>
    simp only [taken, hcall, World.setCall, Function.update_self]
    exact .takes ⟨hdate, by rw [hhash]; simp⟩ hlive hfresh
  | undo hu hs => exact undo_moves h hu hs
  | @damage snapshot before hidle => exact .quiet (facts_damaged w.rows snapshot before)
  | _ => exact .quiet rfl

theorem mem_marked_undone {row : Row} {snapshot : SnapshotId} (h : row ∈ marked rows snapshot) :
    ∃ old ∈ rows, row.snapshot = old.snapshot ∧ row.createdAt = old.createdAt ∧ row.beforeHash = old.beforeHash ∧
      (row.undone = true ↔ old.undone = true ∨ old.snapshot = snapshot) := by
  rw [marked, List.mem_map] at h
  obtain ⟨old, hold, rfl⟩ := h
  refine ⟨old, hold, ?_⟩
  split
  · rename_i hsame
    exact ⟨rfl, rfl, rfl, by simp [hsame.1]⟩
  · rename_i hother
    refine ⟨rfl, rfl, rfl, ?_⟩
    constructor
    · exact Or.inl
    · rintro (hmark | hid)
      · exact hmark
      · simpa [hid] using hother

theorem kept_marked {snapshot : SnapshotId} (h : ∀ row ∈ rows, row.Kept) : ∀ row ∈ marked rows snapshot, row.Kept := by
  intro row hrow
  obtain ⟨old, hold, hid, hdate, hhash, -⟩ := mem_marked_undone hrow
  have hkept := h old hold
  exact ⟨by rw [hdate, hid, hkept.dated], by rw [hhash, hkept.hashed]⟩

theorem filterMap_concat {α β : Type} (f : α → Option β) (l : List α) (a : α) :
    (l ++ [a]).filterMap f = l.filterMap f ++ (f a).toList := by
  rw [List.filterMap_append]
  cases h : f a with
  | none => simp [h]
  | some b => simp [h]

theorem Recorded.moves {rows' : List Row} {s : Step} (h : Recorded rows hist)
    (hmoves : Moves rows rows' (Journal.taken s) (unmade s)) : Recorded rows' (hist ++ [s]) := by
  have htaken := filterMap_concat Journal.taken hist s
  have hunmade := filterMap_concat unmade hist s
  generalize Journal.taken s = t at hmoves htaken
  generalize unmade s = m at hmoves hunmade
  constructor
  · rw [htaken, ← h.taken]
    cases hmoves with
    | quiet hfacts =>
      simpa [Function.comp_def, Row.facts] using congrArg (List.map fun f => (f.1, f.2.1)) hfacts
    | takes => simp
    | marks =>
      rw [marked, List.map_map, Option.toList_none, List.append_nil]
      apply List.map_congr_left
      intro row _
      simp only [Function.comp]
      split <;> rfl
  · rw [hunmade]
    intro row hrow
    cases hmoves with
    | quiet hfacts =>
      obtain ⟨old, hold, hid, hmark, -⟩ := exists_of_facts hfacts hrow
      rw [hid, hmark, Option.toList_none, List.append_nil]
      exact h.undone old hold
    | takes hkept hlive hfresh =>
      rw [Option.toList_none, List.append_nil]
      rcases List.mem_append.mp hrow with hrow | hrow
      · exact h.undone row hrow
      · obtain rfl := List.mem_singleton.mp hrow
        have hnot : row.snapshot ∉ hist.filterMap unmade := fun hmem => hfresh (h.past _ hmem)
        simp [hlive, hnot]
    | marks =>
      obtain ⟨old, hold, hid, -, -, hmark⟩ := mem_marked_undone hrow
      rw [hmark, h.undone old hold, hid]
      simp
  · intro row hrow
    cases hmoves with
    | quiet hfacts =>
      obtain ⟨old, hold, -, -, hkept⟩ := exists_of_facts hfacts hrow
      exact hkept (h.kept old hold)
    | takes hkept hlive hfresh =>
      rcases List.mem_append.mp hrow with hrow | hrow
      · exact h.kept row hrow
      · exact List.mem_singleton.mp hrow ▸ hkept
    | marks => exact kept_marked h.kept row hrow
  · rw [hunmade]
    intro snapshot hmem
    cases hmoves with
    | quiet hfacts =>
      have hids : rows'.map (·.snapshot) = rows.map (·.snapshot) := by
        simpa [Function.comp_def, Row.facts] using congrArg (List.map fun f => f.1) hfacts
      rw [Option.toList_none, List.append_nil] at hmem
      rw [hids]
      exact h.past snapshot hmem
    | takes hkept hlive hfresh =>
      rw [Option.toList_none, List.append_nil] at hmem
      rw [List.map_append]
      exact List.mem_append_left _ (h.past snapshot hmem)
    | marks hrow =>
      rw [snapshots_marked]
      rcases List.mem_append.mp hmem with hmem | hmem
      · exact h.past snapshot hmem
      · exact (by simpa using hmem : snapshot = _) ▸ hrow

/-! ## The order of the report -/

theorem i64OrMax_mono {m n : Nat} (h : m ≤ n) : i64OrMax m ≤ i64OrMax n := by
  unfold i64OrMax
  split
  · split
    · exact Int.ofNat_le.mpr h
    · rename_i hm _
      omega
  · split
    · omega
    · exact Int.le_refl _

theorem timestampMs_mono {a b : SnapshotId} (h : a.toU128 ≤ b.toU128) :
    a.timestampMs.toNat ≤ b.timestampMs.toNat := by
  have ha := a.toU128_lt
  have hb := b.toU128_lt
  simp only [Id.timestampMs, UInt64.toNat_ofNat']
  omega

/-- The report orders the rows of the journal as their identifiers. -/
theorem sortKey_lt {a b : Row} (ha : a.Kept) (hb : b.Kept) (h : a.snapshot.toU128 < b.snapshot.toU128) :
    sortKey a < sortKey b := by
  rw [sortKey, sortKey, Prod.Lex.toLex_lt_toLex, ha.dated, hb.dated]
  have hdate := i64OrMax_mono (timestampMs_mono (Nat.le_of_lt h))
  rcases Int.lt_or_eq_of_le hdate with hlt | heq
  · exact Or.inl hlt
  · refine Or.inr ⟨heq, ?_⟩
    change a.snapshot.text.toList < b.snapshot.text.toList
    exact Id.text_lt h

/-- The greatest of an ascending list is its last. -/
theorem argmax_of_ascending {α β : Type} [LinearOrder β] {f : α → β} {l : List α}
    (h : l.Pairwise fun a b => f a < f b) : l.argmax f = l.getLast? := by
  induction l using List.reverseRecOn with
  | nil => rfl
  | append_singleton l a ih =>
    obtain ⟨hl, -, hlast⟩ := List.pairwise_append.mp h
    rw [List.argmax_concat, ih hl, List.getLast?_concat]
    cases hbest : l.getLast? with
    | none => rfl
    | some best =>
      have hlt : f best < f a := hlast best (List.mem_of_getLast? hbest) a (List.mem_singleton_self a)
      exact if_pos hlt

def Ascending (ids : List SnapshotId) : Prop := ids.Pairwise fun a b => a.toU128 < b.toU128

theorem mem_live {row : Row} : row ∈ live rows path ↔ row ∈ rows ∧ row.path = path ∧ row.undone = false := by
  simp [live, List.mem_filter]

theorem newestRow_eq (hkept : ∀ row ∈ rows, row.Kept) (h : Ascending ((live rows path).map (·.snapshot))) :
    newestRow rows path = (live rows path).getLast? := by
  apply argmax_of_ascending
  apply (List.pairwise_map.mp h).imp_of_mem
  intro a b ha hb hab
  exact sortKey_lt (hkept a (mem_live.mp ha).1) (hkept b (mem_live.mp hb).1) hab

theorem newestForPath_eq {resolved : Vec UInt8} (hkept : ∀ row ∈ rows, row.Kept)
    (hpath : pathText resolved = some path) :
    (newestForPath (.ok resolved) .none rows).map (Option.map (·.snapshot)) =
      .ok ((newestRow rows path).map (·.snapshot)) := by
  simp only [newestForPath, hpath, withTransaction, Faults.none, selectNewest, statement]
  cases hnewest : newestRow rows path with
  | none => rfl
  | some row =>
    have hwidth := (hkept row (mem_live.mp (List.argmax_mem hnewest)).1).hashed
    simp [decodeRow, hwidth, refused, bind, Except.bind, Except.map]

/-- A mark takes the snapshot from those that are not undone. -/
theorem live_marked (rows : List Row) (snapshot : SnapshotId) (path : Str) :
    live (marked rows snapshot) path = (live rows path).filter fun row => row.snapshot ≠ snapshot := by
  induction rows with
  | nil => rfl
  | cons row rows ih =>
    simp only [live, marked, List.map_cons, List.filter_cons] at ih ⊢
    by_cases hid : row.snapshot = snapshot <;> by_cases hundone : row.undone = false <;>
      by_cases hpath : row.path = path <;> simp_all

theorem undoNewest_eq (hkept : ∀ row ∈ rows, row.Kept) (h : Ascending ((live rows path).map (·.snapshot))) (n : Nat) :
    undoNewest n rows path = ((live rows path).map (·.snapshot)).reverse.take n := by
  induction n generalizing rows with
  | zero => rfl
  | succ n ih =>
    rw [undoNewest, newestRow_eq hkept h]
    rcases List.eq_nil_or_concat (live rows path) with hnil | ⟨earlier, last, hconcat⟩
    · rw [hnil]
      rfl
    · rw [List.concat_eq_append] at hconcat
      rw [hconcat] at h
      rw [hconcat, List.getLast?_concat]
      simp only [Ascending, List.map_append, List.map_singleton] at h
      obtain ⟨hearlier, -, hlast⟩ := List.pairwise_append.mp h
      have hrest : live (marked rows last.snapshot) path = earlier := by
        rw [live_marked, hconcat, List.filter_append]
        have hkeep : earlier.filter (fun row => row.snapshot ≠ last.snapshot) = earlier := by
          rw [List.filter_eq_self]
          intro row hrow
          have hlt := hlast row.snapshot (List.mem_map_of_mem hrow) last.snapshot (List.mem_singleton_self _)
          simp only [ne_eq, decide_not, Bool.not_eq_true', decide_eq_false_iff_not]
          rintro heq
          rw [heq] at hlt
          exact Nat.lt_irrefl _ hlt
        rw [hkeep]
        simp
      rw [List.map_append, List.map_singleton, List.reverse_append, List.reverse_singleton, List.singleton_append,
        List.take_succ_cons]
      simp only
      rw [ih (kept_marked hkept) (by rw [hrest]; exact hearlier), hrest]

/-- While the identifiers ascend, the report goes back in the order of the snapshots. -/
theorem Recorded.walksBack (h : Recorded rows hist) (hasc : ∀ path, Ascending (standing hist path)) :
    WalksBack rows (standing hist) where
  newest resolved path hpath := by
    have hlive : Ascending ((live rows path).map (·.snapshot)) := by
      rw [h.live_eq]
      exact hasc path
    rw [newestForPath_eq h.kept hpath, newestRow_eq h.kept hlive, ← h.live_eq, List.getLast?_map]
  undone path n := by
    have hlive : Ascending ((live rows path).map (·.snapshot)) := by
      rw [h.live_eq]
      exact hasc path
    rw [undoNewest_eq h.kept hlive, h.live_eq]

/-! ## Steps -/

theorem standing_concat (hist : List Step) (s : Step) (path : Str) :
    standing (hist ++ [s]) path =
      ((hist.filterMap taken ++ (taken s).toList).filter fun t =>
        t.2 = path ∧ t.1 ∉ hist.filterMap unmade ++ (unmade s).toList).map (·.1) := by
  rw [standing, filterMap_concat, filterMap_concat]

/-- A snapshot joins at the end of those of its path. -/
theorem Recorded.standing_takes {s : Step} {row : Row} (h : Recorded rows hist)
    (hfresh : row.snapshot ∉ rows.map (·.snapshot)) (htaken : Journal.taken s = some (row.snapshot, row.path))
    (hunmade : unmade s = none) (path : Str) :
    standing (hist ++ [s]) path = standing hist path ++ if row.path = path then [row.snapshot] else [] := by
  have hnot : row.snapshot ∉ hist.filterMap unmade := fun hmem => hfresh (h.past _ hmem)
  rw [standing_concat, htaken, hunmade, Option.toList_none, List.append_nil, List.filter_append, List.map_append,
    standing]
  congr 1
  by_cases hpath : row.path = path
  · simp [hpath, hnot]
  · simp [hpath]

/-- A mark leaves those that are not undone in their order. -/
theorem standing_marks {s : Step} (htaken : taken s = none) (hist : List Step) (path : Str) :
    (standing (hist ++ [s]) path).Sublist (standing hist path) := by
  rw [standing_concat, htaken, Option.toList_none, List.append_nil, standing]
  apply List.Sublist.map
  apply List.monotone_filter_right
  intro t ht
  simp only [List.mem_append, not_or, decide_eq_true_eq] at ht ⊢
  exact ⟨ht.1, ht.2.1⟩

theorem Recorded.ascending_moves {rows' : List Row} {s : Step} (h : Recorded rows hist)
    (hmoves : Moves rows rows' (Journal.taken s) (unmade s)) (hord : InOrder hist s)
    (hasc : ∀ path, Ascending (standing hist path)) (path : Str) : Ascending (standing (hist ++ [s]) path) := by
  generalize htaken : Journal.taken s = t at hmoves
  generalize hunmade : unmade s = m at hmoves
  cases hmoves with
  | quiet => exact (hasc path).sublist (standing_marks htaken hist path)
  | marks => exact (hasc path).sublist (standing_marks htaken hist path)
  | takes hkept hlive hfresh =>
    rename_i row
    rw [h.standing_takes hfresh htaken hunmade]
    by_cases hpath : row.path = path
    · rw [if_pos hpath]
      apply List.pairwise_append.mpr
      refine ⟨hasc path, List.pairwise_singleton _ _, ?_⟩
      intro earlier hearlier last hlast
      obtain rfl := List.mem_singleton.mp hlast
      exact hord row.snapshot row.path htaken earlier (hpath ▸ hearlier)
    · rw [if_neg hpath, List.append_nil]
      exact hasc path

theorem pathText_bytes (path : Str) : ∃ resolved, pathText resolved = some path := by
  have hlen : path.bytes.length = path.text.utf8ByteSize := by
    simp [Str.bytes]
  refine ⟨⟨path.bytes, hlen ▸ path.fits⟩, ?_⟩
  have hvalid : (ByteArray.mk path.bytes.toArray) = path.text.toByteArray := by
    simp [Str.bytes]
  have hutf8 : (ByteArray.mk path.bytes.toArray).IsValidUTF8 := hvalid ▸ path.text.isValidUTF8
  rw [pathText, dif_pos hutf8]
  congr 1

/-- A report that names the snapshot just taken shows that it has the greatest identifier. -/
theorem Recorded.inOrder {rows' : List Row} {s : Step} (h : Recorded rows hist) (hnodup : (rows'.map (·.snapshot)).Nodup)
    (hmoves : Moves rows rows' (Journal.taken s) (unmade s)) (hback : WalksBack rows' (standing (hist ++ [s]))) :
    InOrder hist s := by
  intro snapshot path htaken earlier hearlier
  have hafter := h.moves hmoves
  rw [htaken] at hmoves
  generalize hunmade : unmade s = m at hmoves
  cases hmoves with
  | takes hkept hlive hfresh =>
    rename_i row
    have hstanding := h.standing_takes hfresh htaken hunmade row.path
    rw [if_pos rfl] at hstanding
    obtain ⟨resolved, hresolved⟩ := pathText_bytes row.path
    have hnewest := hback.newest resolved row.path hresolved
    rw [newestForPath_eq hafter.kept hresolved, hstanding, List.getLast?_concat] at hnewest
    obtain ⟨newest, hmem, hid⟩ := Option.map_eq_some_iff.mp (Except.ok.inj hnewest)
    have hlive' := hafter.live_eq row.path
    rw [hstanding] at hlive'
    have hin : earlier ∈ (live (rows ++ [row]) row.path).map (·.snapshot) := by
      rw [hlive']
      exact List.mem_append_left _ hearlier
    obtain ⟨old, hold, rfl⟩ := List.mem_map.mp hin
    rcases Nat.lt_trichotomy old.snapshot.toU128 row.snapshot.toU128 with hlt | heq | hgt
    · exact hlt
    · exfalso
      have hsame := Id.toU128_injective heq
      have hids : ((live (rows ++ [row]) row.path).map (·.snapshot)).Nodup :=
        hnodup.sublist (List.filter_sublist.map _)
      rw [hlive'] at hids
      have hdisjoint := (List.nodup_append.mp hids).2.2
      exact hdisjoint _ hearlier row.snapshot (List.mem_singleton_self _) hsame
    · exfalso
      have hle := List.le_of_mem_argmax hold hmem
      rw [← hid] at hgt
      have hlt := sortKey_lt (hafter.kept newest (mem_live.mp (List.argmax_mem hmem)).1)
        (hafter.kept old (mem_live.mp hold).1) hgt
      exact absurd hle (not_le_of_gt hlt)

/-! ## Runs -/

/-- What holds before and after each step of a run. -/
theorem trace_recorded (fs : Fs Path Bytes) (as : List Act) {before after : List Step} {t : Step}
    (ht : trace (step blake3) (World.start fs) as = before ++ t :: after) :
    Recorded t.1.rows before ∧ Moves t.1.rows t.2.2.rows (taken t) (unmade t) ∧
      (t.2.2.rows.map (·.snapshot)).Nodup := by
  have hstart : Inv blake3 (World.start fs) [] ∧ Recorded (World.start fs).rows [] := by
    refine ⟨inv_start fs, ⟨rfl, ?_, ?_, ?_⟩⟩
    · intro row hrow
      cases hrow
    · intro row hrow
      cases hrow
    · intro snapshot hmem
      cases hmem
  have hkeep : ∀ w hist a w', Inv blake3 w hist ∧ Recorded w.rows hist → True → step blake3 w a = some w' →
      Inv blake3 w' (hist ++ [(w, a, w')]) ∧ Recorded w'.rows (hist ++ [(w, a, w')]) := by
    rintro w hist a w' ⟨hinv, hrecorded⟩ - hstep
    exact ⟨step_inv w hist a w' hinv hstep, hrecorded.moves (s := (w, a, w')) (step_moves hinv hstep)⟩
  obtain ⟨⟨hinv, hrecorded⟩, hstep⟩ := trace_history (fun _ _ => True) hkeep as hstart (fun _ _ => trivial) ht
  rw [List.nil_append] at hinv hrecorded
  exact ⟨hrecorded, step_moves hinv hstep, (step_inv _ _ _ _ hinv hstep).nodup⟩

/-- In every run, whatever fails and whatever other programs do: after every step the report names, for
every path, the snapshot taken last of those not undone, and undos of the newest mark them in the reverse
order, exactly if every snapshot got an identifier above those of its path that stood when it was taken. -/
theorem newest_taken_last_iff (fs : Fs Path Bytes) (as : List Act) :
    (∀ before t after, trace (step blake3) (World.start fs) as = before ++ t :: after →
      WalksBack t.2.2.rows (standing (before ++ [t]))) ↔
    ∀ before t after, trace (step blake3) (World.start fs) as = before ++ t :: after → InOrder before t := by
  constructor
  · intro hback before t after ht
    obtain ⟨hrecorded, hmoves, hnodup⟩ := trace_recorded fs as ht
    exact hrecorded.inOrder hnodup hmoves (hback before t after ht)
  · intro hord
    have hasc : ∀ before after, trace (step blake3) (World.start fs) as = before ++ after →
        ∀ path, Ascending (standing before path) := by
      intro before
      induction before using List.reverseRecOn with
      | nil =>
        intro _ _ path
        exact List.Pairwise.nil
      | append_singleton before t ih =>
        intro after ht path
        rw [List.append_assoc, List.singleton_append] at ht
        obtain ⟨hrecorded, hmoves, -⟩ := trace_recorded fs as ht
        exact hrecorded.ascending_moves hmoves (hord before t after ht) (ih _ ht) path
    intro before t after ht
    obtain ⟨hrecorded, hmoves, -⟩ := trace_recorded fs as ht
    refine (hrecorded.moves hmoves).walksBack ?_
    apply hasc _ after
    rw [List.append_assoc, List.singleton_append, ht]

theorem path_fits : (utf8 "/d/a").length < 2 ^ 63 := by decide

/-- A snapshot of the one file, from its opening to its commit. -/
def snapshotOf (call : Nat) (generated : SnapshotId) : List Act :=
  [.snapshot call (.opens (utf8 "a") (.ok (0, true))), .snapshot call (.canonicalize (.ok ⟨utf8 "/d/a", path_fits⟩)),
    .snapshot call (.symlinkMetadata none), .snapshot call (.readToEnd none),
    .snapshot call (.symlinkMetadataAfter none), .snapshot call (.withTransaction .none generated)]

/-- Two snapshots of one file within one millisecond, the second with the smaller random bits. -/
def withinOneTick : List Act := snapshotOf 0 (.generate 1700000000000 9) ++ snapshotOf 1 (.generate 1700000000000 3)

/-- The report names the first of the two. -/
theorem within_one_tick_names_first : ¬ ∀ before t after,
    trace (step fun _ => ⟨Vector.replicate 32 0⟩) (World.start oneFile) withinOneTick = before ++ t :: after →
      WalksBack t.2.2.rows (standing (before ++ [t])) := by
  intro hback
  have hlast : ((trace (step fun _ => ⟨Vector.replicate 32 0⟩) (World.start oneFile) withinOneTick).getLast?.any fun t =>
      match newestForPath (.ok ⟨utf8 "/d/a", by decide⟩) .none t.2.2.rows with
      | .ok found => found.map (·.snapshot) ≠
          (standing (trace (step fun _ => ⟨Vector.replicate 32 0⟩) (World.start oneFile) withinOneTick)
            ⟨"/d/a", by decide⟩).getLast?
      | .error _ => false) = true := by decide +kernel
  generalize trace (step fun _ => ⟨Vector.replicate 32 0⟩) (World.start oneFile) withinOneTick = steps at hback hlast
  obtain ⟨t, ht, hdiffers⟩ := (Option.any_eq_true _ _).mp hlast
  have hsteps : steps.dropLast ++ [t] = steps := List.dropLast_append_getLast? t ht
  have hnewest := (hback steps.dropLast t [] hsteps.symm).newest ⟨utf8 "/d/a", by decide⟩ ⟨"/d/a", by decide⟩
    (by decide +kernel)
  rw [hsteps] at hnewest
  split at hdiffers
  · rename_i found hfound
    rw [hfound] at hnewest
    exact of_decide_eq_true hdiffers (Except.ok.inj hnewest)
  · cases hdiffers

end SupraHarness.Journal
