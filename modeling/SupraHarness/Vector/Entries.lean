import Mathlib.Data.List.Find
import SupraHarness.Vector.Index

/-!
# The entries of the store

What the tables hold under a locator: the vector, its code, its time and its text. A committed upsert
changes the entry of its own locator and a committed removal clears it; a call that fails changes
nothing.
-/
namespace SupraHarness.Vector

open SupraHarness.Types SupraHarness.Store

structure Entry where
  embedding : List UInt8
  code : List UInt8
  updatedAt : Nat
  body : Option Str
  deriving DecidableEq, Repr

def textOf (texts : List (Int × Str)) (slot : Int) : Option Str :=
  (texts.find? fun text => text.1 = slot).map Prod.snd

def rowAt (tables : Tables) (locator : List Char) : Option EntryRow :=
  tables.entries.find? fun row => row.locator.text.toList = locator

/-- The entry under a locator. -/
def contents (tables : Tables) (locator : List Char) : Option Entry :=
  (rowAt tables locator).map fun row => ⟨row.embedding, row.code, row.updatedAt, textOf tables.texts row.slot⟩

/-- One row for each slot and for each locator. -/
structure Tables.Keyed (tables : Tables) : Prop where
  slots : (tables.entries.map fun row => row.slot).Nodup
  locators : (tables.entries.map fun row => row.locator).Nodup

theorem toList_text_inj {a b : Str} : a.text.toList = b.text.toList ↔ a = b := by
  constructor
  · intro h
    exact Str.ext (String.toList_inj.mp h)
  · rintro rfl
    rfl

theorem textOf_replace (texts : List (Int × Str)) (slot other : Int) (body : Str) :
    textOf ((texts.filter fun text => text.1 ≠ slot) ++ [(slot, body)]) other =
      if other = slot then some body else textOf texts other := by
  by_cases h : other = slot
  · subst h
    have hnone : (texts.filter fun text => text.1 ≠ other).find? (fun text => text.1 = other) = none := by
      simp [List.find?_eq_none]
    rw [if_pos rfl, textOf, List.find?_append, hnone]
    simp
  · have hkeep : (fun text : Int × Str => decide (decide (text.1 ≠ slot) = true ∧ decide (text.1 = other) = true)) =
        fun text => decide (text.1 = other) := by
      funext text
      by_cases ht : text.1 = other <;> simp [ht, h]
    have hslot : ¬ slot = other := fun he => h he.symm
    rw [if_neg h, textOf, List.find?_append, List.find?_filter, hkeep, textOf]
    simp [hslot]

theorem textOf_filter {slot other : Int} (texts : List (Int × Str)) (h : other ≠ slot) :
    textOf (texts.filter fun text => text.1 ≠ slot) other = textOf texts other := by
  rw [textOf, List.find?_filter, textOf]
  congr 2
  funext text
  by_cases ht : text.1 = other <;> simp [ht, h]

theorem rowAt_mem {tables : Tables} {locator : List Char} {row : EntryRow} (h : rowAt tables locator = some row) :
    row ∈ tables.entries ∧ row.locator.text.toList = locator :=
  ⟨List.mem_of_find?_eq_some h, by simpa using List.find?_some h⟩

/-- The row of a locator, found by the locator itself. -/
theorem rowAt_eq (tables : Tables) (locator : Str) :
    rowAt tables locator.text.toList = tables.entries.find? fun row => row.locator = locator := by
  rw [rowAt]
  congr 1
  funext row
  simp only [toList_text_inj]

/-- The rows with the locator or the slot of a row are that row. -/
theorem Tables.Keyed.eq_of_slot {tables : Tables} (h : tables.Keyed) {row other : EntryRow}
    (hrow : row ∈ tables.entries) (hother : other ∈ tables.entries) (hslot : other.slot = row.slot) : other = row :=
  List.inj_on_of_nodup_map h.slots hother hrow hslot

theorem Tables.Keyed.eq_of_locator {tables : Tables} (h : tables.Keyed) {row other : EntryRow}
    (hrow : row ∈ tables.entries) (hother : other ∈ tables.entries) (hlocator : other.locator = row.locator) :
    other = row :=
  List.inj_on_of_nodup_map h.locators hother hrow hlocator

/-- The tables after an upsert: its row is in the place of the one with its locator, or behind the
others, and its text is the only one of its slot. -/
theorem upsertWork_tables {faults : Faults} {locator body : Str} {embedding code : List UInt8} {stamp : Nat}
    {tables t' : Tables} {write : Write}
    (h : upsertWork faults locator body embedding code stamp tables = .ok (t', write)) :
    t'.texts = (tables.texts.filter fun text => text.1 ≠ write.slot) ++ [(write.slot, body)] ∧
      ((∃ found, rowAt tables locator.text.toList = some found ∧ write.slot = found.slot ∧
          t'.entries = tables.entries.map fun old =>
            if old.slot = found.slot then ⟨found.slot, locator, embedding, code, stamp⟩ else old) ∨
        (rowAt tables locator.text.toList = none ∧ write.slot ∉ tables.entries.map (fun row => row.slot) ∧
          t'.entries = tables.entries ++ [⟨write.slot, locator, embedding, code, stamp⟩])) := by
  rw [rowAt_eq]
  simp only [upsertWork, upsertEntry, bind_eq_ok] at h
  obtain ⟨_, -, ⟨t₁, slot⟩, ⟨_, -, _, -, _, -, hentry⟩, _, -, _, -, _, -, ⟨t₂, revision⟩, hbump, h⟩ := h
  cases h
  unfold bumpRevision at hbump
  split at hbump
  · cases hbump
    cases hfind : tables.entries.find? fun row => row.locator = locator with
    | some found =>
      rw [hfind] at hentry
      cases hentry
      exact ⟨rfl, .inl ⟨found, rfl, rfl, rfl⟩⟩
    | none =>
      rw [hfind] at hentry
      simp only [bind_eq_ok] at hentry
      obtain ⟨new, hnew, hentry⟩ := hentry
      cases hentry
      exact ⟨rfl, .inr ⟨rfl, newSlot_fresh hnew, rfl⟩⟩
  · cases hbump

/-- An upsert in the place of a row changes the row of its locator only. -/
theorem rowAt_replace {tables t' : Tables} (hk : tables.Keyed) {found row : EntryRow}
    (hfound : found ∈ tables.entries)
    (h : t'.entries = tables.entries.map fun old => if old.slot = found.slot then row else old)
    (hlocator : row.locator = found.locator) (hslot : row.slot = found.slot) :
    t'.Keyed ∧ ∀ locator, rowAt t' locator =
      (rowAt tables locator).map fun old => if old.slot = found.slot then row else old := by
  have hsame : ∀ old ∈ tables.entries, (if old.slot = found.slot then row else old).locator = old.locator ∧
      (if old.slot = found.slot then row else old).slot = old.slot := by
    intro old hold
    by_cases ho : old.slot = found.slot
    · obtain rfl := hk.eq_of_slot hfound hold ho
      simp [hlocator, hslot]
    · simp [ho]
  constructor
  · constructor
    · have hslots : t'.entries.map (fun row => row.slot) = tables.entries.map fun row => row.slot := by
        rw [h, List.map_map]
        exact List.map_congr_left fun old hold => (hsame old hold).2
      exact hslots ▸ hk.slots
    · have hlocators : t'.entries.map (fun row => row.locator) = tables.entries.map fun row => row.locator := by
        rw [h, List.map_map]
        exact List.map_congr_left fun old hold => (hsame old hold).1
      exact hlocators ▸ hk.locators
  · intro locator
    rw [rowAt, h, List.find?_map, rowAt]
    congr 1
    apply List.find?_congr
    intro old hold
    simp [(hsame old hold).1]

/-- A committed upsert makes an entry of its vector and its text, and changes no other. -/
theorem contents_upsert {F : Type} [F32 F] {config : Meta F} {faults : Faults} {stamp : Nat} {tables t' : Tables}
    {locator body : Str} {embedding : List F} {write : Write} (hk : tables.Keyed)
    (h : commitUpsert config faults stamp tables locator body embedding = (t', .ok write)) :
    t'.Keyed ∧ ∃ code, encode embedding config.threshold = .ok code ∧
      contents t' = Function.update (contents tables) locator.text.toList
        (some ⟨encodeEmbedding embedding, code, stamp, some body⟩) := by
  obtain ⟨-, code, hcode, hwork⟩ := commitUpsert_cases h
  obtain ⟨htexts, ⟨found, hfound, hslot, hentries⟩ | ⟨hnone, hfresh, hentries⟩⟩ := upsertWork_tables hwork
  · obtain ⟨hmem, hlocator⟩ := rowAt_mem hfound
    obtain ⟨hkeyed, hrows⟩ := rowAt_replace hk hmem hentries (toList_text_inj.mp hlocator).symm rfl
    refine ⟨hkeyed, code, hcode, ?_⟩
    funext other
    rw [contents, hrows, htexts, hslot, Function.update_apply]
    by_cases hother : other = locator.text.toList
    · rw [if_pos hother, hother, hfound, Option.map_some, Option.map_some, if_pos rfl, textOf_replace, if_pos rfl]
    · rw [if_neg hother, contents]
      cases hrow : rowAt tables other with
      | none => rfl
      | some row =>
        have hne : row.slot ≠ found.slot := by
          intro heq
          obtain ⟨hrmem, hrlocator⟩ := rowAt_mem hrow
          rw [hk.eq_of_slot hmem hrmem heq, hlocator] at hrlocator
          exact hother hrlocator.symm
        rw [Option.map_some, Option.map_some, Option.map_some, if_neg hne, textOf_replace, if_neg hne]
  · refine ⟨⟨?_, ?_⟩, code, hcode, ?_⟩
    · rw [hentries, List.map_append, List.nodup_append]
      refine ⟨hk.slots, List.nodup_singleton _, ?_⟩
      intro a ha b hb heq
      exact hfresh (by rwa [← (List.mem_singleton.mp hb : b = write.slot), ← heq])
    · rw [hentries, List.map_append, List.nodup_append]
      refine ⟨hk.locators, List.nodup_singleton _, ?_⟩
      intro a ha b hb heq
      obtain ⟨row, hrow, rfl⟩ := List.mem_map.mp ha
      have hlocator : row.locator = locator := heq.trans (List.mem_singleton.mp hb)
      exact List.find?_eq_none.mp hnone row hrow (by simp [hlocator])
    · funext other
      rw [contents, rowAt, hentries, List.find?_append, ← rowAt, htexts, Function.update_apply]
      by_cases hother : other = locator.text.toList
      · rw [if_pos hother, hother, hnone, Option.none_or, List.find?_cons_of_pos (by simp), Option.map_some,
          textOf_replace, if_pos rfl]
      · rw [if_neg hother, contents]
        cases hrow : rowAt tables other with
        | none =>
          have hne : ¬ locator.text.toList = other := fun heq => hother heq.symm
          simp [hne]
        | some row =>
          have hne : row.slot ≠ write.slot := fun heq =>
            hfresh (heq ▸ List.mem_map_of_mem (rowAt_mem hrow).1)
          rw [Option.some_or, Option.map_some, Option.map_some, textOf_replace, if_neg hne]

/-- A committed removal clears the entry of its locator, and changes no other. -/
theorem contents_remove {faults : Faults} {tables t' : Tables} {locator : Str} {removed : Option Write}
    (hk : tables.Keyed) (h : commitRemove faults tables locator = (t', .ok removed)) :
    t'.Keyed ∧ contents t' = Function.update (contents tables) locator.text.toList none := by
  have hwork := sqlite_eq_ok (withTransaction_ok h)
  simp only [removeWork, bind_eq_ok] at hwork
  obtain ⟨_, -, hwork⟩ := hwork
  rw [← rowAt_eq] at hwork
  cases hfind : rowAt tables locator.text.toList with
  | none =>
    rw [hfind] at hwork
    cases hwork
    refine ⟨hk, (Function.update_eq_self_iff.mpr ?_).symm⟩
    rw [contents, hfind, Option.map_none]
  | some found =>
    obtain ⟨hmem, hlocator⟩ := rowAt_mem hfind
    rw [hfind] at hwork
    simp only [bind_eq_ok] at hwork
    obtain ⟨_, -, _, -, ⟨t₂, revision⟩, hbump, hwork⟩ := hwork
    cases hwork
    unfold bumpRevision at hbump
    split at hbump
    · cases hbump
      refine ⟨⟨hk.slots.sublist (List.filter_sublist.map _), hk.locators.sublist (List.filter_sublist.map _)⟩, ?_⟩
      funext other
      rw [contents, rowAt, List.find?_filter, Function.update_apply]
      by_cases hother : other = locator.text.toList
      · rw [if_pos hother, Option.map_eq_none_iff, List.find?_eq_none]
        intro row hrow hboth
        simp only [ne_eq, decide_not, Bool.not_eq_true', decide_eq_false_iff_not, decide_eq_true_eq] at hboth
        have heq := hk.eq_of_locator hmem hrow (toList_text_inj.mp (hboth.2.trans (hother.trans hlocator.symm)))
        exact hboth.1 (heq ▸ rfl)
      · rw [if_neg hother, contents, rowAt]
        have hkeep : tables.entries.find? (fun row => decide (decide (row.slot ≠ found.slot) = true ∧
            decide (row.locator.text.toList = other) = true)) =
            tables.entries.find? fun row => row.locator.text.toList = other := by
          apply List.find?_congr
          intro row hrow
          by_cases hrl : row.locator.text.toList = other
          · have hne : row.slot ≠ found.slot := by
              intro heq
              rw [hk.eq_of_slot hmem hrow heq, hlocator] at hrl
              exact hother hrl.symm
            simp [hrl, hne]
          · simp [hrl]
        rw [hkeep]
        cases hrow : tables.entries.find? fun row => row.locator.text.toList = other with
        | none => rfl
        | some row =>
          have hne : row.slot ≠ found.slot := by
            intro heq
            obtain ⟨hrmem, hrlocator⟩ := rowAt_mem hrow
            rw [hk.eq_of_slot hmem hrmem heq, hlocator] at hrlocator
            exact hother hrlocator.symm
          rw [Option.map_some, Option.map_some, textOf_filter _ hne]
    · cases hbump

/-- A removal that fails changes nothing. -/
theorem commitRemove_error {faults : Faults} {tables t' : Tables} {locator : Str} {e : VectorError}
    (h : commitRemove faults tables locator = (t', .error e)) : t' = tables :=
  withTransaction_error h

/-! ## Runs -/

/-- A call that writes. -/
inductive StoreOp (F : Type) where
  | upsert (faults : Faults) (stamp : Nat) (locator body : Str) (embedding : List F)
  | remove (faults : Faults) (locator : Str)

/-- The tables, and the map they stand for: what the last call that succeeded left under each locator. -/
structure StoreState where
  tables : Tables
  held : List Char → Option Entry

variable {F : Type} [F32 F]

def storedEntry (config : Meta F) (stamp : Nat) (body : Str) (embedding : List F) : Entry :=
  ⟨encodeEmbedding embedding, (encode embedding config.threshold).toOption.getD [], stamp, some body⟩

def storeStep (config : Meta F) (w : StoreState) : StoreOp F → StoreState
  | .upsert faults stamp locator body embedding =>
    match commitUpsert config faults stamp w.tables locator body embedding with
    | (tables, .ok _) =>
      ⟨tables, Function.update w.held locator.text.toList (some (storedEntry config stamp body embedding))⟩
    | (tables, .error _) => ⟨tables, w.held⟩
  | .remove faults locator =>
    match commitRemove faults w.tables locator with
    | (tables, .ok _) => ⟨tables, Function.update w.held locator.text.toList none⟩
    | (tables, .error _) => ⟨tables, w.held⟩

/-- The tables hold the map, one row for each of its entries. -/
structure StoreState.Refines (w : StoreState) : Prop where
  keyed : w.tables.Keyed
  contents : contents w.tables = w.held

theorem refines_step (config : Meta F) {w : StoreState} (h : w.Refines) (op : StoreOp F) :
    (storeStep config w op).Refines := by
  cases op with
  | upsert faults stamp locator body embedding =>
    rw [storeStep]
    cases hcommit : commitUpsert config faults stamp w.tables locator body embedding with
    | mk tables result =>
      cases result with
      | ok write =>
        obtain ⟨hkeyed, code, hcode, hcontents⟩ := contents_upsert h.keyed hcommit
        have hentry : storedEntry config stamp body embedding =
            ⟨encodeEmbedding embedding, code, stamp, some body⟩ := by
          rw [storedEntry, hcode]
          rfl
        refine ⟨hkeyed, ?_⟩
        rw [hcontents, h.contents, hentry]
      | error e =>
        rw [commitUpsert_error hcommit]
        exact h
  | remove faults locator =>
    rw [storeStep]
    cases hcommit : commitRemove faults w.tables locator with
    | mk tables result =>
      cases result with
      | ok removed =>
        obtain ⟨hkeyed, hcontents⟩ := contents_remove h.keyed hcommit
        refine ⟨hkeyed, ?_⟩
        rw [hcontents, h.contents]
      | error e =>
        rw [commitRemove_error hcommit]
        exact h

/-- Whatever calls write, and whichever of them fail, the tables hold one row for each slot and each locator, and
under every locator what the last call on it that succeeded left there. -/
theorem store_refines_map (config : Meta F) (ops : List (StoreOp F)) :
    let w := ops.foldl (storeStep config) ⟨Tables.empty, fun _ => none⟩
    w.tables.Keyed ∧ ∀ locator, contents w.tables locator = w.held locator := by
  intro w
  have hrefines : w.Refines :=
    List.foldlRecOn ops (storeStep config) ⟨⟨List.nodup_nil, List.nodup_nil⟩, rfl⟩
      fun _ h op _ => refines_step config h op
  exact ⟨hrefines.keyed, congrFun hrefines.contents⟩

end SupraHarness.Vector
