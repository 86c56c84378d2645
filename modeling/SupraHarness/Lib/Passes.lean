import Mathlib.Data.List.Basic
import Mathlib.Logic.Function.Basic

/-!
# Passes over keyed entries

A pass changes the entries under the keys of some items, one after the other. Where the keys differ,
each entry is what its own item makes of it, and passes over the same items compose entry by entry.
-/
namespace SupraHarness.Passes

variable {α κ β : Type} [DecidableEq κ] (key : α → κ)

/-- One item after the other, what it makes of the entry under its key. -/
def pass (act : α → Option β → Option β) (items : List α) (entries : κ → Option β) : κ → Option β :=
  items.foldl (fun entries item => Function.update entries (key item) (act item (entries (key item)))) entries

variable {key}

theorem pass_of_notMem {act : α → Option β → Option β} {items : List α} {entries : κ → Option β} {k : κ}
    (absent : k ∉ items.map key) : pass key act items entries k = entries k := by
  induction items generalizing entries with
  | nil => rfl
  | cons item items ih =>
    simp only [List.map_cons, List.mem_cons, not_or] at absent
    rw [pass, List.foldl_cons, ← pass, ih absent.2, Function.update_of_ne absent.1]

theorem pass_of_mem {act : α → Option β → Option β} {items : List α} {entries : κ → Option β}
    (distinct : (items.map key).Nodup) {item : α} (mem : item ∈ items) :
    pass key act items entries (key item) = act item (entries (key item)) := by
  induction items generalizing entries with
  | nil => cases mem
  | cons first items ih =>
    rw [List.map_cons, List.nodup_cons] at distinct
    rw [pass, List.foldl_cons, ← pass]
    rcases List.mem_cons.1 mem with rfl | mem
    · rw [pass_of_notMem distinct.1, Function.update_self]
    · have other : key item ≠ key first := fun same => distinct.1 (same ▸ List.mem_map_of_mem mem)
      rw [ih distinct.2 mem, Function.update_of_ne other]

/-- Entries that are the same away from the items are the same if they are under their keys. -/
theorem eq_iff_of_away {items : List α} {entries entries' : κ → Option β}
    (away : ∀ k ∉ items.map key, entries' k = entries k) :
    entries' = entries ↔ ∀ item ∈ items, entries' (key item) = entries (key item) := by
  constructor
  · rintro rfl item _
    rfl
  · intro same
    funext k
    by_cases mem : k ∈ items.map key
    · obtain ⟨item, here, rfl⟩ := List.mem_map.1 mem
      exact same item here
    · exact away k mem

end SupraHarness.Passes
