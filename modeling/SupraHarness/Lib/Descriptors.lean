import Mathlib.Data.List.Basic

/-!
# Tables of descriptors

The open descriptors of a process: each number that is open refers to a file, and is kept or closed when a program is
started. Opening takes the lowest number that is free.
-/
namespace SupraHarness.Descriptors

structure Descriptor (F : Type) where
  file : F
  closeOnExec : Bool
  deriving DecidableEq, Repr

/-- Numbers from `bound` on are free. -/
structure Table (F : Type) where
  get : Nat → Option (Descriptor F)
  bound : Nat
  free : ∀ fd, bound ≤ fd → get fd = none

variable {F : Type}

namespace Table

/-- The table with one entry changed. -/
def set (table : Table F) (fd : Nat) (entry : Option (Descriptor F)) : Table F where
  get other := if other = fd then entry else table.get other
  bound := max table.bound (fd + 1)
  free other le := by
    rw [if_neg (by omega)]
    exact table.free other (by omega)

/-- The lowest number that is free. -/
def lowest (table : Table F) : Nat := ((List.range table.bound).find? fun fd => (table.get fd).isNone).getD table.bound

/-- `open` without `O_CLOEXEC`. -/
def openFile (table : Table F) (file : F) : Nat × Table F := (table.lowest, table.set table.lowest (some ⟨file, false⟩))

/-- `dup2`: refused where the source is not open; a descriptor that is its own source stays as it is. -/
def dup2 (table : Table F) (source target : Nat) : Option (Table F) :=
  (table.get source).map fun descriptor =>
    if source = target then table else table.set target (some ⟨descriptor.file, false⟩)

def close (table : Table F) (fd : Nat) : Table F := table.set fd none

/-- What a program that is started finds open. -/
def exec (table : Table F) : Table F where
  get fd := (table.get fd).filter fun descriptor => !descriptor.closeOnExec
  bound := table.bound
  free fd le := by rw [table.free fd le, Option.filter_none]

@[simp] theorem get_set (table : Table F) (fd other : Nat) (entry : Option (Descriptor F)) :
    (table.set fd entry).get other = if other = fd then entry else table.get other := rfl

theorem get_dup2 {table table' : Table F} {source target : Nat} (h : table.dup2 source target = some table') (fd : Nat) :
    table'.get fd = if fd = target ∧ source ≠ target then
      (table.get source).map fun descriptor => ⟨descriptor.file, false⟩ else table.get fd := by
  obtain ⟨descriptor, found, rfl⟩ := Option.map_eq_some_iff.1 h
  by_cases same : source = target
  · rw [if_pos same, if_neg (fun both => both.2 same)]
  · rw [if_neg same, get_set, found, Option.map_some]
    by_cases here : fd = target
    · rw [if_pos here, if_pos ⟨here, same⟩]
    · rw [if_neg here, if_neg fun both => here both.1]

theorem dup2_of_open {table : Table F} {source : Nat} (h : table.get source ≠ none) (target : Nat) :
    ∃ table', table.dup2 source target = some table' := by
  obtain ⟨descriptor, found⟩ := Option.ne_none_iff_exists'.1 h
  exact ⟨_, by rw [dup2, found, Option.map_some]⟩

theorem get_lowest (table : Table F) : table.get table.lowest = none := by
  rw [lowest]
  cases found : (List.range table.bound).find? fun fd => (table.get fd).isNone with
  | none => exact table.free _ (Nat.le_refl _)
  | some fd => simpa using List.find?_some found

/-- Numbers below the lowest free one are open. -/
theorem lowest_le {table : Table F} {fd : Nat} (h : table.get fd = none) : table.lowest ≤ fd := by
  rw [lowest]
  cases found : (List.range table.bound).find? fun fd => (table.get fd).isNone with
  | none =>
    rw [List.find?_eq_none] at found
    rw [Option.getD_none]
    by_contra less
    exact found fd (List.mem_range.2 (by omega)) (by simp [h])
  | some lower =>
    rw [List.find?_range_eq_some] at found
    rw [Option.getD_some]
    by_contra less
    have open_ := found.2.2 fd (by omega)
    simp [h] at open_

/-- Where all numbers below are open, a number is the lowest free one if it is free. -/
theorem lowest_eq_iff {table : Table F} {fd : Nat} (below : ∀ lower < fd, table.get lower ≠ none) :
    table.lowest = fd ↔ table.get fd = none := by
  constructor
  · rintro rfl
    exact table.get_lowest
  · intro free
    by_contra other
    have le := lowest_le free
    exact below table.lowest (by omega) table.get_lowest

theorem get_exec_eq_some {table : Table F} {fd : Nat} {descriptor : Descriptor F} :
    table.exec.get fd = some descriptor ↔ table.get fd = some descriptor ∧ descriptor.closeOnExec = false := by
  rw [exec, Option.filter_eq_some_iff, Bool.not_eq_true']

end Table

end SupraHarness.Descriptors
