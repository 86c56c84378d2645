import Mathlib.Data.List.Basic

/-!
# Replicas of a logged value

A value changes by one write after another, and the log keeps every version. A replica holds a value
and the number of the version it takes it for. It is right when the log has that value under that
number. Loading a version makes a replica right; so does applying a write to a replica of the version
before it, or to one of its own version; a longer log keeps it right.
-/
namespace SupraHarness.Replica

variable {σ : Type*} {log : List σ} {value : σ} {version number : Nat} {write : σ → σ}

/-- The replica holds the version it takes its value for. -/
def Right (log : List σ) (value : σ) (version : Nat) : Prop := log[version]? = some value

/-- The write that made the version of this number; applying it twice is applying it once. -/
structure Wrote (log : List σ) (number : Nat) (write : σ → σ) : Prop where
  idempotent : ∀ value, write (write value) = write value
  made : ∃ old, log[number - 1]? = some old ∧ log[number]? = some (write old)
  notFirst : 0 < number

theorem Right.append (h : Right log value version) (more : List σ) : Right (log ++ more) value version := by
  have hlt := (List.getElem?_eq_some_iff.mp h).1
  rw [Right, List.getElem?_append_left hlt, h]

theorem Wrote.append (h : Wrote log number write) (more : List σ) : Wrote (log ++ more) number write := by
  obtain ⟨old, hold, hnew⟩ := h.made
  exact ⟨h.idempotent, ⟨old, Right.append hold more, Right.append hnew more⟩, h.notFirst⟩

/-- The last write on the log. -/
theorem Wrote.last (hidem : ∀ value, write (write value) = write value) (old : σ) (before : List σ) :
    Wrote (before ++ [old] ++ [write old]) (before.length + 1) write := by
  refine ⟨hidem, ⟨old, ?_, ?_⟩, Nat.succ_pos _⟩
  · simp
  · rw [List.getElem?_append_right (by simp)]
    simp

/-- A write reaches a replica of its own version, or of the one before it. -/
theorem Right.apply (h : Right log value version) (hw : Wrote log number write)
    (hnear : number = version ∨ number = version + 1) : Right log (write value) number := by
  obtain ⟨old, hold, hnew⟩ := hw.made
  rcases hnear with rfl | rfl
  · rw [Right, hnew] at h
    have hsame : write value = value := by
      rw [← Option.some.inj h, hw.idempotent]
    rw [Right, hnew, hsame, Option.some.inj h]
  · rw [Right] at h
    rw [Nat.add_sub_cancel, h] at hold
    rw [Right, hnew, Option.some.inj hold]

end SupraHarness.Replica
