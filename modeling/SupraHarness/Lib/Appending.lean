import Mathlib.Data.List.Basic

/-!
# Writing into a buffer

A writer adds text behind what a buffer holds, or gives up. `Appends` is what such a writer is held to: if it comes
back, the buffer holds just the text more, and it comes back if the text stays below a limit. Writers one after the
other append their texts one after the other.
-/
namespace SupraHarness.Appending

variable {β α ι : Type*} {contents : β → List α} {limit : Nat}

structure Appends (contents : β → List α) (limit : Nat) (write : β → Option β) (text : List α) : Prop where
  added : ∀ {b b' : β}, write b = some b' → contents b' = contents b ++ text
  succeeds : ∀ {b : β}, (contents b).length + text.length < limit → ∃ b', write b = some b'

theorem Appends.done : Appends contents limit some [] where
  added h := by
    obtain rfl := Option.some.inj h
    exact (List.append_nil _).symm
  succeeds _ := ⟨_, rfl⟩

theorem Appends.bind {first second : β → Option β} {text text' : List α} (hf : Appends contents limit first text)
    (hs : Appends contents limit second text') :
    Appends contents limit (fun b => (first b).bind second) (text ++ text') where
  added h := by
    obtain ⟨middle, hfirst, hsecond⟩ := Option.bind_eq_some_iff.1 h
    rw [hs.added hsecond, hf.added hfirst, List.append_assoc]
  succeeds {b} room := by
    rw [List.length_append] at room
    obtain ⟨middle, hfirst⟩ := hf.succeeds (b := b) (by omega)
    have length : (contents middle).length = (contents b).length + text.length := by
      rw [hf.added hfirst, List.length_append]
    obtain ⟨b', hsecond⟩ := hs.succeeds (b := middle) (by omega)
    exact ⟨b', by rw [hfirst]; exact hsecond⟩

theorem Appends.ite {p : Prop} [Decidable p] {write write' : β → Option β} {text text' : List α}
    (h : p → Appends contents limit write text) (h' : ¬ p → Appends contents limit write' text') :
    Appends contents limit (fun b => if p then write b else write' b) (if p then text else text') := by
  by_cases hp : p
  · simpa only [if_pos hp] using h hp
  · simpa only [if_neg hp] using h' hp

/-- Items written one after the other. -/
def writeAll (write : ι → β → Option β) : List ι → β → Option β
  | [], b => some b
  | item :: items, b => (write item b).bind (writeAll write items)

theorem Appends.writeAll {write : ι → β → Option β} {text : ι → List α} {items : List ι}
    (h : ∀ item ∈ items, Appends contents limit (write item) (text item)) :
    Appends contents limit (Appending.writeAll write items) (items.flatMap text) := by
  induction items with
  | nil => exact .done
  | cons item items ih =>
    rw [List.forall_mem_cons] at h
    rw [List.flatMap_cons]
    exact h.1.bind (ih h.2)

end SupraHarness.Appending
